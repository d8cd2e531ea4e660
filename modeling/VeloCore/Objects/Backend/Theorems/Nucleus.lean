import Mathlib
import VeloCore.Primitives.Shares
import VeloCore.Objects.Backend.Theorems.Samplers

open List Shares

-- Exact arithmetic with an abstract exponential
class ExactSoftmax (K : Type) [Field K] [LinearOrder K] extends Logit K, Softmax K where
  ge_eq (a b : K) : Logit.ge a b = decide (b ≤ a)
  zero_eq : (Softmax.zero : K) = 0
  one_eq : (Softmax.one : K) = 1
  minTemperature_eq : (Softmax.minTemperature : K) = 1e-6
  add_eq (a b : K) : Softmax.add a b = a + b
  sub_eq (a b : K) : Softmax.sub a b = a - b
  div_eq (a b : K) : Softmax.div a b = a / b
  exp_pos (a : K) : 0 < Softmax.exp a
  exp_strictMono : StrictMono (Softmax.exp : K → K)
  exp_zero : Softmax.exp (0 : K) = 1

section Kept

variable {φ : Type} [Logit φ] [Softmax φ] {logits : List φ} {mask : Option LogitMask} {r temp : φ}

-- The tokens that the mask allows with their scaled logits, in the order of their indices
def allowed (logits : List φ) (mask : Option LogitMask) (temp : φ) : List (TokenLogit φ) :=
  (logits.zipIdx.filter fun (_, i) => mask.all fun mask => mask[i]?.getD false)
    |>.map fun (l, i) => ⟨UInt32.ofNat i, Softmax.div l temp⟩

-- The tokens are weighted relative to the best one.
def weigh (ranking : List (TokenLogit φ)) : List (TokenLogit φ × φ) :=
  ranking.map fun tl => (tl, Softmax.exp (Softmax.sub tl.logit (ranking.head?.getD tl).logit))

-- What is drawn from the tokens that are kept
def drawn (kept : List (TokenLogit φ × φ)) (r : φ) : Option (TokenLogit φ) :=
  draw r (sumOf (kept.map (·.2))) kept Softmax.zero

def TopPSampler.kept (sampler : TopPSampler φ) (logits : List φ) (mask : Option LogitMask) : List (TokenLogit φ × φ) :=
  let tokens := weigh (scaled logits mask (clampTemperature sampler.temperature))
  let exps := tokens.map (·.2)
  tokens.take (cutoffIdx sampler.p (sumOf exps) exps 0 Softmax.zero)

def MinPSampler.kept (sampler : MinPSampler φ) (logits : List φ) (mask : Option LogitMask) : List (TokenLogit φ × φ) :=
  match scaled logits mask (clampTemperature sampler.temperature) with
  | []           => []
  | best :: rest => filtered best.logit sampler.minP false (best :: rest)

theorem scaled_perm : scaled logits mask temp ~ allowed logits mask temp :=
  perm_insertionSort ..

-- The greedy choice and the one without tokens apart, the samplers answer what is drawn, or the best token where
-- nothing is drawn.
theorem TopPSampler.sample_eq {sampler : TopPSampler φ} {best : TokenLogit φ} {rest : List (TokenLogit φ)}
    (hgreedy : Logit.ge Softmax.zero sampler.temperature = false)
    (h : scaled logits mask (clampTemperature sampler.temperature) = best :: rest) :
    sampler.sample logits mask r = ⟨((drawn (sampler.kept logits mask) r).getD best).token⟩ := by
  rw [sample, hgreedy, Bool.and_false, if_neg Bool.false_ne_true, h]
  simp only [drawn, kept, weigh, h, ← map_prod_left_eq_zip, map_take, map_map, Function.comp_def, head?_cons,
    Option.getD_some]

theorem MinPSampler.sample_eq {sampler : MinPSampler φ} {best : TokenLogit φ} {rest : List (TokenLogit φ)}
    (h : scaled logits mask (clampTemperature sampler.temperature) = best :: rest) :
    sampler.sample logits mask r = ⟨((drawn (sampler.kept logits mask) r).getD best).token⟩ := by
  simp only [sample, drawn, kept, h]

end Kept

section Exact

open Softmax

variable {K : Type} [Field K] [LinearOrder K] [ExactSoftmax K]
variable {logits : List K} {mask : Option LogitMask} {p r temp cutoff : K} {kept all before l : List (TokenLogit K × K)}
variable {best : TokenLogit K} {rest : List (TokenLogit K)}

-- The tokens that are allowed, the best ones first, with their weights
structure Ranking (logits : List K) (mask : Option LogitMask) (temp : K) (ranking : List (TokenLogit K × K)) : Prop where
  perm   : ranking.map (·.1) ~ allowed logits mask temp
  sorted : ranking.Pairwise fun a b => b.1.logit ≤ a.1.logit
  weight : ∀ best ∈ ranking.head?, ∀ entry ∈ ranking, entry.2 = exp (entry.1.logit - best.1.logit)

-- The answer is the first one of the tokens kept up to which their shares sum up to the random number, and nothing falls
-- through the loop.
def Draws (kept : List (TokenLogit K × K)) (r : K) (prediction : NextTokenPrediction) : Prop :=
  ∃ before entry, drawn kept r = some entry.1 ∧ prediction = ⟨entry.1.token⟩ ∧ Shortest (·.2) r kept (before ++ [entry])

-- The shortest beginning of the ranking is kept that has the share `p`.
def TopPSampler.Inverts (sampler : TopPSampler K) (logits : List K) (mask : Option LogitMask) (r : K) : Prop :=
  ∃ ranking, Ranking logits mask (max sampler.temperature 1e-6) ranking ∧
    sampler.kept logits mask <+: ranking ∧ sampler.p ≤ share (·.2) ranking (sampler.kept logits mask) ∧
    (∀ l, l <+: ranking → sampler.p ≤ share (·.2) ranking l → sampler.kept logits mask <+: l) ∧
    Draws (sampler.kept logits mask) r (sampler.sample logits mask r)

-- The best token is kept, and those of which the weight is at least `minP`.
def MinPSampler.Inverts (sampler : MinPSampler K) (logits : List K) (mask : Option LogitMask) (r : K) : Prop :=
  ∃ best rest, Ranking logits mask (max sampler.temperature 1e-6) (best :: rest) ∧
    sampler.kept logits mask = best :: rest.filter (sampler.minP ≤ ·.2) ∧
    Draws (sampler.kept logits mask) r (sampler.sample logits mask r)

theorem clampTemperature_eq (temp : K) : clampTemperature temp = max temp 1e-6 := by
  rw [clampTemperature, ExactSoftmax.ge_eq, ExactSoftmax.minTemperature_eq]
  split
  case isTrue h  => exact (max_eq_left (of_decide_eq_true h)).symm
  case isFalse h => exact (max_eq_right (not_le.mp fun hle => h (decide_eq_true hle)).le).symm

theorem sumOf_eq (l : List K) : sumOf l = l.sum := by
  rw [sumOf, ExactSoftmax.zero_eq, sum_eq_foldl, funext₂ (ExactSoftmax.add_eq (K := K))]

-- Both loops sum up shares. This is the one over the tokens that are kept.
theorem draw_shortest (hall : before ++ l = kept) (h : Below (·.2) r kept before) (hr : r ≤ 1)
    (hsum : (kept.map (·.2)).sum ≠ 0) : ∃ before' entry,
    draw r (kept.map (·.2)).sum l (share (·.2) kept before) = some entry.1 ∧ Shortest (·.2) r kept (before' ++ [entry]) := by
  induction l generalizing before
  case nil =>
    rw [append_nil] at hall
    exact absurd hr ((hall ▸ h).not_self hsum)
  case cons entry l hi =>
    rw [draw, ExactSoftmax.add_eq, ExactSoftmax.div_eq, ← share_append_singleton, ExactSoftmax.ge_eq]
    split
    case isTrue hge  => exact ⟨before, entry, rfl, h.shortest hall (of_decide_eq_true hge)⟩
    case isFalse hlt => exact hi (by rw [append_assoc]; exact hall) (h.concat fun hge => hlt (decide_eq_true hge))

-- And this is the one over all tokens.
theorem cutoffIdx_shortest (hall : before ++ l = all) (h : Below (·.2) p all before) (hp : p ≤ 1)
    (hsum : (all.map (·.2)).sum ≠ 0) : Shortest (·.2) p all (all.take
      (TopPSampler.cutoffIdx p (all.map (·.2)).sum (l.map (·.2)) before.length (share (·.2) all before))) := by
  induction l generalizing before
  case nil =>
    rw [append_nil] at hall
    exact absurd hp ((hall ▸ h).not_self hsum)
  case cons entry l hi =>
    rw [map_cons, TopPSampler.cutoffIdx, ExactSoftmax.add_eq, ExactSoftmax.div_eq, ← share_append_singleton,
      ExactSoftmax.ge_eq]
    have hall' : before ++ [entry] ++ l = all := by rw [append_assoc]; exact hall
    have hlength : before.length + 1 = (before ++ [entry]).length := by simp
    split
    case isTrue hge =>
      have htake : all.take (before.length + 1) = before ++ [entry] := by rw [← hall', hlength, take_left]
      rw [htake]
      exact h.shortest hall (of_decide_eq_true hge)
    case isFalse hlt =>
      rw [hlength]
      exact hi hall' (h.concat fun hge => hlt (decide_eq_true hge))

theorem scaled_sorted : (scaled logits mask temp).Pairwise fun a b => b.logit ≤ a.logit := by
  have hcmp (a b : TokenLogit K) : b.cmp a ≠ .gt ↔ b.logit ≤ a.logit := TokenLogit.cmp_ne_gt_iff ExactSoftmax.ge_eq
  have htotal : Std.Total fun a b : TokenLogit K => b.cmp a ≠ .gt := ⟨fun a b => by
    simpa only [hcmp] using le_total b.logit a.logit⟩
  have htrans : IsTrans (TokenLogit K) fun a b => b.cmp a ≠ .gt := ⟨fun a b c => by
    simpa only [hcmp] using fun hba hcb => le_trans hcb hba⟩
  exact (pairwise_insertionSort (fun a b : TokenLogit K => b.cmp a ≠ .gt) _).imp fun {a b} h => (hcmp a b).mp h

theorem weigh_ranking : Ranking logits mask temp (weigh (scaled logits mask temp)) where
  perm := by
    rw [weigh, map_map]
    exact (Perm.of_eq (map_id _)).trans scaled_perm
  sorted := scaled_sorted.map _ fun _ _ h => h
  weight best hbest entry hentry := by
    have ⟨tl, htl, heq⟩ := mem_map.mp hentry
    cases h : scaled logits mask temp
    case nil => simp [h] at htl
    case cons top rest =>
      simp only [weigh, h, map_cons, head?_cons, Option.mem_def, Option.some.injEq] at hbest
      rw [← heq, ← hbest]
      simp [h, ExactSoftmax.sub_eq]

theorem pos_of_mem_weigh {ranking : List (TokenLogit K)} {entry : TokenLogit K × K} (h : entry ∈ weigh ranking) :
    0 < entry.2 := by
  have ⟨_, _, heq⟩ := mem_map.mp h
  exact heq ▸ ExactSoftmax.exp_pos _

-- Where the exponential turns differences into quotients, the shares are those of the softmax.
theorem Ranking.share_eq_softmax {ranking : List (TokenLogit K × K)} (h : Ranking logits mask temp ranking)
    (hexp : ∀ a b : K, exp (a - b) = exp a / exp b) (hl : l ⊆ ranking) :
    share (·.2) ranking l = share (fun entry => exp entry.1.logit) ranking l := by
  cases ranking
  case nil => rw [subset_nil.mp hl, share_nil, share_nil]
  case cons best rest =>
    have hmap {l : List (TokenLogit K × K)} (hl : l ⊆ best :: rest) :
        (l.map (·.2)).sum = (l.map fun entry => exp entry.1.logit).sum / exp best.1.logit := by
      rw [map_congr_left fun entry hentry => (h.weight best rfl entry (hl hentry)).trans (hexp _ _)]
      simp only [div_eq_mul_inv, sum_map_mul_right]
    rw [share, hmap hl, hmap (Subset.refl _), div_div_div_cancel_right₀ (ExactSoftmax.exp_pos _).ne', share]

theorem weigh_cons :
    weigh (best :: rest) = (best, 1) :: rest.map fun tl => (tl, exp (tl.logit - best.logit)) := by
  simp [weigh, ExactSoftmax.sub_eq, ExactSoftmax.exp_zero]

variable [IsStrictOrderedRing K]

-- Some share sums up to the random number, because all of them sum up to 1.
theorem draws_of_eq {prediction : NextTokenPrediction} (hne : kept ≠ [])
    (hpos : ∀ entry ∈ kept, 0 < entry.2) (hr : r < 1) (h : prediction = ⟨((drawn kept r).getD best).token⟩) :
    Draws kept r prediction := by
  have ⟨before, entry, hdraw, hshortest⟩ := draw_shortest (nil_append kept) .nil hr.le (sum_pos hpos hne).ne'
  have hdrawn : drawn kept r = some entry.1 := by
    rw [share_nil] at hdraw
    rw [drawn, sumOf_eq, ExactSoftmax.zero_eq, hdraw]
  exact ⟨before, entry, hdrawn, by rw [h, hdrawn, Option.getD_some], hshortest⟩

theorem TopPSampler.kept_shortest {sampler : TopPSampler K} (hp : sampler.p ≤ 1)
    (hscaled : scaled logits mask (clampTemperature sampler.temperature) = best :: rest) :
    Shortest (·.2) sampler.p (weigh (best :: rest)) (sampler.kept logits mask) := by
  have hsum := sum_pos (fun _ hmem => pos_of_mem_weigh hmem) (map_eq_nil_iff.not.mpr (cons_ne_nil best rest))
  have hshortest := cutoffIdx_shortest (nil_append (weigh (best :: rest))) .nil hp hsum.ne'
  rw [share_nil] at hshortest
  rw [kept, hscaled, sumOf_eq, ExactSoftmax.zero_eq]
  exact hshortest

-- On a sorted list nothing that is likely enough comes after what is not.
theorem filtered_eq_filter {maxLogit : K} {tokens : List (TokenLogit K)}
    (hsorted : tokens.Pairwise fun a b => b.logit ≤ a.logit) : MinPSampler.filtered maxLogit cutoff true tokens =
      (tokens.map fun tl => (tl, exp (tl.logit - maxLogit))).filter (cutoff ≤ ·.2) := by
  induction tokens
  case nil => rfl
  case cons tl tokens hi =>
    have ⟨hle, hsorted⟩ := pairwise_cons.mp hsorted
    rw [MinPSampler.filtered, ExactSoftmax.ge_eq, ExactSoftmax.sub_eq, map_cons]
    by_cases h : cutoff ≤ exp (tl.logit - maxLogit)
    case pos => simp [h, hi hsorted]
    case neg =>
      have hrest : ∀ tl' ∈ tokens, ¬cutoff ≤ exp (tl'.logit - maxLogit) := fun tl' hmem hcutoff =>
        h (hcutoff.trans (ExactSoftmax.exp_strictMono.monotone (sub_le_sub_right (hle tl' hmem) _)))
      simpa [h] using hrest

theorem MinPSampler.kept_eq {sampler : MinPSampler K}
    (hscaled : scaled logits mask (clampTemperature sampler.temperature) = best :: rest) : sampler.kept logits mask =
      (best, 1) :: (rest.map fun tl => (tl, exp (tl.logit - best.logit))).filter (sampler.minP ≤ ·.2) := by
  have hsorted : (scaled logits mask (clampTemperature sampler.temperature)).Pairwise _ := scaled_sorted
  rw [hscaled] at hsorted
  simp only [kept, hscaled]
  rw [filtered, Bool.and_false, if_neg Bool.false_ne_true, filtered_eq_filter hsorted.of_cons, ExactSoftmax.sub_eq,
    sub_self, ExactSoftmax.exp_zero]

theorem TopPSampler.inverts {sampler : TopPSampler K} (hallowed : ∃ i < logits.length, ∀ m ∈ mask, m[i]? = some true)
    (htemp : 0 < sampler.temperature) (hpos : 0 < sampler.p) (hp : sampler.p ≤ 1) (hr : r < 1) :
    sampler.Inverts logits mask r := by
  have ⟨best, rest, hscaled⟩ : ∃ best rest, scaled logits mask (clampTemperature sampler.temperature) = best :: rest :=
    exists_cons_of_ne_nil (scaled_ne_nil hallowed)
  have hranking : Ranking logits mask (clampTemperature sampler.temperature) (weigh (best :: rest)) :=
    hscaled ▸ weigh_ranking
  have hkept := kept_shortest hp hscaled
  have hgreedy : Logit.ge zero sampler.temperature = false := by
    rw [ExactSoftmax.ge_eq, ExactSoftmax.zero_eq, decide_eq_false (not_le.mpr htemp)]
  refine ⟨_, clampTemperature_eq sampler.temperature ▸ hranking, hkept.initial, hkept.reaches,
    fun _ => hkept.initial_of_pos hpos, draws_of_eq hkept.ne_nil (fun _ hmem => ?_) hr (sample_eq hgreedy hscaled)⟩
  exact pos_of_mem_weigh (hkept.initial.subset hmem)

theorem MinPSampler.inverts {sampler : MinPSampler K} (hallowed : ∃ i < logits.length, ∀ m ∈ mask, m[i]? = some true)
    (hr : r < 1) : sampler.Inverts logits mask r := by
  have ⟨best, rest, hscaled⟩ : ∃ best rest, scaled logits mask (clampTemperature sampler.temperature) = best :: rest :=
    exists_cons_of_ne_nil (scaled_ne_nil hallowed)
  have hranking : Ranking logits mask (clampTemperature sampler.temperature) (weigh (best :: rest)) :=
    hscaled ▸ weigh_ranking
  have hkept := kept_eq hscaled
  have hsub : sampler.kept logits mask ⊆ weigh (best :: rest) := by
    rw [hkept, weigh_cons]
    exact cons_subset_cons _ (filter_subset_self _)
  rw [clampTemperature_eq, weigh_cons] at hranking
  exact ⟨_, _, hranking, hkept,
    draws_of_eq (hkept ▸ cons_ne_nil _ _) (fun _ hmem => pos_of_mem_weigh (hsub hmem)) hr (sample_eq hscaled)⟩

theorem samplers_invert (logits : List K) (mask : Option LogitMask) (r : K)
    (hallowed : ∃ i < logits.length, ∀ m ∈ mask, m[i]? = some true) (hr : r < 1) :
    (∀ sampler : TopPSampler K, 0 < sampler.temperature → 0 < sampler.p → sampler.p ≤ 1 → sampler.Inverts logits mask r) ∧
      ∀ sampler : MinPSampler K, sampler.Inverts logits mask r :=
  ⟨fun _ htemp hpos hp => TopPSampler.inverts hallowed htemp hpos hp hr, fun _ => MinPSampler.inverts hallowed hr⟩

end Exact

-- The random samplers do not look at minus infinity.
noncomputable instance : ExactSoftmax ℝ where
  negInfinity       := 0
  ge a b            := decide (b ≤ a)
  zero              := 0
  one               := 1
  minTemperature    := 1e-6
  add               := (· + ·)
  sub               := (· - ·)
  div               := (· / ·)
  exp               := Real.exp
  ge_eq _ _         := rfl
  zero_eq           := rfl
  one_eq            := rfl
  minTemperature_eq := rfl
  add_eq _ _        := rfl
  sub_eq _ _        := rfl
  div_eq _ _        := rfl
  exp_pos           := Real.exp_pos
  exp_strictMono    := Real.exp_strictMono
  exp_zero          := Real.exp_zero

theorem samplers_invert_second :
    (⟨1 / 2, 1⟩ : TopPSampler ℝ).Inverts [3, 1, 2] (some [false, true, true]) (1 / 3) ∧
      (⟨1 / 2, 1⟩ : MinPSampler ℝ).Inverts [3, 1, 2] (some [false, true, true]) (1 / 3) :=
  have h := samplers_invert ([3, 1, 2] : List ℝ) (some [false, true, true]) (1 / 3) ⟨1, by simp, by simp⟩ (by norm_num)
  ⟨h.left _ (by norm_num) (by norm_num) (by norm_num), h.right _⟩
