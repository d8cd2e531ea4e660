import VeloCore.Objects.Backend.Samplers
import Mathlib.Analysis.SpecialFunctions.Log.ERealExp

open List

-- Logits of a linear order, in which minus infinity is the least
class LinearLogit (φ : Type) extends LinearOrder φ, Logit φ where
  ge_eq (a b : φ) : Logit.ge a b = decide (b ≤ a)
  negInfinity_le (a : φ) : Logit.negInfinity ≤ a

theorem TokenLogit.cmp_ne_gt_iff {φ : Type} [LinearOrder φ] [Logit φ] (hge : ∀ a b : φ, Logit.ge a b = decide (b ≤ a))
    {a b : TokenLogit φ} : b.cmp a ≠ .gt ↔ b.logit ≤ a.logit := by
  simp only [TokenLogit.cmp, hge]
  rcases lt_trichotomy a.logit b.logit with h | h | h
  case inl      => simp [h.le, h.not_ge]
  case inr.inl  => simp [h]
  case inr.inr  => simp [h.le, h.not_ge]

section Masks

variable {φ : Type} {logits : List φ} {mask : LogitMask} {token : TokenId}

-- The token stands for an index of the vocabulary that the mask allows.
def Indexed (logits : List φ) (mask : LogitMask) (token : TokenId) : Prop :=
  ∃ i < logits.length, mask[i]? = some true ∧ token = UInt32.ofNat i

def Permitted (logits : List φ) (mask : LogitMask) (token : TokenId) : Prop :=
  token.toNat < logits.length ∧ mask[token.toNat]? = some true

theorem Indexed.permitted (hlen : logits.length ≤ 2 ^ 32) (h : Indexed logits mask token) : Permitted logits mask token := by
  have ⟨i, hi, hmask, htoken⟩ := h
  have hnat : token.toNat = i := by rw [htoken]; exact UInt32.toNat_ofNat_of_lt' (by rw [UInt32.size]; omega)
  exact ⟨hnat ▸ hi, hnat ▸ hmask⟩

-- What the filters of the samplers leave
theorem indexed_of_mem_filter {i : Nat} {l : φ}
    (h : (l, i) ∈ logits.zipIdx.filter fun (_, i) => (some mask).all fun mask => mask[i]?.getD false) :
    Indexed logits mask (UInt32.ofNat i) := by
  have ⟨hmem, hmask⟩ := mem_filter.mp h
  have hlt := (List.getElem?_eq_some_iff.mp (mk_mem_zipIdx_iff_getElem?.mp hmem)).1
  refine ⟨i, hlt, ?_, rfl⟩
  cases hi : mask[i]? <;> simp_all

theorem filter_ne_nil {mask : Option LogitMask} (h : ∃ i < logits.length, ∀ m ∈ mask, m[i]? = some true) :
    (logits.zipIdx.filter fun (_, i) => mask.all fun mask => mask[i]?.getD false) ≠ [] := by
  have ⟨i, hi, hmask⟩ := h
  refine ne_nil_of_mem (a := (logits[i], i)) (mem_filter.mpr ⟨?_, ?_⟩)
  case refine_1 => exact mk_mem_zipIdx_iff_getElem?.mpr (getElem?_eq_getElem hi)
  case refine_2 =>
    cases mask
    case none      => rfl
    case some mask => simp [hmask mask rfl]

theorem scaled_ne_nil [Logit φ] [Softmax φ] {mask : Option LogitMask} {t : φ}
    (h : ∃ i < logits.length, ∀ m ∈ mask, m[i]? = some true) : scaled logits mask t ≠ [] := fun hnil => by
  have hperm := (perm_insertionSort _ _).symm.trans (.of_eq hnil)
  exact filter_ne_nil h (map_eq_nil_iff.mp hperm.eq_nil)

end Masks

theorem List.of_drop_eq_cons {l rest : List α} {a : α} {i : Nat} (h : l.drop i = a :: rest) :
    l[i]? = some a ∧ l.drop (i + 1) = rest := by
  have hhead := congrArg (·[0]?) h
  rw [getElem?_drop] at hhead
  exact ⟨hhead, by rw [← drop_drop, h]; rfl⟩

section Samplers

variable {φ : Type} [LinearLogit φ] {logits : List φ} {mask : LogitMask}

namespace GreedySampler

-- A token that was chosen only gives way to another one, and the first one that is allowed is chosen.
theorem best_indexed {all : List φ} {i : Nat} {maxLogit : φ} {token : TokenId} (hall : all.drop i = logits)
    (h : Indexed all mask token ∨ maxLogit = Logit.negInfinity ∧ ∃ j < logits.length, mask[i + j]? = some true) :
    Indexed all mask (best (some mask) logits i maxLogit token) := by
  induction logits generalizing i maxLogit token
  case nil =>
    rcases h with h | ⟨_, j, hj, _⟩
    case inl => exact h
    case inr => exact absurd hj (Nat.not_lt_zero j)
  case cons logit logits hi =>
    have ⟨hget, hdrop⟩ := of_drop_eq_cons hall
    have hlt : i < all.length := (List.getElem?_eq_some_iff.mp hget).1
    have hskip (hne : mask[i]? ≠ some true) (hj : ∃ j < (logit :: logits).length, mask[i + j]? = some true) :
        ∃ j < logits.length, mask[i + 1 + j]? = some true := by
      have ⟨j, hj, hmask⟩ := hj
      cases j
      case zero   => exact absurd hmask hne
      case succ j => exact ⟨j, Nat.lt_of_succ_lt_succ hj, by rwa [Nat.add_right_comm]⟩
    unfold best
    split
    case isTrue hmasked =>
      have hne : mask[i]? ≠ some true := fun ht => by simp [ht] at hmasked
      exact hi hdrop (h.imp_right fun ⟨hmax, hj⟩ => ⟨hmax, hskip hne hj⟩)
    case isFalse hallowed =>
      have hmask : mask[i]? = some true := by
        cases hm : mask[i]? <;> simp_all
      split
      case isTrue => exact hi hdrop (.inl ⟨i, hlt, hmask, rfl⟩)
      case isFalse hge =>
        refine hi hdrop (.inl (h.resolve_right fun ⟨hmax, _⟩ => ?_))
        rw [hmax, LinearLogit.ge_eq, decide_eq_true_eq] at hge
        exact hge (LinearLogit.negInfinity_le logit)

theorem sample_indexed (h : ∃ i < logits.length, mask[i]? = some true) :
    Indexed logits mask (sample logits (some mask)).token :=
  best_indexed drop_zero (.inr ⟨rfl, by simpa using h⟩)

end GreedySampler

namespace TopKSampler

omit [LinearLogit φ] in
theorem ranked_indexed [Logit φ] {tl : TokenLogit φ} (h : tl ∈ ranked logits (some mask)) : Indexed logits mask tl.token := by
  have ⟨(l, i), hmem, heq⟩ := mem_map.mp ((mem_insertionSort _).mp h)
  rw [← heq]
  exact indexed_of_mem_filter hmem

theorem sample_indexed (sampler : TopKSampler) (h : ∃ i < logits.length, mask[i]? = some true) :
    Indexed logits mask (sampler.sample logits (some mask)).token := by
  rw [sample]
  cases hranked : ranked logits (some mask)
  case nil =>
    have hperm := (perm_insertionSort _ _).symm.trans (.of_eq hranked)
    exact absurd (map_eq_nil_iff.mp hperm.eq_nil) (filter_ne_nil (by simpa using h))
  case cons tl rest => exact ranked_indexed (by rw [hranked]; exact mem_cons_self)

theorem sampleTopK_indexed {sampler : TopKSampler} {prediction : NextTokenPrediction}
    (h : prediction ∈ sampler.sampleTopK logits (some mask)) : Indexed logits mask prediction.token := by
  have ⟨tl, hmem, heq⟩ := mem_map.mp h
  rw [← heq]
  exact ranked_indexed (mem_of_mem_take hmem)

end TopKSampler

section Random

variable [Softmax φ] {r t : φ}

theorem scaled_indexed {tl : TokenLogit φ} (h : tl ∈ scaled logits (some mask) t) : Indexed logits mask tl.token := by
  have ⟨(l, i), hmem, heq⟩ := mem_map.mp ((mem_insertionSort _).mp h)
  rw [← heq]
  exact indexed_of_mem_filter hmem

theorem mem_of_draw {total currentP : φ} {l : List (TokenLogit φ × φ)} {tl : TokenLogit φ}
    (h : draw r total l currentP = some tl) : tl ∈ l.map (·.1) := by
  induction l generalizing currentP
  case nil => cases h
  case cons entry l hi =>
    rw [draw] at h
    split at h
    case isTrue  => cases h; exact mem_cons_self
    case isFalse => exact mem_cons_of_mem _ (hi h)

-- What is drawn, and what is returned where nothing is drawn
theorem draw_getD_mem {total currentP : φ} {l : List (TokenLogit φ × φ)} {best : TokenLogit φ} {all : List (TokenLogit φ)}
    (hl : l.map (·.1) ⊆ all) (hbest : best ∈ all) : (draw r total l currentP).getD best ∈ all := by
  cases h : draw r total l currentP
  case none    => exact hbest
  case some tl => exact hl (mem_of_draw h)

theorem filtered_subset {maxLogit cutoff : φ} {nonempty : Bool} {l : List (TokenLogit φ)} :
    (MinPSampler.filtered maxLogit cutoff nonempty l).map (·.1) ⊆ l := by
  induction l generalizing nonempty
  case nil => exact Subset.refl _
  case cons tl l hi =>
    rw [MinPSampler.filtered]
    split
    case isTrue  => exact nil_subset _
    case isFalse => exact cons_subset_cons tl hi

theorem TopPSampler.sample_indexed (sampler : TopPSampler φ) (h : ∃ i < logits.length, mask[i]? = some true) :
    Indexed logits mask (sampler.sample logits (some mask) r).token := by
  rw [sample]
  split
  case isTrue => exact GreedySampler.sample_indexed h
  case isFalse =>
    split
    case h_1 hnil => exact absurd hnil (scaled_ne_nil (by simpa using h))
    case h_2 best rest hscaled =>
      refine scaled_indexed (t := clampTemperature sampler.temperature) ?_
      rw [hscaled]
      refine draw_getD_mem (fun tl htl => ?_) mem_cons_self
      have ⟨(tl', e), hmem, heq⟩ := mem_map.mp htl
      exact heq ▸ (of_mem_zip (mem_of_mem_take hmem)).left

theorem MinPSampler.sample_indexed (sampler : MinPSampler φ) (h : ∃ i < logits.length, mask[i]? = some true) :
    Indexed logits mask (sampler.sample logits (some mask) r).token := by
  rw [sample]
  split
  case h_1 hnil => exact absurd hnil (scaled_ne_nil (by simpa using h))
  case h_2 best rest hscaled =>
    refine scaled_indexed (t := clampTemperature sampler.temperature) ?_
    rw [hscaled]
    exact draw_getD_mem filtered_subset mem_cons_self

-- All samplers return permitted tokens only, whatever their parameters are and whatever is drawn.
def Respected (logits : List φ) (mask : LogitMask) : Prop :=
  ∀ (topK : TopKSampler) (topP : TopPSampler φ) (minP : MinPSampler φ) (r : φ),
    Permitted logits mask (GreedySampler.sample logits (some mask)).token ∧
      Permitted logits mask (topK.sample logits (some mask)).token ∧
      (∀ prediction ∈ topK.sampleTopK logits (some mask), Permitted logits mask prediction.token) ∧
      Permitted logits mask (topP.sample logits (some mask) r).token ∧
      Permitted logits mask (minP.sample logits (some mask) r).token

theorem mask_respected (logits : List φ) (mask : LogitMask) (hlen : logits.length ≤ 2 ^ 32)
    (h : ∃ i < logits.length, mask[i]? = some true) : Respected logits mask := fun topK topP minP _ =>
  ⟨(GreedySampler.sample_indexed h).permitted hlen, (topK.sample_indexed h).permitted hlen,
    fun _ hmem => (TopKSampler.sampleTopK_indexed hmem).permitted hlen, (topP.sample_indexed h).permitted hlen,
    (minP.sample_indexed h).permitted hlen⟩

-- An index beyond the ids is taken for another one.
theorem not_respected {n : Nat} (x : φ) (hpos : 0 < n) (hn : UInt32.ofNat n = 0) :
    ¬Respected (replicate (n + 1) x) (replicate n false ++ [true]) := by
  intro h
  have hlast : (replicate n false ++ [true])[n]? = some true := by simp
  have hindexed : Indexed (replicate (n + 1) x) (replicate n false ++ [true]) _ :=
    GreedySampler.sample_indexed ⟨n, by simp, hlast⟩
  have ⟨i, hi, hmask, htoken⟩ := hindexed
  have hin : i = n := by
    by_contra hne
    rw [length_replicate] at hi
    have hlt : i < n := by omega
    simp [getElem?_append_left, hlt] at hmask
  have hfirst := (h ⟨1⟩ ⟨x, x⟩ ⟨x, x⟩ x).left.right
  rw [htoken, hin, hn] at hfirst
  simp [hpos] at hfirst

end Random
end Samplers

-- Exact arithmetic
noncomputable instance : LinearLogit EReal where
  negInfinity        := ⊥
  ge a b             := decide (b ≤ a)
  ge_eq _ _          := rfl
  negInfinity_le _   := bot_le

noncomputable instance : Softmax EReal where
  zero           := 0
  one            := 1
  minTemperature := ((10 ^ (-6 : ℤ) : ℝ) : EReal)
  add            := (· + ·)
  sub            := (· - ·)
  div            := (· / ·)
  exp x          := (EReal.exp x : ENNReal)

theorem mask_respected_second : Respected ([3, 1, 2] : List EReal) [false, true] :=
  mask_respected _ _ (by simp) ⟨1, by simp, rfl⟩

theorem not_forall_respected {n : Nat} (hpos : 0 < n) (hn : UInt32.ofNat n = 0) : ¬∀ (logits : List EReal) (mask : LogitMask),
    (∃ i < logits.length, mask[i]? = some true) → Respected logits mask := fun h =>
  not_respected 0 hpos hn (h _ _ ⟨n, by simp, by simp⟩)

-- One logit more than there are ids
theorem exists_mask_not_respected : ¬∀ (logits : List EReal) (mask : LogitMask),
    (∃ i < logits.length, mask[i]? = some true) → Respected logits mask :=
  not_forall_respected (n := 2 ^ 32) (by decide) (by decide)
