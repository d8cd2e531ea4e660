import VeloCore.Objects.Backend.Theorems.Samplers
import VeloCore.Objects.Metal.Argmax

open List

section Maxima

variable {φ : Type} [LinearLogit φ] {logits : List φ} {m l : Nat}

-- No logit is greater, and none before it is as great.
def FirstMax (logits : List φ) (m : Nat) : Prop :=
  ∃ v, logits[m]? = some v ∧ ∀ (j : Nat) w, logits[j]? = some w → w ≤ v ∧ (j < m → w < v)

-- No logit is greater, and none behind it is as great.
def LastMax (logits : List φ) (l : Nat) : Prop :=
  ∃ v, logits[l]? = some v ∧ ∀ (j : Nat) w, logits[j]? = some w → w ≤ v ∧ (l < j → w < v)

-- The maximum occurs once.
def UniqueMax (logits : List φ) : Prop :=
  ∃ m v, logits[m]? = some v ∧ ∀ (j : Nat) w, logits[j]? = some w → j ≠ m → w < v

theorem uniqueMax_of_first_last (hf : FirstMax logits m) (hl : LastMax logits m) : UniqueMax logits := by
  have ⟨v, hv, hfirst⟩ := hf
  have ⟨v', hv', hlast⟩ := hl
  cases hv.symm.trans hv'
  refine ⟨m, v, hv, fun j w hw hne => ?_⟩
  rcases Nat.lt_or_gt_of_ne hne with hlt | hgt
  case inl => exact (hfirst j w hw).right hlt
  case inr => exact (hlast j w hw).right hgt

theorem FirstMax.eq_of_unique (hf : FirstMax logits l) {v : φ} (hv : logits[m]? = some v)
    (hm : ∀ (j : Nat) w, logits[j]? = some w → j ≠ m → w < v) : l = m := by
  have ⟨u, hu, hfirst⟩ := hf
  by_contra hne
  exact absurd (hfirst m v hv).left (not_le.mpr (hm l u hu hne))

theorem LastMax.eq_of_unique (hl : LastMax logits l) {v : φ} (hv : logits[m]? = some v)
    (hm : ∀ (j : Nat) w, logits[j]? = some w → j ≠ m → w < v) : l = m := by
  have ⟨u, hu, hlast⟩ := hl
  by_contra hne
  exact absurd (hlast m v hv).left (not_le.mpr (hm l u hu hne))

namespace GreedySampler

-- So far, `token` stands for the last of the greatest logits.
theorem best_last {all : List φ} {i : Nat} {maxLogit : φ} {token : TokenId} (hdrop : all.drop i = logits)
    (h : (i = 0 ∧ maxLogit = Logit.negInfinity ∧ logits ≠ []) ∨ ∃ l, token = UInt32.ofNat l ∧ all[l]? = some maxLogit ∧
      ∀ (j : Nat) w, j < i → all[j]? = some w → w ≤ maxLogit ∧ (l < j → w < maxLogit)) :
    ∃ l, best none logits i maxLogit token = UInt32.ofNat l ∧ LastMax all l := by
  induction logits generalizing i maxLogit token
  case nil =>
    have ⟨l, htoken, hl, hmax⟩ := h.resolve_left fun h => h.right.right rfl
    refine ⟨l, htoken, maxLogit, hl, fun j w hw => hmax j w ?_ hw⟩
    exact (List.getElem?_eq_some_iff.mp hw).1.trans_le (drop_eq_nil_iff.mp hdrop)
  case cons logit logits hi =>
    have ⟨hget, hdrop'⟩ := of_drop_eq_cons hdrop
    simp only [best, Option.any_none, Bool.false_eq_true, if_false, LinearLogit.ge_eq, decide_eq_true_eq]
    -- A logit that is as great takes the place.
    have hbefore (hge : maxLogit ≤ logit) (j : Nat) (w : φ) (hj : j < i) (hw : all[j]? = some w) : w ≤ logit := by
      rcases h with ⟨hzero, _⟩ | ⟨_, _, _, hmax⟩
      case inl => omega
      case inr => exact (hmax j w hj hw).left.trans hge
    split
    case isTrue hge =>
      refine hi hdrop' (.inr ⟨i, rfl, hget, fun j w hj hw => ?_⟩)
      rcases Nat.lt_succ_iff_lt_or_eq.mp hj with hlt | rfl
      case inl => exact ⟨hbefore hge j w hlt hw, fun hij => absurd hij (by omega)⟩
      case inr =>
        cases hget.symm.trans hw
        exact ⟨le_rfl, fun hij => absurd hij (lt_irrefl _)⟩
    case isFalse hlt =>
      rcases h with ⟨_, hmax, _⟩ | ⟨l, htoken, hl, hmax⟩
      case inl => exact absurd (hmax ▸ LinearLogit.negInfinity_le logit) hlt
      case inr =>
        refine hi hdrop' (.inr ⟨l, htoken, hl, fun j w hj hw => ?_⟩)
        rcases Nat.lt_succ_iff_lt_or_eq.mp hj with hji | rfl
        case inl => exact hmax j w hji hw
        case inr =>
          cases hget.symm.trans hw
          exact ⟨(not_le.mp hlt).le, fun _ => not_le.mp hlt⟩

theorem sample_last (hne : logits ≠ []) : ∃ l, sample logits none = ⟨UInt32.ofNat l⟩ ∧ LastMax logits l := by
  have ⟨l, hl, hlast⟩ : ∃ l, best none logits 0 Logit.negInfinity 0 = UInt32.ofNat l ∧ LastMax logits l :=
    best_last drop_zero (.inl ⟨rfl, rfl, hne⟩)
  exact ⟨l, congrArg _ hl, hlast⟩

end GreedySampler

namespace TopKSampler

-- The first of a sorted list is the first of the greatest ones.
theorem head?_insertionSort {l : List (TokenLogit φ)} (hne : l ≠ []) : ∃ (m : Nat) (tl : TokenLogit φ), l[m]? = some tl ∧
    (l.insertionSort fun a b => b.cmp a ≠ .gt).head? = some tl ∧
    ∀ (j : Nat) w, l[j]? = some w → w.logit ≤ tl.logit ∧ (j < m → w.logit < tl.logit) := by
  have hcmp (a b : TokenLogit φ) : b.cmp a ≠ .gt ↔ b.logit ≤ a.logit := TokenLogit.cmp_ne_gt_iff LinearLogit.ge_eq
  induction l
  case nil => contradiction
  case cons a l hi =>
    rw [insertionSort_cons]
    cases l
    case nil =>
      refine ⟨0, a, rfl, rfl, fun j w hw => ?_⟩
      cases j
      case zero   => cases hw; exact ⟨le_rfl, nofun⟩
      case succ j => simp at hw
    case cons a' l =>
      have ⟨m, tl, hm, hhead, hmax⟩ := hi (cons_ne_nil _ _)
      have ⟨rest, hsort⟩ := head?_eq_some_iff.mp hhead
      rw [hsort, orderedInsert]
      by_cases hge : tl.logit ≤ a.logit
      case pos =>
        refine ⟨0, a, rfl, by simp [hcmp, hge], fun j w hw => ?_⟩
        cases j
        case zero   => cases hw; exact ⟨le_rfl, nofun⟩
        case succ j => exact ⟨(hmax j w hw).left.trans hge, nofun⟩
      case neg =>
        refine ⟨m + 1, tl, hm, by simp [hcmp, hge], fun j w hw => ?_⟩
        cases j
        case zero =>
          cases hw
          exact ⟨(not_le.mp hge).le, fun _ => not_le.mp hge⟩
        case succ j => exact ⟨(hmax j w hw).left, fun hj => (hmax j w hw).right (Nat.lt_of_succ_lt_succ hj)⟩

theorem ranked_first (hne : logits ≠ []) : ∃ m tl, (ranked logits none).head? = some tl ∧ tl.token = UInt32.ofNat m ∧
    FirstMax logits m := by
  have hranked : ranked logits none = (logits.zipIdx.map fun p => (⟨UInt32.ofNat p.2, p.1⟩ : TokenLogit φ)).insertionSort
      fun a b => b.cmp a ≠ .gt := by
    rw [ranked]
    congr 2
    exact filter_eq_self.mpr fun _ _ => rfl
  have hget (j : Nat) : (logits.zipIdx.map fun p => (⟨UInt32.ofNat p.2, p.1⟩ : TokenLogit φ))[j]? =
      logits[j]?.map fun logit => ⟨UInt32.ofNat j, logit⟩ := by
    simp [getElem?_map, getElem?_zipIdx, Option.map_map, Function.comp_def]
  obtain ⟨m, tl, hm, hhead, hmax⟩ := head?_insertionSort
    (l := logits.zipIdx.map fun p => (⟨UInt32.ofNat p.2, p.1⟩ : TokenLogit φ)) (by simpa using hne)
  rw [hget, Option.map_eq_some_iff] at hm
  obtain ⟨v, hv, htl⟩ := hm
  refine ⟨m, tl, by rw [hranked]; exact hhead, by rw [← htl], v, hv, fun j w hw => ?_⟩
  have h := hmax j ⟨UInt32.ofNat j, w⟩ (by rw [hget, hw]; rfl)
  rwa [← htl] at h

end TopKSampler
end Maxima

namespace Argmax

section Reduction

variable {φ : Type} [LinearLogit φ] {lanes : List (Found φ)} {own other found : Found φ}

theorem better_eq : better own other = if own.1 < other.1 then other else own := by
  simp [better, gt, LinearLogit.ge_eq]

theorem own_le_better : own.1 ≤ (better own other).1 := by
  rw [better_eq]
  split
  case isTrue h  => exact h.le
  case isFalse h => exact le_rfl

theorem other_le_better : other.1 ≤ (better own other).1 := by
  rw [better_eq]
  split
  case isTrue h  => exact le_rfl
  case isFalse h => exact not_lt.mp h

-- What a property of what the threads find holds for, the reduction keeps.
theorem better_of {P : Found φ → Prop} (hown : P own) (hother : P other) : P (better own other) := by
  rw [better]
  split
  case isTrue  => exact hother
  case isFalse => exact hown

theorem getElem?_shuffleDown {offset lane : Nat} : (shuffleDown offset lanes)[lane]? =
    lanes[lane]?.map fun own => (lanes[lane + offset]?).elim own (better own) := by
  rw [shuffleDown, getElem?_mapIdx]

theorem shuffleDown_of {P : Found φ → Prop} {offset : Nat} (h : ∀ found ∈ lanes, P found) :
    ∀ found ∈ shuffleDown offset lanes, P found := by
  intro found hmem
  have ⟨lane, hlane⟩ := mem_iff_getElem?.mp hmem
  rw [getElem?_shuffleDown, Option.map_eq_some_iff] at hlane
  have ⟨own, hown, heq⟩ := hlane
  have hown := h own (mem_of_getElem? hown)
  rw [← heq]
  cases hother : lanes[lane + offset]?
  case none       => exact hown
  case some other => exact better_of hown (h other (mem_of_getElem? hother))

-- The steps of the reduction, the last one first
def reduceBy : Nat → List (Found φ) → List (Found φ)
  | 0, lanes => lanes
  | k + 1, lanes => reduceBy k (shuffleDown (2 ^ k) lanes)

theorem reduce_eq : reduce lanes = reduceBy 5 lanes :=
  rfl

theorem reduceBy_of {P : Found φ → Prop} {k : Nat} (h : ∀ found ∈ lanes, P found) : ∀ found ∈ reduceBy k lanes, P found := by
  induction k generalizing lanes
  case zero      => exact h
  case succ k hi => exact hi (shuffleDown_of h)

-- In each step the better half of the lanes gets to the front.
theorem le_head_reduceBy {k lane : Nat} (hlane : lane < 2 ^ k) (h : lanes[lane]? = some found) :
    ∃ head, (reduceBy k lanes).head? = some head ∧ found.1 ≤ head.1 := by
  induction k generalizing lanes lane found
  case zero =>
    have hzero : lane = 0 := by simpa using hlane
    subst hzero
    exact ⟨found, by rw [reduceBy, head?_eq_getElem?, h], le_rfl⟩
  case succ k hi =>
    by_cases hlt : lane < 2 ^ k
    case pos =>
      have hstep : (shuffleDown (2 ^ k) lanes)[lane]? = some ((lanes[lane + 2 ^ k]?).elim found (better found)) := by
        rw [getElem?_shuffleDown, h, Option.map_some]
      have ⟨head, hhead, hle⟩ := hi hlt hstep
      refine ⟨head, hhead, le_trans ?_ hle⟩
      cases lanes[lane + 2 ^ k]?
      case none => exact le_rfl
      case some => exact own_le_better
    case neg =>
      rw [pow_succ] at hlane
      have hback : lane - 2 ^ k + 2 ^ k = lane := by omega
      have hlen := (List.getElem?_eq_some_iff.mp h).1
      have hown : lanes[lane - 2 ^ k]? = some lanes[lane - 2 ^ k] := getElem?_eq_getElem (by omega)
      have hstep : (shuffleDown (2 ^ k) lanes)[lane - 2 ^ k]? = some (better lanes[lane - 2 ^ k] found) := by
        rw [getElem?_shuffleDown, hown, Option.map_some, hback, h, Option.elim_some]
      have ⟨head, hhead, hle⟩ := hi (by omega) hstep
      exact ⟨head, hhead, other_le_better.trans hle⟩

theorem foldl_better {l : List (Found φ)} : found.1 ≤ (l.foldl better found).1 ∧ ∀ f ∈ l, f.1 ≤ (l.foldl better found).1 := by
  induction l generalizing found
  case nil => exact ⟨le_rfl, fun _ h => absurd h not_mem_nil⟩
  case cons f l hi =>
    have ⟨hfound, hall⟩ := @hi (better found f)
    refine ⟨own_le_better.trans hfound, fun f' hf' => ?_⟩
    rcases mem_cons.mp hf' with rfl | hmem
    case inl => exact other_le_better.trans hfound
    case inr => exact hall f' hmem

theorem foldl_better_of {P : Found φ → Prop} {l : List (Found φ)} (hfound : P found) (h : ∀ f ∈ l, P f) :
    P (l.foldl better found) := by
  induction l generalizing found
  case nil => exact hfound
  case cons f l hi =>
    exact hi (better_of hfound (h f mem_cons_self)) fun f' hf' => h f' (mem_cons_of_mem f hf')

end Reduction

section Scan

variable {φ : Type} [LinearLogit φ] {logits : List φ} {n i fuel : Nat} {start found : Found φ}

-- With room for a step past the end, a thread comes to an end and has seen every logit of its stride.
theorem scan_spec (hn : n ≤ 2 ^ 32 - 1024) (hfuel : n ≤ i + 1024 * fuel) : ∃ found, scan logits n (fuel + 1) i start = some found ∧
    start.1 ≤ found.1 ∧ (∀ k, i + 1024 * k < n → logits[i + 1024 * k]?.getD Logit.negInfinity ≤ found.1) ∧
    ∀ P : Found φ → Prop, P start → (∀ j < n, P (logits[j]?.getD Logit.negInfinity, j)) → P found := by
  induction fuel generalizing i start
  case zero =>
    have hge : ¬i < n := by omega
    exact ⟨start, by rw [scan, if_neg hge], le_rfl, fun k hk => absurd hk (by omega), fun _ h _ => h⟩
  case succ fuel hi =>
    by_cases hlt : i < n
    case pos =>
      have hwrap : uint (i + 1024) = i + 1024 := Nat.mod_eq_of_lt (by omega)
      have ⟨found, hscan, hstart, hall, hP⟩ :=
        @hi (i + 1024) (better start (logits[i]?.getD Logit.negInfinity, i)) (by omega)
      refine ⟨found, by rw [scan, if_pos hlt, hwrap, hscan], own_le_better.trans hstart, fun k hk => ?_, fun P hs h => ?_⟩
      case refine_1 =>
        cases k
        case zero =>
          have hother := @other_le_better φ _ start (logits[i]?.getD Logit.negInfinity, i)
          exact hother.trans hstart
        case succ k =>
          have hoff : i + 1024 * (k + 1) = i + 1024 + 1024 * k := by ring
          rw [hoff] at hk ⊢
          exact hall k hk
      case refine_2 => exact hP P (better_of hs (h i hlt)) h
    case neg => exact ⟨start, by rw [scan, if_neg hlt], le_rfl, fun k hk => absurd hk (by omega), fun _ h _ => h⟩

-- The first thread passes from the last multiple of 1024 to zero again.
theorem scan_eq_none (hn : 2 ^ 32 - 1024 < n) (hi : 1024 ∣ i) (hlt : i < 2 ^ 32) : scan logits n fuel i start = none := by
  induction fuel generalizing i start
  case zero => rfl
  case succ fuel hind =>
    have hin : i < n := by omega
    rw [scan, if_pos hin]
    refine hind ?_ (Nat.mod_lt _ (by decide))
    rw [uint]
    omega

end Scan

section Threads

theorem mapM_eq_some {α β : Type} {f : α → Option β} {g : α → β} {l : List α} (h : ∀ a ∈ l, f a = some (g a)) :
    l.mapM f = some (l.map g) := by
  induction l
  case nil => rfl
  case cons a l hi => simp [mapM_cons, h a mem_cons_self, hi fun b hb => h b (mem_cons_of_mem a hb)]

theorem mapM_eq_none {α β : Type} {f : α → Option β} {l : List α} {a : α} (ha : a ∈ l) (h : f a = none) : l.mapM f = none := by
  induction l
  case nil => exact absurd ha not_mem_nil
  case cons b l hi =>
    rcases mem_cons.mp ha with rfl | ha
    case inl => simp [mapM_cons, h]
    case inr => cases hb : f b <;> simp [mapM_cons, hb, hi ha]

variable {φ : Type} [LinearLogit φ] {logits : List φ} {m : Nat} {v : φ}

-- Whoever has found the maximum has found it at its place.
def Placed (m : Nat) (v : φ) (f : Found φ) : Prop :=
  f.1 ≤ v ∧ (f.1 = v → f.2 = m)

theorem placed_start (hv : logits[m]? = some v) (hm : ∀ (j : Nat) w, logits[j]? = some w → j ≠ m → w < v) :
    Placed m v (Logit.negInfinity, 0) := by
  have hmlt : m < logits.length := (List.getElem?_eq_some_iff.mp hv).1
  refine ⟨LinearLogit.negInfinity_le v, fun heq => ?_⟩
  by_contra hne
  have hzero := hm 0 _ (getElem?_eq_getElem (by omega)) hne
  exact absurd (LinearLogit.negInfinity_le _) (not_le.mpr (hzero.trans_eq heq.symm))

theorem placed_read (hv : logits[m]? = some v) (hm : ∀ (j : Nat) w, logits[j]? = some w → j ≠ m → w < v) {j : Nat}
    (hj : j < logits.length) : Placed m v (logits[j]?.getD Logit.negInfinity, j) := by
  rw [getElem?_eq_getElem hj, Option.getD_some]
  by_cases hjm : j = m
  case pos =>
    subst hjm
    rw [getElem?_eq_getElem hj] at hv
    exact ⟨(Option.some.inj hv).le, fun _ => rfl⟩
  case neg =>
    have hlt := hm j _ (getElem?_eq_getElem hj) hjm
    exact ⟨hlt.le, fun heq => absurd heq hlt.ne⟩

-- What the first lanes of the simdgroups write down
def localsOf (found : Nat → Found φ) (threads : Nat) : List (Found φ) :=
  ((range ((threads + 31) / 32)).map fun sidx => (((range threads).map found).drop (sidx * 32)).take 32).filterMap
    fun lanes => (reduce lanes).head?

theorem placed_localsOf {found : Nat → Found φ} {threads : Nat} (h : ∀ t, Placed m v (found t)) :
    ∀ f ∈ localsOf found threads, Placed m v f := by
  intro f hf
  have ⟨lanes, hlanes, hhead⟩ := mem_filterMap.mp hf
  have ⟨s, _, hgroup⟩ := mem_map.mp hlanes
  rw [reduce_eq] at hhead
  refine reduceBy_of (fun f' hf' => ?_) f (mem_of_head? hhead)
  rw [← hgroup] at hf'
  have ⟨t, _, ht⟩ := mem_map.mp (mem_of_mem_drop (mem_of_mem_take hf'))
  exact ht ▸ h t

-- The simdgroup of a thread knows what the thread has found.
theorem exists_localsOf_le {found : Nat → Found φ} {threads t : Nat} (ht : t < threads) :
    ∃ f ∈ localsOf found threads, (found t).1 ≤ f.1 := by
  have hsplit : t / 32 * 32 + t % 32 = t := Nat.div_add_mod' ..
  have hlane : ((((range threads).map found).drop (t / 32 * 32)).take 32)[t % 32]? = some (found t) := by
    rw [getElem?_take_of_lt (Nat.mod_lt _ (by decide)), getElem?_drop, hsplit, getElem?_map, getElem?_range ht]
    rfl
  have ⟨head, hhead, hle⟩ := le_head_reduceBy (k := 5) (Nat.mod_lt _ (by decide)) hlane
  exact ⟨head, mem_filterMap.mpr ⟨_, mem_map.mpr ⟨t / 32, mem_range.mpr (by omega), rfl⟩, hhead⟩, hle⟩

-- Where the maximum occurs once, the kernel finds it.
theorem argmax_of_unique (hlen : logits.length ≤ 2 ^ 32 - 1024) (hv : logits[m]? = some v)
    (hm : ∀ (j : Nat) w, logits[j]? = some w → j ≠ m → w < v) : argmax logits = some (UInt32.ofNat m) := by
  have hmlt : m < logits.length := (List.getElem?_eq_some_iff.mp hv).1
  have hn : uint logits.length = logits.length := Nat.mod_eq_of_lt (by omega)
  have hscan (t : Nat) := @scan_spec φ _ logits _ t (2 ^ 22) (Logit.negInfinity, 0) hlen (by omega)
  choose found hfound _ hall hP using hscan
  have hmapM : (range (min logits.length 1024)).mapM (fun tpig => scan logits logits.length (2 ^ 22 + 1) tpig
      (Logit.negInfinity, 0)) = some ((range (min logits.length 1024)).map found) := mapM_eq_some fun t _ => hfound t
  have hargmax : argmax logits = some (UInt32.ofNat
      ((localsOf found (min logits.length 1024)).foldl better (Logit.negInfinity, 0)).2) := by
    simp only [argmax, hn, hmapM, Option.bind_eq_bind, Option.bind_some, Option.pure_def, localsOf]
  have hstart := placed_start hv hm
  have hplaced (t : Nat) : Placed m v (found t) := hP t (Placed m v) hstart fun j hj => placed_read hv hm hj
  have hlocal : ∀ f ∈ localsOf found (min logits.length 1024), Placed m v f := placed_localsOf hplaced
  -- The thread that reads the maximum
  have ht : m % 1024 < min logits.length 1024 := lt_min ((Nat.mod_le _ _).trans_lt hmlt) (Nat.mod_lt _ (by decide))
  have hplace : m % 1024 + 1024 * (m / 1024) = m := Nat.mod_add_div ..
  have hread := hall (m % 1024) (m / 1024) (by omega)
  rw [hplace, hv, Option.getD_some] at hread
  have ⟨f, hf, hle⟩ : ∃ f ∈ localsOf found (min logits.length 1024), (found (m % 1024)).1 ≤ f.1 := exists_localsOf_le ht
  have hbest : v ≤ ((localsOf found (min logits.length 1024)).foldl better (Logit.negInfinity, 0)).1 :=
    (hread.trans hle).trans (foldl_better.right f hf)
  have ⟨hfinal, hidx⟩ : Placed m v ((localsOf found (min logits.length 1024)).foldl better (Logit.negInfinity, 0)) :=
    foldl_better_of hstart hlocal
  rw [hargmax, hidx (le_antisymm hfinal hbest)]

-- The loop of the first thread does not end when the index can pass over the end.
theorem argmax_eq_none (hlt : 2 ^ 32 - 1024 < logits.length) (hlen : logits.length < 2 ^ 32) : argmax logits = none := by
  have hn : uint logits.length = logits.length := Nat.mod_eq_of_lt hlen
  have hmapM : (range (min logits.length 1024)).mapM (fun tpig => scan logits logits.length (2 ^ 22 + 1) tpig
      (Logit.negInfinity, 0)) = none :=
    mapM_eq_none (mem_range.mpr (by omega)) (scan_eq_none hlt (dvd_zero _) (by decide))
  simp only [argmax, hn, hmapM, Option.bind_eq_bind, Option.bind_none]

end Threads

section Agreement

variable {φ : Type} [LinearLogit φ] {logits : List φ}

-- All ways to choose greedily choose the same token.
def Agree (logits : List φ) : Prop :=
  ∃ token, (GreedySampler.sample logits none).token = token ∧
    (∀ sampler : TopKSampler, (sampler.sample logits none).token = token) ∧
    (∀ sampler : TopKSampler, 1 ≤ sampler.k → (sampler.sampleTopK logits none).head? = some ⟨token⟩) ∧
    argmax logits = some token

theorem topK_tokens {tl : TokenLogit φ} (h : (TopKSampler.ranked logits none).head? = some tl) :
    (∀ sampler : TopKSampler, (sampler.sample logits none).token = tl.token) ∧
      ∀ sampler : TopKSampler, 1 ≤ sampler.k → (sampler.sampleTopK logits none).head? = some ⟨tl.token⟩ := by
  refine ⟨fun sampler => by rw [TopKSampler.sample, h]; rfl, fun sampler hk => ?_⟩
  rw [TopKSampler.sampleTopK, head?_map, head?_take, if_neg (by omega), h]
  rfl

-- One sampler chooses the last of the greatest logits, the other one the first.
theorem uniqueMax_of_agree (hne : logits ≠ []) (hlen : logits.length < 2 ^ 32) (h : Agree logits) : UniqueMax logits := by
  have ⟨l, hl, hlast⟩ := GreedySampler.sample_last hne
  have ⟨m, tl, hhead, htl, hfirst⟩ := TopKSampler.ranked_first hne
  have ⟨token, hgreedy, htopK, _⟩ := h
  have hml : UInt32.ofNat m = UInt32.ofNat l := by
    rw [← htl, ← (topK_tokens hhead).left ⟨1⟩, htopK, ← hgreedy, hl]
  have hmlt := (List.getElem?_eq_some_iff.mp hfirst.choose_spec.left).1
  have hllt := (List.getElem?_eq_some_iff.mp hlast.choose_spec.left).1
  have hnat := congrArg UInt32.toNat hml
  rw [UInt32.toNat_ofNat_of_lt' (by rw [UInt32.size]; omega), UInt32.toNat_ofNat_of_lt' (by rw [UInt32.size]; omega)] at hnat
  subst hnat
  exact uniqueMax_of_first_last hfirst hlast

theorem agree_of_unique (hle : logits.length ≤ 2 ^ 32 - 1024) (h : UniqueMax logits) : Agree logits := by
  have ⟨u, v, hv, hu⟩ := h
  have hne : logits ≠ [] := fun hnil => by simp [hnil] at hv
  have ⟨l, hl, hlast⟩ := GreedySampler.sample_last hne
  have ⟨m, tl, hhead, htl, hfirst⟩ := TopKSampler.ranked_first hne
  have ⟨hsample, hsampleTopK⟩ := topK_tokens hhead
  have hlu := hlast.eq_of_unique hv hu
  have hmu := hfirst.eq_of_unique hv hu
  subst hlu
  subst hmu
  rw [htl] at hsample hsampleTopK
  exact ⟨UInt32.ofNat m, by rw [hl], hsample, hsampleTopK, argmax_of_unique hle hv hu⟩

-- The choices are the same where there is only one to make, and the index of the kernel does not pass over the end.
theorem agree_iff (logits : List φ) (hne : logits ≠ []) (hlen : logits.length < 2 ^ 32) :
    Agree logits ↔ UniqueMax logits ∧ logits.length ≤ 2 ^ 32 - 1024 := by
  refine ⟨fun h => ⟨uniqueMax_of_agree hne hlen h, ?_⟩, fun h => agree_of_unique h.right h.left⟩
  by_contra hlt
  have ⟨_, _, _, _, hargmax⟩ := h
  rw [argmax_eq_none (Nat.not_le.mp hlt) hlen] at hargmax
  cases hargmax

theorem agree_two : Agree ([2, 1] : List EReal) := by
  refine (agree_iff [2, 1] (by simp) (by simp)).mpr ⟨⟨0, 2, rfl, fun j w hw hne => ?_⟩, by simp⟩
  match j with
  | 0 => contradiction
  | 1 =>
    cases hw
    norm_num
  | _ + 2 => simp at hw

-- Two equal logits
theorem exists_not_agree : ¬Agree ([1, 1] : List EReal) := by
  intro h
  have ⟨m, v, hv, hm⟩ := uniqueMax_of_agree (by simp) (by simp) h
  match m with
  | 0 =>
    cases hv
    exact lt_irrefl _ (hm 1 1 rfl Nat.one_ne_zero)
  | 1 =>
    cases hv
    exact lt_irrefl _ (hm 0 1 rfl Nat.zero_ne_one)
  | _ + 2 => simp at hv

end Agreement
end Argmax
