import Mathlib
import VeloCore.Objects.Metal.Theorems.Int8

open List

namespace Int8Pool

-- A thread of `kv_update_int8` for one of the slots
structure Write where
  slot : Nat
  pos : Nat
  headIdx : Nat
  x : List ℚ
deriving DecidableEq

namespace Write

variable (w : Write)

-- Where it writes to
def key : Nat × Nat × Nat :=
  (w.slot, w.pos, w.headIdx)

end Write

-- The slots that share a pool, each with its row of the table
variable (slots : Nat → PagedArgs)

-- What the threads leave in the pool, in this order
def writeAll (pool : Int8Pool) (writes : List Write) : Int8Pool :=
  writes.foldl (fun pool w => pool.kvUpdateInt8 (slots w.slot) w.pos w.headIdx w.x) pool

-- What was last written to a place
def lastWritten (writes : List Write) (key : Nat × Nat × Nat) : Option (List ℚ) :=
  (writes.reverse.find? (·.key = key)).map (·.x)

-- The slots have one geometry and pages of their own, and the kernels can count all of their bytes.
structure Shares (slots : Nat → PagedArgs) (pages : Nat → List Nat) (blockSize nHeadKv headDim : Nat) : Prop where
  blockSize : ∀ i, (slots i).blockSize = blockSize
  nHeadKv   : ∀ i, (slots i).nHeadKv = nHeadKv
  headDim   : ∀ i, (slots i).headDim = headDim
  follows   : ∀ i, Follows (slots i) (pages i)
  counted   : ∀ i, Counted (slots i) (pages i)
  nodup     : ∀ i, (pages i).Nodup
  disjoint  : ∀ i j, i ≠ j → (pages i).Disjoint (pages j)

-- The places of a slot
def Within (pages : Nat → List Nat) (blockSize nHeadKv : Nat) (key : Nat × Nat × Nat) : Prop :=
  key.2.1 < (pages key.1).length * blockSize ∧ key.2.2 < nHeadKv

variable {slots : Nat → PagedArgs} {pages : Nat → List Nat} {blockSize nHeadKv headDim : Nat} {key key' : Nat × Nat × Nat}

-- Where the record of a place begins
def base (slots : Nat → PagedArgs) (key : Nat × Nat × Nat) : Nat :=
  (slots key.1).kvUpdateInt8Offset key.2.1 key.2.2

namespace Shares

theorem base_eq (h : Shares slots pages blockSize nHeadKv headDim) (hkey : Within pages blockSize nHeadKv key) :
    base slots key = (((slots key.1).blockIdx key.2.1 * blockSize + key.2.1 % blockSize) * nHeadKv + key.2.2) * (headDim + 4) ∧
      (slots key.1).kvHeadInt8 key.2.1 key.2.2 = base slots key := by
  obtain ⟨hpos, hhead⟩ := hkey
  have heq := offset_eq (h.counted key.1) (by rwa [h.blockSize]) (by rwa [h.nHeadKv])
  rw [PagedArgs.place, PagedArgs.tokenInBlock, h.blockSize, h.nHeadKv, h.headDim] at heq
  exact heq

-- The page of a place
theorem blockIdx_mem (h : Shares slots pages blockSize nHeadKv headDim) (hkey : Within pages blockSize nHeadKv key) :
    (slots key.1).blockIdx key.2.1 ∈ pages key.1 :=
  mem_of_getElem? (h.follows key.1 key.2.1 (by rw [h.blockSize]; exact hkey.left))

-- Records of different places do not overlap, be they of one slot or of two.
theorem disjoint_record (h : Shares slots pages blockSize nHeadKv headDim) (hkey : Within pages blockSize nHeadKv key)
    (hkey' : Within pages blockSize nHeadKv key') (hne : key ≠ key') :
    Disjoint (record (base slots key) headDim) (record (base slots key') headDim) := by
  by_cases hslot : key.1 = key'.1
  case pos =>
    obtain ⟨i, pos, headIdx⟩ := key
    obtain ⟨j, pos', headIdx'⟩ := key'
    cases hslot
    obtain ⟨hpos, hhead⟩ := hkey
    obtain ⟨hpos', hhead'⟩ := hkey'
    rw [← h.blockSize i] at hpos hpos'
    rw [← h.nHeadKv i] at hhead hhead'
    have hdisjoint := disjoint_records (h.follows i) (h.nodup i) (h.counted i) hpos hpos' hhead hhead' fun heq => hne (by rw [heq])
    rwa [h.headDim] at hdisjoint
  case neg =>
    obtain ⟨hpos, hhead⟩ := id hkey
    obtain ⟨hpos', hhead'⟩ := id hkey'
    have hblock : 0 < blockSize := Nat.pos_of_mul_pos_left (Nat.zero_lt_of_lt hpos)
    rw [(h.base_eq hkey).left, (h.base_eq hkey').left]
    refine Set.disjoint_left.mpr fun a ha ha' => ?_
    rw [record, Set.mem_Ico] at ha ha'
    have hbyte (k : Nat) (hle : k * (headDim + 4) ≤ a) (hlt : a < k * (headDim + 4) + headDim + 4) : a / (headDim + 4) = k := by
      rw [Nat.div_eq_iff (by omega)]
      omega
    have hrecord := (hbyte _ ha.left ha.right).symm.trans (hbyte _ ha'.left ha'.right)
    obtain ⟨hplace, _⟩ := Nat.digits_inj hhead hhead' hrecord
    obtain ⟨hpage, _⟩ := Nat.digits_inj (Nat.mod_lt _ hblock) (Nat.mod_lt _ hblock) hplace
    exact h.disjoint key.1 key'.1 hslot (h.blockIdx_mem hkey) (hpage ▸ h.blockIdx_mem hkey')

end Shares

section Scores

variable {x y q : List ℚ} {m : ℚ}

-- What a query scores, before it is divided by the root of the dimension
def score (q x : List ℚ) : ℚ :=
  (zipWith (· * ·) q x).sum

theorem abs_score_sub_le {e : ℚ} (he : 0 ≤ e) (h : Forall₂ (fun v w => |w - v| ≤ e) x y) (q : List ℚ) :
    |score q y - score q x| ≤ (q.map abs).sum * e := by
  have hnonneg (q : List ℚ) : 0 ≤ (q.map abs).sum * e :=
    mul_nonneg (sum_nonneg fun v hv => by obtain ⟨w, _, rfl⟩ := mem_map.mp hv; exact abs_nonneg w) he
  induction h generalizing q
  case nil => simpa [score] using hnonneg q
  case cons v w x y hvw _ hi =>
    cases q
    case nil => simp [score]
    case cons c q =>
      have hstep : score (c :: q) (w :: y) - score (c :: q) (v :: x) = c * (w - v) + (score q y - score q x) := by
        simp only [score, zipWith_cons_cons, sum_cons]
        ring
      rw [hstep, map_cons, sum_cons, add_mul]
      refine (abs_add_le _ _).trans (add_le_add ?_ (hi q))
      rw [abs_mul]
      exact mul_le_mul_of_nonneg_left hvw (abs_nonneg c)

-- Of a score, less than one 127th of the greatest number is lost for each part of the query.
theorem Reconstructs.abs_score_sub_le (h : Reconstructs x y) (hm : ∀ v ∈ x, |v| ≤ m) (hpos : 0 ≤ m) (q : List ℚ) :
    |score q y - score q x| ≤ (q.map abs).sum * (m / 127) := by
  refine Int8Pool.abs_score_sub_le (div_nonneg hpos (by norm_num)) (forall₂_iff_get.mpr ⟨h.length.symm, fun d hx hy => ?_⟩) q
  by_cases hzero : ∀ v ∈ x, v = 0
  case pos =>
    have hsame : y = x := h.zero hzero
    subst hsame
    rw [sub_self, abs_zero]
    exact div_nonneg hpos (by norm_num)
  case neg =>
    push Not at hzero
    obtain ⟨_, ⟨⟨v, hv, rfl⟩, _⟩, herror⟩ := h.error hzero
    have hlt := herror d _ _ (getElem?_eq_getElem hx) (getElem?_eq_getElem hy)
    exact hlt.le.trans (div_le_div_of_nonneg_right (hm v hv) (by norm_num))

end Scores

theorem lastWritten_concat (writes : List Write) (w : Write) (key : Nat × Nat × Nat) :
    lastWritten (writes ++ [w]) key = if w.key = key then some w.x else lastWritten writes key := by
  rw [lastWritten, reverse_append, reverse_singleton, singleton_append, find?_cons]
  by_cases h : w.key = key <;> simp [h, lastWritten]

-- Whatever the threads write, to the slots and the positions and the heads in any order and as often as they like, each place
-- has what was last written to it, up to the rounding, of which the scores do not lose much, and a place to which nothing was written has what it had.
theorem headInt8_writeAll (h : Shares slots pages blockSize nHeadKv headDim) (pool : Int8Pool) (writes : List Write)
    (hwrites : ∀ w ∈ writes, Within pages blockSize nHeadKv w.key ∧ w.x.length = headDim) (slot pos headIdx : Nat)
    (hkey : Within pages blockSize nHeadKv (slot, pos, headIdx)) :
    (∀ x, lastWritten writes (slot, pos, headIdx) = some x →
      ∃ y, (writeAll slots pool writes).headInt8 (slots slot) pos headIdx = some y ∧ Reconstructs x y ∧
        ∀ q m, 0 ≤ m → (∀ v ∈ x, |v| ≤ m) → |score q y - score q x| ≤ (q.map abs).sum * (m / 127)) ∧
    (lastWritten writes (slot, pos, headIdx) = none →
      (writeAll slots pool writes).headInt8 (slots slot) pos headIdx = pool.headInt8 (slots slot) pos headIdx) := by
  induction writes using reverseRecOn
  case nil => exact ⟨fun x hx => (by cases hx), fun _ => rfl⟩
  case append_singleton writes w hi =>
    obtain ⟨hw, hx⟩ := hwrites w (by simp)
    have hrest := hi fun w' hw' => hwrites w' (mem_append_left _ hw')
    have hlast : writeAll slots pool (writes ++ [w]) =
        (writeAll slots pool writes).kvUpdateInt8 (slots w.slot) w.pos w.headIdx w.x := by
      rw [writeAll, foldl_append]
      rfl
    have hread := (h.base_eq hkey).right
    rw [lastWritten_concat, hlast]
    by_cases hsame : w.key = (slot, pos, headIdx)
    case pos =>
      rw [if_pos hsame]
      cases hsame
      refine ⟨fun x heq => ⟨_, ?_, reconstructs_codes x, fun q m hpos hm => (reconstructs_codes x).abs_score_sub_le hm hpos q⟩,
        fun heq => (by cases heq)⟩
      cases heq
      have hrecord : (slots w.slot).kvHeadInt8 w.pos w.headIdx = (slots w.slot).kvUpdateInt8Offset w.pos w.headIdx := hread
      rw [headInt8, hrecord, kvUpdateInt8, h.headDim, ← hx, readRecord_writeRecord]
    case neg =>
      have hframe : ((writeAll slots pool writes).kvUpdateInt8 (slots w.slot) w.pos w.headIdx w.x).headInt8 (slots slot) pos headIdx =
          (writeAll slots pool writes).headInt8 (slots slot) pos headIdx := by
        rw [headInt8, headInt8, hread, kvUpdateInt8, h.headDim]
        exact readRecord_frame (hx ▸ (h.disjoint_record hw hkey hsame).symm)
      rwa [if_neg hsame, hframe]

-- Two slots in turn: the second write to a place of the first one is what is read there.
theorem headInt8_writeAll_two : ∃ y, (writeAll (fun i => ⟨fun _ => if i = 0 then 1 else 0, 0, 1, 2, 1, 2⟩) (fun _ => .char 0)
    [⟨0, 1, 0, [1, -2]⟩, ⟨1, 1, 0, [5, 3]⟩, ⟨0, 1, 0, [4, 1 / 3]⟩]).headInt8 ⟨fun _ => 1, 0, 1, 2, 1, 2⟩ 1 0 = some y ∧
      Reconstructs [4, 1 / 3] y := by
  have h : Shares (fun i => ⟨fun _ => if i = 0 then 1 else 0, 0, 1, 2, 1, 2⟩) (fun i => [[1], [0]].getD i []) 2 1 2 := by
    refine ⟨fun _ => rfl, fun _ => rfl, fun _ => rfl, fun i => ?_, fun i => ?_, fun i => ?_, fun i j hne => ?_⟩
    case refine_1 =>
      rcases i with _ | _ | i
      case zero      => decide
      case succ.zero => decide
      case succ.succ => exact fun t ht => absurd ht (by simp)
    case refine_2 =>
      rcases i with _ | _ | i
      case zero      => exact ⟨by decide, by decide⟩
      case succ.zero => exact ⟨by decide, by decide⟩
      case succ.succ => exact ⟨show 2 + 4 < 2 ^ 32 by decide, fun pos hpos => absurd hpos (by simp)⟩
    case refine_3 => rcases i with _ | _ | i <;> simp
    case refine_4 =>
      rcases i with _ | _ | i <;> rcases j with _ | _ | j <;> simp_all
  obtain ⟨y, hread, hy, _⟩ := (headInt8_writeAll h (fun _ => .char 0)
    [⟨0, 1, 0, [1, -2]⟩, ⟨1, 1, 0, [5, 3]⟩, ⟨0, 1, 0, [4, 1 / 3]⟩] (by simp [Within, Write.key]) 0 1 0 (by simp [Within])).left _ rfl
  exact ⟨y, hread, hy⟩

end Int8Pool
