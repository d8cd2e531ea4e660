import Mathlib
import VeloCore.Objects.Metal.Int8
import VeloCore.Objects.Metal.Theorems.Paging

open List

namespace Int8Pool

variable {x : List ℚ} {v : ℚ} {pool : Int8Pool} {base : Nat}

section Rounding

theorem abs_toChar_sub_lt (y : ℚ) : |(toChar y : ℚ) - y| < 1 := by
  unfold toChar
  split
  case isTrue h =>
    have hle := Int.floor_le y
    have hlt := Int.lt_floor_add_one y
    rw [abs_lt]
    constructor <;> linarith
  case isFalse h =>
    have hle := Int.le_ceil y
    have hlt := Int.ceil_lt_add_one y
    rw [abs_lt]
    constructor <;> linarith

theorem toChar_mem {y : ℚ} {n : Int} (h : |y| ≤ n) : -n ≤ toChar y ∧ toChar y ≤ n := by
  have ⟨hlo, hhi⟩ := abs_le.mp h
  unfold toChar
  split
  case isTrue hy =>
    exact ⟨Int.le_floor.mpr (by push_cast; exact hlo), by exact_mod_cast (Int.floor_le y).trans hhi⟩
  case isFalse hy =>
    exact ⟨by exact_mod_cast hlo.trans (Int.le_ceil y), Int.ceil_le.mpr hhi⟩

theorem le_foldl_max (x : List ℚ) (m : ℚ) : m ≤ x.foldl (fun m v => max m |v|) m ∧
    (∀ v ∈ x, |v| ≤ x.foldl (fun m v => max m |v|) m) ∧
      (x.foldl (fun m v => max m |v|) m = m ∨ ∃ v ∈ x, x.foldl (fun m v => max m |v|) m = |v|) := by
  induction x generalizing m
  case nil => simp
  case cons w x hi =>
    have ⟨hm, hx, he⟩ := hi (max m |w|)
    refine ⟨(le_max_left ..).trans hm, forall_mem_cons.mpr ⟨(le_max_right ..).trans hm, hx⟩, ?_⟩
    rcases he with he | ⟨v, hv, he⟩
    case inr => exact .inr ⟨v, mem_cons_of_mem w hv, he⟩
    case inl =>
      rcases max_choice m |w| with hc | hc
      case inl => exact .inl (he.trans hc)
      case inr => exact .inr ⟨w, mem_cons_self, he.trans hc⟩

theorem abs_le_absMax (h : v ∈ x) : |v| ≤ absMax x :=
  (le_foldl_max x 0).right.left v h

theorem isGreatest_absMax (h : ∃ v ∈ x, v ≠ 0) : IsGreatest {a | ∃ v ∈ x, a = |v|} (absMax x) ∧ 0 < absMax x := by
  have ⟨w, hw, hne⟩ := h
  have hpos : 0 < absMax x := (abs_pos.mpr hne).trans_le (abs_le_absMax hw)
  refine ⟨⟨(le_foldl_max x 0).right.right.resolve_left fun h0 => hpos.ne' h0, fun a ⟨v, hv, ha⟩ => ha ▸ abs_le_absMax hv⟩, hpos⟩

theorem absMax_of_zero (h : ∀ v ∈ x, v = 0) : absMax x = 0 :=
  (le_foldl_max x 0).right.right.elim id fun ⟨v, hv, he⟩ => he.trans (by rw [h v hv, abs_zero])

theorem abs_mul_invScale_le (h : v ∈ x) : |v * invScale x| ≤ 127 := by
  unfold invScale
  split
  case isFalse => norm_num
  case isTrue hpos =>
    rw [abs_mul, abs_of_pos (div_pos (by norm_num) hpos : 0 < 127 / absMax x), mul_div_assoc', div_le_iff₀ hpos, mul_comm]
    exact mul_le_mul_of_nonneg_left (abs_le_absMax h) (by norm_num)

theorem codes_mem {c : Int} (h : c ∈ codes x) : -127 ≤ c ∧ c ≤ 127 := by
  have ⟨v, hv, hc⟩ := mem_map.mp h
  exact hc ▸ toChar_mem (by exact_mod_cast abs_mul_invScale_le hv)

-- The scale undoes what the codes were multiplied by, and less than one code was lost.
theorem abs_code_sub_lt (hpos : 0 < absMax x) (v : ℚ) : |toChar (v * invScale x) * scale x - v| < absMax x / 127 := by
  have hscale : 0 < scale x := div_pos hpos (by norm_num)
  have hinv : v = v * invScale x * scale x := by
    rw [invScale, if_pos hpos, scale]
    field_simp
  have hlt := abs_toChar_sub_lt (v * invScale x)
  calc |toChar (v * invScale x) * scale x - v|
      = |(toChar (v * invScale x) : ℚ) - v * invScale x| * scale x := by
        conv_lhs => rw [hinv]
        rw [← sub_mul, abs_mul, abs_of_pos hscale, ← hinv]
    _ < 1 * scale x := mul_lt_mul_of_pos_right hlt hscale
    _ = absMax x / 127 := one_mul _

end Rounding

section Records

-- The bytes of a record
def record (base headDim : Nat) : Set Nat :=
  Set.Ico base (base + headDim + 4)

theorem readChar_writeRecord {d : Nat} (hd : d < x.length) :
    (pool.writeRecord base x).readChar (base + d) = some ((codes x).getD d 0) := by
  have hin : base ≤ base + d ∧ base + d < base + x.length := by omega
  simp [readChar, writeRecord, hin]

theorem readFloat_writeRecord : (pool.writeRecord base x).readFloat (base + x.length) = some (scale x) := by
  have hbyte (i : Nat) (hi : i < 4) : pool.writeRecord base x (base + x.length + i) = .float (scale x) i := by
    rw [writeRecord, if_neg (by omega), if_pos (by omega), Nat.add_sub_cancel_left]
  have h₀ : pool.writeRecord base x (base + x.length) = .float (scale x) 0 := hbyte 0 (by decide)
  simp [readFloat, h₀, hbyte]

theorem mapM_eq_some {f : α → Option β} {g : α → β} {l : List α} (h : ∀ a ∈ l, f a = some (g a)) :
    l.mapM f = some (l.map g) := by
  induction l
  case nil => rfl
  case cons a l hi =>
    rw [mapM_cons, h a mem_cons_self, hi fun b hb => h b (mem_cons_of_mem a hb)]
    rfl

-- What is read back of a vector
theorem readRecord_writeRecord :
    (pool.writeRecord base x).readRecord base x.length = some ((codes x).map fun c : Int => (c : ℚ) * scale x) := by
  have hcodes : (range x.length).map (fun d => ((codes x).getD d 0 : ℚ) * scale x) =
      (codes x).map fun c : Int => (c : ℚ) * scale x := by
    refine ext_getElem (by simp [codes]) fun d hd hd' => ?_
    rw [length_map, length_range] at hd
    simp [codes, hd]
  rw [readRecord, readFloat_writeRecord, ← hcodes]
  exact mapM_eq_some fun d hd => by rw [readChar_writeRecord (mem_range.mp hd), Option.map_some]

theorem writeRecord_of_notMem {a : Nat} (h : a ∉ record base x.length) : pool.writeRecord base x a = pool a := by
  rw [record, Set.mem_Ico] at h
  rw [writeRecord, if_neg (by omega), if_neg (by omega)]

-- A record is read as it was when one that does not overlap is written.
theorem readRecord_frame {base' n : Nat} (h : Disjoint (record base' n) (record base x.length)) :
    (pool.writeRecord base x).readRecord base' n = pool.readRecord base' n := by
  have hsame (d : Nat) (hd : d < n + 4) : pool.writeRecord base x (base' + d) = pool (base' + d) := by
    refine writeRecord_of_notMem (Set.disjoint_left.mp h ?_)
    rw [record, Set.mem_Ico]
    omega
  have hfloat : (pool.writeRecord base x).readFloat (base' + n) = pool.readFloat (base' + n) := by
    have h₁ := hsame (n + 1) (by omega)
    have h₂ := hsame (n + 2) (by omega)
    have h₃ := hsame (n + 3) (by omega)
    simp only [readFloat, Nat.add_assoc, hsame n (by omega), h₁, h₂, h₃]
  have hchars : (range n).map (fun d => (pool.writeRecord base x).readChar (base' + d)) =
      (range n).map fun d => pool.readChar (base' + d) :=
    map_congr_left fun d hd => by
      have hd := mem_range.mp hd
      rw [readChar, readChar, hsame d (by omega)]
  rw [readRecord, readRecord, hfloat]
  cases hf : pool.readFloat (base' + n)
  case none => rfl
  case some s =>
    simp only [Option.bind_eq_bind, Option.bind_some]
    have hmap (f : Nat → Option Int) : (range n).mapM (fun d => (f d).map fun c : Int => (c : ℚ) * s) =
        ((range n).map f).mapM (fun o => o.map fun c : Int => (c : ℚ) * s) := by
      rw [mapM_map]
      rfl
    rw [hmap, hmap, hchars]

end Records

-- The row of the table holds these pages.
def Follows (args : PagedArgs) (pages : List Nat) : Prop :=
  ∀ t < pages.length * args.blockSize, pages[t / args.blockSize]? = some (args.blockIdx t)

instance (args : PagedArgs) (pages : List Nat) : Decidable (Follows args pages) :=
  inferInstanceAs (Decidable (∀ t < _, _))

-- The bytes of the positions on the pages can be counted with a `uint`.
def Counted (args : PagedArgs) (pages : List Nat) : Prop :=
  args.headDim + 4 < 2 ^ 32 ∧ ∀ pos < pages.length * args.blockSize, ∀ headIdx < args.nHeadKv,
    args.place pos * (args.nHeadKv * (args.headDim + 4)) + headIdx * (args.headDim + 4) < 2 ^ 32

-- What is reconstructed for a vector: less than one 127th of its greatest number is lost of each, and nothing of zeros.
structure Reconstructs (x y : List ℚ) : Prop where
  length : y.length = x.length
  zero   : (∀ v ∈ x, v = 0) → y = x
  error  : (∃ v ∈ x, v ≠ 0) → ∃ m, IsGreatest {a | ∃ v ∈ x, a = |v|} m ∧
    ∀ (d : Nat) (v w : ℚ), x[d]? = some v → y[d]? = some w → |w - v| < m / 127

theorem reconstructs_codes (x : List ℚ) : Reconstructs x ((codes x).map fun c : Int => (c : ℚ) * scale x) where
  length := by simp [codes]
  zero h := by
    refine ext_getElem (by simp [codes]) fun d hd hd' => ?_
    have hv := h _ (getElem_mem hd')
    simp [scale, absMax_of_zero h, hv]
  error h := by
    have ⟨hgreatest, hpos⟩ := isGreatest_absMax h
    refine ⟨absMax x, hgreatest, fun d v w hv hw => ?_⟩
    rw [getElem?_map, codes, getElem?_map, hv] at hw
    exact Option.some.inj hw ▸ abs_code_sub_lt hpos v

section Addresses

variable {args : PagedArgs} {pages : List Nat} {pos pos' headIdx headIdx' : Nat}

theorem headBytes_eq (h : Counted args pages) : args.headBytes = args.headDim + 4 :=
  uint_eq h.left

theorem offset_eq (h : Counted args pages) (hpos : pos < pages.length * args.blockSize) (hhead : headIdx < args.nHeadKv) :
    args.kvUpdateInt8Offset pos headIdx = (args.place pos * args.nHeadKv + headIdx) * (args.headDim + 4) ∧
      args.kvHeadInt8 pos headIdx = args.kvUpdateInt8Offset pos headIdx := by
  have hlt := h.right pos hpos headIdx hhead
  rw [← headBytes_eq h] at hlt ⊢
  rw [PagedArgs.kvUpdateInt8Offset, PagedArgs.kvHeadInt8, PagedArgs.writeOffset_eq hlt, PagedArgs.readOffset_eq hlt]
  exact ⟨by ring, rfl⟩

-- The records are as many times their size from the start of the pool as there are others before them.
theorem disjoint_records (hrow : Follows args pages) (hnodup : pages.Nodup) (h : Counted args pages)
    (hpos : pos < pages.length * args.blockSize) (hpos' : pos' < pages.length * args.blockSize)
    (hhead : headIdx < args.nHeadKv) (hhead' : headIdx' < args.nHeadKv) (hne : (pos, headIdx) ≠ (pos', headIdx')) :
    Disjoint (record (args.kvUpdateInt8Offset pos headIdx) args.headDim)
      (record (args.kvUpdateInt8Offset pos' headIdx') args.headDim) := by
  rw [(offset_eq h hpos hhead).left, (offset_eq h hpos' hhead').left]
  refine Set.disjoint_left.mpr fun a ha ha' => hne ?_
  rw [record, Set.mem_Ico] at ha ha'
  have hb : 0 < args.blockSize := Nat.pos_of_mul_pos_left (Nat.zero_lt_of_lt hpos)
  have hbyte (k : Nat) (hle : k * (args.headDim + 4) ≤ a) (hlt : a < k * (args.headDim + 4) + args.headDim + 4) :
      a / (args.headDim + 4) = k := by
    rw [Nat.div_eq_iff (by omega)]
    omega
  have hrecord := (hbyte _ ha.left ha.right).symm.trans (hbyte _ ha'.left ha'.right)
  have ⟨hplace, hh⟩ := Nat.digits_inj hhead hhead' hrecord
  have ⟨hpage, hmod⟩ := Nat.digits_inj (Nat.mod_lt pos hb) (Nat.mod_lt pos' hb) hplace
  have ⟨hlt, _⟩ := List.getElem?_eq_some_iff.mp (hrow pos hpos)
  have hdiv := (getElem?_inj hlt hnodup).mp ((hrow pos hpos).trans (hpage ▸ (hrow pos' hpos').symm))
  rw [hh, ← Nat.div_add_mod pos args.blockSize, hdiv, hmod, Nat.div_add_mod]

end Addresses

-- Whatever is written for a position and a head, it can be read back, and no other record of the slot is touched.
theorem int8_record (args : PagedArgs) (pages : List Nat) (hrow : Follows args pages) (hnodup : pages.Nodup)
    (h : Counted args pages) (pool : Int8Pool) (pos headIdx : Nat) (hpos : pos < pages.length * args.blockSize)
    (hhead : headIdx < args.nHeadKv) (x : List ℚ) (hx : x.length = args.headDim) :
    (∀ c ∈ codes x, -127 ≤ c ∧ c ≤ 127) ∧
    (∃ y, (pool.kvUpdateInt8 args pos headIdx x).headInt8 args pos headIdx = some y ∧ Reconstructs x y) ∧
    args.kvHeadInt8 pos headIdx = args.kvUpdateInt8Offset pos headIdx ∧
    ∀ pos' < pages.length * args.blockSize, ∀ headIdx' < args.nHeadKv, (pos, headIdx) ≠ (pos', headIdx') →
      Disjoint (record (args.kvUpdateInt8Offset pos headIdx) args.headDim)
        (record (args.kvUpdateInt8Offset pos' headIdx') args.headDim) ∧
      (pool.kvUpdateInt8 args pos headIdx x).headInt8 args pos' headIdx' = pool.headInt8 args pos' headIdx' := by
  have ⟨_, hsame⟩ := offset_eq h hpos hhead
  refine ⟨fun c hc => codes_mem hc, ⟨_, ?_, reconstructs_codes x⟩, hsame, fun pos' hpos' headIdx' hhead' hne => ?_⟩
  case refine_1 => rw [headInt8, hsame, kvUpdateInt8, ← hx, readRecord_writeRecord]
  case refine_2 =>
    have hdisj := disjoint_records hrow hnodup h hpos hpos' hhead hhead' hne
    refine ⟨hdisj, ?_⟩
    rw [headInt8, (offset_eq h hpos' hhead').right, kvUpdateInt8, readRecord_frame (hx ▸ hdisj.symm), headInt8,
      (offset_eq h hpos' hhead').right]

-- Two pages in the other order, two heads of three numbers
theorem int8_record_three : ∃ y, (kvUpdateInt8 (fun _ => .char 0) ⟨fun i => if i = 0 then 1 else 0, 0, 2, 2, 2, 3⟩ 1 1
    [1, -2, 1 / 3]).headInt8 ⟨fun i => if i = 0 then 1 else 0, 0, 2, 2, 2, 3⟩ 1 1 = some y ∧ Reconstructs [1, -2, 1 / 3] y :=
  (int8_record ⟨fun i => if i = 0 then 1 else 0, 0, 2, 2, 2, 3⟩ [1, 0] (by decide) (by decide)
    ⟨by decide, by decide⟩ _ 1 1 (by decide) (by decide) [1, -2, 1 / 3] rfl).right.left

end Int8Pool
