import VeloCore.Objects.Backend.Theorems.Blocks

open List F32 Eff

-- What a super-block is to stand for. There are eight scales and mins, and 256 nibbles.
structure Q4kBlock where
  d : UInt16
  dmin : UInt16
  scale : Nat → BitVec 6
  min : Nat → BitVec 6
  nibble : Nat → BitVec 4

namespace Q4kBlock

variable {φ σ ε : Type} [F32 φ] (b : Q4kBlock)

-- The numbers that are stood for
def values : List φ :=
  (range 8).flatMap fun sub' => (range 32).map fun i =>
    F32.sub (mul (mul (f16ToF32 b.d) (ofInt (b.scale sub').toNat)) (ofInt (b.nibble (sub' * 32 + i)).toNat))
      (mul (f16ToF32 b.dmin) (ofInt (b.min sub').toNat))

-- The scales and the mins as they are unpacked
def fields : List (UInt8 × UInt8) :=
  (range 8).map fun i => (⟨(b.scale i).setWidth 8⟩, ⟨(b.min i).setWidth 8⟩)

-- Where bits are shared, they agree. The last four scales and mins have bits that are ored to those of the first four.
def Spliced : Prop :=
  ∀ i < 4,
    (b.scale i).extractLsb' 4 2 ||| (b.scale (i + 4)).extractLsb' 0 2 = (b.scale i).extractLsb' 4 2 ∧
    (b.min (i + 4)).extractLsb' 0 2 = (b.scale (i + 4)).extractLsb' 4 2 ∧
    (b.min i).extractLsb' 4 2 = (b.min (i + 4)).extractLsb' 4 2 ||| (b.scale (i + 4)).extractLsb' 4 2

instance : Decidable b.Spliced :=
  inferInstanceAs (Decidable (∀ i < 4, _))

end Q4kBlock

-- Some bytes for each of the blocks are decoded to what they stand for, and each of them has scale bytes.
def Representable (blocks : List Q4kBlock) : Prop :=
  (∃ data : List UInt8, data.length = blocks.length * 144 ∧
    ∀ (φ : Type) [F32 φ] (out : List φ), out.length = blocks.length * 256 →
      (dequantQ4kRow data out : Eff Unit Empty (List φ)) = pure (blocks.flatMap Q4kBlock.values)) ∧
  ∀ b ∈ blocks, ∃ bytes : List UInt8, bytes.length = 12 ∧ unpackQ4kScales bytes = b.fields

section Unpack

-- What is unpacked from the bytes `i`, `i + 4` and `i + 8`
def lowScale (a c : BitVec 8) : BitVec 8 :=
  ((a &&& 0x3F) ||| (c &&& 0x0F) <<< 4) &&& 0x3F

def lowMin (b c : BitVec 8) : BitVec 8 :=
  ((b &&& 0x3F) ||| (c >>> 4) <<< 4) &&& 0x3F

def highScale (c : BitVec 8) : BitVec 8 :=
  (c &&& 0x3F) &&& 0x3F

def highMin (b c : BitVec 8) : BitVec 8 :=
  (c >>> 4 ||| (b >>> 4) <<< 4) &&& 0x3F

variable {a b c : BitVec 8} {s s' m m' : BitVec 6}

theorem bits_of_unpacked (hs : lowScale a c = s.setWidth 8) (hm : lowMin b c = m.setWidth 8)
    (hs' : highScale c = s'.setWidth 8) (hm' : highMin b c = m'.setWidth 8) :
    s.extractLsb' 4 2 ||| s'.extractLsb' 0 2 = s.extractLsb' 4 2 ∧ m'.extractLsb' 0 2 = s'.extractLsb' 4 2 ∧
      m.extractLsb' 4 2 = m'.extractLsb' 4 2 ||| s'.extractLsb' 4 2 := by
  have hbit {x y : BitVec 8} (h : x = y) (i : Nat) : x.getLsbD i = y.getLsbD i := h ▸ rfl
  have h₁ := hbit hs 4
  have h₂ := hbit hs 5
  have h₃ := hbit hs' 0
  have h₄ := hbit hs' 1
  have h₅ := hbit hs' 4
  have h₆ := hbit hs' 5
  have h₇ := hbit hm' 0
  have h₈ := hbit hm' 1
  have h₉ := hbit hm' 4
  have h₁₀ := hbit hm' 5
  have h₁₁ := hbit hm 4
  have h₁₂ := hbit hm 5
  simp [lowScale, lowMin, highScale, highMin] at h₁ h₂ h₃ h₄ h₅ h₆ h₇ h₈ h₉ h₁₀ h₁₁ h₁₂
  refine ⟨?_, ?_, ?_⟩ <;> refine BitVec.eq_of_getLsbD_eq fun i hi => ?_
  case refine_1 => interval_cases i <;> simp [← h₁, ← h₂, ← h₃, ← h₄]
  case refine_2 => interval_cases i <;> simp [← h₅, ← h₆, ← h₇, ← h₈]
  case refine_3 => interval_cases i <;> simp [← h₅, ← h₆, ← h₉, ← h₁₀, ← h₁₁, ← h₁₂]

-- Bytes that are unpacked to fields which agree where they share bits
def byteA (s : BitVec 6) : BitVec 8 :=
  s.setWidth 8

def byteB (m m' : BitVec 6) : BitVec 8 :=
  (m.setWidth 8 &&& 0x0F) ||| (m'.setWidth 8 >>> 4) <<< 4

def byteC (s' m' : BitVec 6) : BitVec 8 :=
  s'.setWidth 8 ||| m'.setWidth 8 <<< 4

theorem unpacked_of_bits (h₁ : s.extractLsb' 4 2 ||| s'.extractLsb' 0 2 = s.extractLsb' 4 2)
    (h₂ : m'.extractLsb' 0 2 = s'.extractLsb' 4 2) (h₃ : m.extractLsb' 4 2 = m'.extractLsb' 4 2 ||| s'.extractLsb' 4 2) :
    lowScale (byteA s) (byteC s' m') = s.setWidth 8 ∧ lowMin (byteB m m') (byteC s' m') = m.setWidth 8 ∧
      highScale (byteC s' m') = s'.setWidth 8 ∧ highMin (byteB m m') (byteC s' m') = m'.setWidth 8 := by
  have hbit {x y : BitVec 2} (h : x = y) (i : Nat) : x.getLsbD i = y.getLsbD i := h ▸ rfl
  have hs₄ := hbit h₁ 0
  have hs₅ := hbit h₁ 1
  have hm₀ := hbit h₂ 0
  have hm₁ := hbit h₂ 1
  have hm₄ := hbit h₃ 0
  have hm₅ := hbit h₃ 1
  simp at hs₄ hs₅ hm₀ hm₁ hm₄ hm₅
  refine ⟨?_, ?_, ?_, ?_⟩ <;> refine BitVec.eq_of_getLsbD_eq fun i hi => ?_
  case refine_1 => interval_cases i <;> simp [lowScale, byteA, byteC] <;> assumption
  case refine_2 => interval_cases i <;> simp [lowMin, byteB, byteC, hm₀, hm₁, hm₄, hm₅]
  case refine_3 => interval_cases i <;> simp [highScale, byteC, hm₀, hm₁]
  case refine_4 => interval_cases i <;> simp [highMin, byteB, byteC, hm₀, hm₁]

theorem range_eight_map (f : Nat → α) : (range 8).map f = (range 4).map f ++ (range 4).map fun i => f (i + 4) :=
  rfl

theorem unpackQ4kScales_eq_iff {bytes : List UInt8} {block : Q4kBlock} : unpackQ4kScales bytes = block.fields ↔ ∀ i < 4,
    lowScale (bytes[i]?.getD 0).toBitVec (bytes[i + 8]?.getD 0).toBitVec = (block.scale i).setWidth 8 ∧
    lowMin (bytes[i + 4]?.getD 0).toBitVec (bytes[i + 8]?.getD 0).toBitVec = (block.min i).setWidth 8 ∧
    highScale (bytes[i + 8]?.getD 0).toBitVec = (block.scale (i + 4)).setWidth 8 ∧
    highMin (bytes[i + 4]?.getD 0).toBitVec (bytes[i + 8]?.getD 0).toBitVec = (block.min (i + 4)).setWidth 8 := by
  have happend {a b c d : List (UInt8 × UInt8)} (h : a.length = c.length) : a ++ b = c ++ d ↔ a = c ∧ b = d :=
    ⟨fun he => append_inj he h, fun ⟨h, h'⟩ => h ▸ h' ▸ rfl⟩
  rw [Q4kBlock.fields, range_eight_map, unpackQ4kScales, map_append, map_map, map_map, happend (by simp), map_inj_left,
    map_inj_left, ← forall₂_and]
  simp only [mem_range, Function.comp_apply, Prod.mk.injEq, ← UInt8.toBitVec_inj, and_assoc]
  exact Iff.rfl

end Unpack

namespace Q4kBlock

variable {b : Q4kBlock}

def scaleBytes (b : Q4kBlock) : List UInt8 :=
  (range 4).map (fun i => ⟨byteA (b.scale i)⟩) ++ (range 4).map (fun i => ⟨byteB (b.min i) (b.min (i + 4))⟩) ++
    (range 4).map (fun i => ⟨byteC (b.scale (i + 4)) (b.min (i + 4))⟩)

theorem unpack_scaleBytes (h : b.Spliced) : unpackQ4kScales b.scaleBytes = b.fields := by
  refine unpackQ4kScales_eq_iff.mpr fun i hi => ?_
  have hsplice := h i hi
  have ha : b.scaleBytes[i]?.getD 0 = ⟨byteA (b.scale i)⟩ := by interval_cases i <;> rfl
  have hb : b.scaleBytes[i + 4]?.getD 0 = ⟨byteB (b.min i) (b.min (i + 4))⟩ := by interval_cases i <;> rfl
  have hc : b.scaleBytes[i + 8]?.getD 0 = ⟨byteC (b.scale (i + 4)) (b.min (i + 4))⟩ := by interval_cases i <;> rfl
  rw [ha, hb, hc]
  exact unpacked_of_bits hsplice.left hsplice.right.left hsplice.right.right

theorem spliced_iff : b.Spliced ↔ ∃ bytes : List UInt8, bytes.length = 12 ∧ unpackQ4kScales bytes = b.fields := by
  refine ⟨fun h => ⟨b.scaleBytes, rfl, unpack_scaleBytes h⟩, fun ⟨bytes, _, h⟩ i hi => ?_⟩
  have ⟨hs, hm, hs', hm'⟩ := unpackQ4kScales_eq_iff.mp h i hi
  exact bits_of_unpacked hs hm hs' hm'

-- Two nibbles in a byte
def pair (lo hi : BitVec 4) : UInt8 :=
  ⟨lo.setWidth 8 ||| hi.setWidth 8 <<< 4⟩

theorem pair_and (lo hi : BitVec 4) : (pair lo hi &&& 0x0F).toNat = lo.toNat := by
  have h : lo.setWidth 8 = (pair lo hi &&& 0x0F).toBitVec := by
    refine BitVec.eq_of_getLsbD_eq fun i hi => ?_
    interval_cases i <;> simp [pair]
  rw [← UInt8.toNat_toBitVec, ← h, BitVec.toNat_setWidth_of_le (by decide)]

theorem pair_shift (lo hi : BitVec 4) : (pair lo hi >>> 4 &&& 0x0F).toNat = hi.toNat := by
  have h : hi.setWidth 8 = (pair lo hi >>> 4 &&& 0x0F).toBitVec := by
    refine BitVec.eq_of_getLsbD_eq fun i hi => ?_
    interval_cases i <;> simp [pair]
  rw [← UInt8.toNat_toBitVec, ← h, BitVec.toNat_setWidth_of_le (by decide)]

def bytes (b : Q4kBlock) : List UInt8 :=
  leBytes 2 b.d.toNat ++ leBytes 2 b.dmin.toNat ++ b.scaleBytes ++
    (range 128).map fun j => pair (b.nibble (2 * j)) (b.nibble (2 * j + 1))

theorem length_bytes : b.bytes.length = 144 := by
  simp [bytes, scaleBytes]

variable {φ : Type} [F32 φ]

theorem le16_leBytes (n : UInt16) : le16 ((leBytes 2 n.toNat)[0]?.getD 0) ((leBytes 2 n.toNat)[1]?.getD 0) = n := by
  have hbytes : [(leBytes 2 n.toNat)[0]?.getD 0, (leBytes 2 n.toNat)[1]?.getD 0] = leBytes 2 n.toNat := rfl
  rw [le16, hbytes, ofLeBytes_leBytes, Nat.mod_eq_of_lt (by simpa using n.toNat_lt), UInt16.ofNat_toNat]

theorem q4kBlock_bytes (h : b.Spliced) : (q4kBlock b.bytes : List φ) = b.values := by
  have hd : le16 (b.bytes[0]?.getD 0) (b.bytes[1]?.getD 0) = b.d := le16_leBytes b.d
  have hdmin : le16 (b.bytes[2]?.getD 0) (b.bytes[3]?.getD 0) = b.dmin := le16_leBytes b.dmin
  have hscales : (b.bytes.take 16).drop 4 = b.scaleBytes := rfl
  have hqs : (b.bytes.take 144).drop 16 = (range 128).map fun j => pair (b.nibble (2 * j)) (b.nibble (2 * j + 1)) := rfl
  have hfields : b.fields.zipIdx = (range 8).map fun i => ((⟨(b.scale i).setWidth 8⟩, ⟨(b.min i).setWidth 8⟩), i) := rfl
  have hwide (x : BitVec 6) : (⟨x.setWidth 8⟩ : UInt8).toNat = x.toNat := BitVec.toNat_setWidth_of_le (by decide)
  simp only [q4kBlock, hd, hdmin, hscales, hqs, unpack_scaleBytes h, hfields, flatMap_map, values, hwide]
  refine flatMap_congr fun sub' hsub => ?_
  have hsub := mem_range.mp hsub
  have hpairs := flatMap_pairs (fun i => F32.sub (mul (mul (f16ToF32 b.d) (ofInt (b.scale sub').toNat))
    (ofInt (b.nibble (sub' * 32 + i)).toNat)) (mul (f16ToF32 b.dmin) (ofInt (b.min sub').toNat)) : Nat → φ) 16
  refine Eq.trans (flatMap_congr fun i hi => ?_) hpairs
  have hi := mem_range.mp hi
  have hbyte : (((range 128).map fun j => pair (b.nibble (2 * j)) (b.nibble (2 * j + 1))).drop (sub' * 16))[i]?.getD 0 =
      pair (b.nibble (sub' * 32 + 2 * i)) (b.nibble (sub' * 32 + (2 * i + 1))) := by
    rw [getElem?_drop, getElem?_map, getElem?_range (by omega)]
    simp only [Option.map_some, Option.getD_some]
    congr 2 <;> ring
  rw [hbyte]
  dsimp only
  rw [pair_and, pair_shift]

end Q4kBlock

theorem representable_iff (blocks : List Q4kBlock) : Representable blocks ↔ ∀ b ∈ blocks, b.Spliced := by
  refine ⟨fun h b hb => Q4kBlock.spliced_iff.mpr (h.right b hb), fun h => ⟨⟨blocks.flatMap Q4kBlock.bytes, ?_, ?_⟩,
    fun b hb => Q4kBlock.spliced_iff.mp (h b hb)⟩⟩
  case refine_1 => simp [Q4kBlock.length_bytes]
  case refine_2 =>
    intro φ _ out ho
    have hlen : blocks.length * GgmlType.q4K.stride ≤ (blocks.flatMap Q4kBlock.bytes).length := by
      simp [Q4kBlock.length_bytes, GgmlType.stride, GgmlType.blockBytes]
    have hrow : (dequantRow .q4K (blocks.flatMap Q4kBlock.bytes) out : Eff Unit Empty (List φ)) = _ :=
      dequantRow_eq (by decide) hlen ho
    rw [dequantRow] at hrow
    rw [hrow]
    congr 1
    conv_rhs => rw [← zipIdx_map_fst 0 blocks, flatMap_map]
    rw [range_eq_range', ← zipIdx_map_snd 0 blocks, flatMap_map]
    refine flatMap_congr fun p hb => ?_
    obtain ⟨b, i⟩ := p
    have hget : blocks[i]? = some b := mk_mem_zipIdx_iff_getElem?.mp hb
    have hpart : (blocks.flatMap Q4kBlock.bytes).part GgmlType.q4K.stride i = b.bytes :=
      part_flatMap (fun _ => Q4kBlock.length_bytes) hget
    rw [hpart]
    exact Q4kBlock.q4kBlock_bytes (h b (mem_of_getElem? hget))

-- Numbers of which the scales can be told, as each part has all nibbles.
section Steep

def steep : Q4kBlock :=
  ⟨1, 0, fun i => if i = 1 then 63 else 1, fun _ => 0, BitVec.ofNat 4⟩

theorem mem_nibbles {bytes : List UInt8} {f : Int → α} (h : a ∈ nibbles bytes f) : ∃ q : ℕ, q < 16 ∧ a = f q := by
  have ⟨i, _, ha⟩ := mem_flatMap.mp h
  have hlt (x : UInt8) : (x &&& 0x0F).toNat < 16 := by
    rw [UInt8.toNat_and]
    exact Nat.lt_succ_of_le Nat.and_le_right
  rcases mem_pair.mp ha with rfl | rfl
  case inl => exact ⟨_, hlt _, rfl⟩
  case inr => exact ⟨_, hlt _, rfl⟩

theorem mem_part_q4kBlock {φ : Type} [F32 φ] {block : List UInt8} {sub' : Nat} {sc mn : UInt8} {a : φ}
    (hget : (unpackQ4kScales ((block.take 16).drop 4))[sub']? = some (sc, mn)) (ha : a ∈ (q4kBlock block).part 32 sub') :
    ∃ q : ℕ, q < 16 ∧ a = F32.sub (mul (mul (f16ToF32 (le16 (block[0]?.getD 0) (block[1]?.getD 0))) (ofInt sc.toNat)) (ofInt q))
      (mul (f16ToF32 (le16 (block[2]?.getD 0) (block[3]?.getD 0))) (ofInt mn.toNat)) := by
  have hzip : (unpackQ4kScales ((block.take 16).drop 4)).zipIdx[sub']? = some ((sc, mn), sub') := by
    simp [getElem?_zipIdx, hget]
  rw [q4kBlock, part_flatMap (fun _ => length_nibbles) hzip] at ha
  exact mem_nibbles ha

theorem mem_part_steep {φ : Type} [F32 φ] {sub' q : Nat} (hs : sub' < 8) (hq : q < 16) :
    (F32.sub (mul (mul (f16ToF32 1) (ofInt (steep.scale sub').toNat)) (ofInt q)) (mul (f16ToF32 0) (ofInt 0)) : φ) ∈
      steep.values.part 32 sub' := by
  rw [Q4kBlock.values, part_flatMap (fun _ => by simp) (getElem?_range hs)]
  refine mem_map.mpr ⟨q, mem_range.mpr (by omega), ?_⟩
  have hnibble : (steep.nibble (sub' * 32 + q)).toNat = q := by
    change (sub' * 32 + q) % 16 = q
    omega
  rw [hnibble]
  rfl

-- A grid of sixteen numbers that goes over another one has the same step.
theorem abs_eq_of_grid {a b m : ℝ} (ha : 0 < a) (h : ∀ q : ℕ, q < 16 → ∃ p : ℕ, p < 16 ∧ a * q = b * p - m) : |b| = a := by
  have ⟨p, hp, h₀⟩ := h 0 (by omega)
  have ⟨p₁, hp₁, h₁⟩ := h 1 (by omega)
  have ⟨p₁₅, hp₁₅, h₁₅⟩ := h 15 (by omega)
  have hb : b ≠ 0 := by
    rintro rfl
    push_cast at h₀ h₁
    linarith
  have hreal : ((p₁₅ : ℤ) - p : ℝ) = (15 * ((p₁ : ℤ) - p) : ℝ) := by
    push_cast at h₀ h₁ h₁₅ ⊢
    exact mul_left_cancel₀ hb (by linarith)
  have hint : (p₁₅ : ℤ) - p = 15 * ((p₁ : ℤ) - p) := by exact_mod_cast hreal
  have hstep : (p₁ : ℤ) = p + 1 ∨ (p₁ : ℤ) + 1 = p ∨ (p₁ : ℤ) = p := by omega
  rcases hstep with hstep | hstep | hstep
  all_goals
    have hcast : (_ : ℝ) = _ := congrArg (Int.cast : ℤ → ℝ) hstep
    push_cast at h₀ h₁ hcast
  case inl =>
    have heq : b = a := by rw [hcast] at h₁; linarith
    rw [heq, abs_of_pos ha]
  case inr.inl =>
    have heq : b = -a := by rw [← hcast] at h₀; linarith
    rw [heq, abs_neg, abs_of_pos ha]
  case inr.inr =>
    rw [hcast] at h₁
    linarith

theorem exists_real [ExactFunctions] (bits : UInt16) : ∃ x, (f16ToF32 bits : Exact) = .real x := by
  unfold f16ToF32
  dsimp only
  split_ifs <;> exact ⟨_, rfl⟩

theorem abs_mul_scale [ExactFunctions] {block : List UInt8} (h : (q4kBlock block : List Exact) = steep.values) :
    ∃ d : ℝ, ∀ sub' < 8, ∀ sc mn, (unpackQ4kScales ((block.take 16).drop 4))[sub']? = some (sc, mn) →
      d * sc.toNat = 1 / 2 ^ 24 * (steep.scale sub').toNat := by
  have ⟨d, hd⟩ := exists_real (le16 (block[0]?.getD 0) (block[1]?.getD 0))
  have ⟨dmin, hdmin⟩ := exists_real (le16 (block[2]?.getD 0) (block[3]?.getD 0))
  refine ⟨|d|, fun sub' hs sc mn hget => ?_⟩
  have hpos : (0 : ℝ) < (steep.scale sub').toNat := by
    rw [Nat.cast_pos]
    interval_cases sub' <;> decide
  have habs : |d * sc.toNat| = 1 / 2 ^ 24 * (steep.scale sub').toNat := by
    refine abs_eq_of_grid (m := dmin * mn.toNat) (by positivity) fun q hq => ?_
    have ⟨p, hp, heq⟩ := mem_part_q4kBlock hget (h ▸ mem_part_steep hs hq)
    simp [hd, hdmin, GgmlType.f16ToF32_zero, GgmlType.f16ToF32_one, mul, div, ofInt, one, F32.sub, Exact.map₂] at heq
    refine ⟨p, hp, Eq.trans ?_ heq⟩
    norm_num
  rwa [abs_mul, Nat.abs_cast] at habs

-- The scale of the part 4 has its lowest bit in the scale of the part 0.
theorem not_scales_one {a c : BitVec 8} (h : (lowScale a c).toNat = 1) (h' : (highScale c).toNat = 1) : False := by
  have hone {x : BitVec 8} (hx : x.toNat = 1) (i : Nat) : x.getLsbD i = (1#8).getLsbD i :=
    congrArg (BitVec.getLsbD · i) (BitVec.eq_of_toNat_eq (y := 1#8) hx)
  have hlow := hone h 4
  have hhigh := hone h' 0
  simp [lowScale, highScale] at hlow hhigh
  simp [hhigh] at hlow

theorem q4kBlock_ne_steep [ExactFunctions] (block : List UInt8) : (q4kBlock block : List Exact) ≠ steep.values := by
  intro h
  have ⟨d, hd⟩ := abs_mul_scale h
  generalize (block.take 16).drop 4 = bytes at hd
  let byte (i : Nat) : BitVec 8 := (bytes[i]?.getD 0).toBitVec
  have h₀ : d * (lowScale (byte 0) (byte 8)).toNat = 1 / 2 ^ 24 * (1 : ℕ) := hd 0 (by omega) ⟨_⟩ _ rfl
  have h₁ : d * (lowScale (byte 1) (byte 9)).toNat = 1 / 2 ^ 24 * (63 : ℕ) := hd 1 (by omega) ⟨_⟩ _ rfl
  have h₄ : d * (highScale (byte 8)).toNat = 1 / 2 ^ 24 * (1 : ℕ) := hd 4 (by omega) ⟨_⟩ _ rfl
  have hne : d ≠ 0 := by
    rintro rfl
    norm_num at h₀
  have hbound : (lowScale (byte 1) (byte 9)).toNat ≤ 63 := by
    rw [lowScale, BitVec.toNat_and]
    exact Nat.and_le_right
  -- The scale 1 is 63 times the scale 0, which leaves only 1 for this one.
  have h₁₀ : (lowScale (byte 1) (byte 9)).toNat = 63 * (lowScale (byte 0) (byte 8)).toNat := by
    have hreal : ((lowScale (byte 1) (byte 9)).toNat : ℝ) = 63 * (lowScale (byte 0) (byte 8)).toNat :=
      mul_left_cancel₀ hne (by push_cast at h₀ h₁; linarith)
    exact_mod_cast hreal
  have h₄₀ : (highScale (byte 8)).toNat = (lowScale (byte 0) (byte 8)).toNat := by
    have hreal : ((highScale (byte 8)).toNat : ℝ) = (lowScale (byte 0) (byte 8)).toNat := mul_left_cancel₀ hne (h₄.trans h₀.symm)
    exact_mod_cast hreal
  have hpos : (lowScale (byte 0) (byte 8)).toNat ≠ 0 := by
    intro hzero
    rw [hzero] at h₀
    norm_num at h₀
  have hone : (lowScale (byte 0) (byte 8)).toNat = 1 := by omega
  exact not_scales_one hone (h₄₀.trans hone)

end Steep

-- A scale of which bits are ored to another one. In exact arithmetic there are no bytes for the numbers of this block, either.
theorem exists_not_representable : ∃ blocks, ¬Representable blocks ∧
    ∀ (_ : ExactFunctions) (data : List UInt8) (out : List Exact), data.length = blocks.length * 144 →
      out.length = blocks.length * 256 → (dequantQ4kRow data out : Eff Unit Empty (List Exact)) ≠
        pure (blocks.flatMap Q4kBlock.values) := by
  refine ⟨[steep], fun h => absurd (Q4kBlock.spliced_iff.mpr (h.right _ mem_cons_self)) (by decide), ?_⟩
  intro _ data out hdata hout h
  have hrow : (dequantRow .q4K data out : Eff Unit Empty (List Exact)) = _ :=
    dequantRow_eq (n := 1) (by decide) (by rw [hdata]; decide) hout
  rw [dequantRow, h] at hrow
  have hvalues := Except.ok.inj (Prod.mk.inj (congrFun hrow ())).left
  rw [flatMap_singleton, range_one, flatMap_singleton] at hvalues
  exact q4kBlock_ne_steep _ hvalues.symm
