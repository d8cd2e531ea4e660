import VeloCore.Objects.Backend.LlamaForward
import VeloCore.Primitives.Fills
import VeloCore.Primitives.Parts

open List F32 Eff

namespace GgmlType

-- The formats that `dequant_row` does not fill with zeros for
def Decoded (t : GgmlType) : Prop :=
  t ∈ [f32, f16, bf16, q4_0, q4_1, q4K]

instance : DecidablePred Decoded := fun _ =>
  inferInstanceAs (Decidable (_ ∈ _))

-- The bytes from one block to the next that the decoder goes on by
def stride : GgmlType → Nat
  | q4_1 => 18
  | t    => t.blockBytes

end GgmlType

-- The two numbers of each of the first 16 bytes
def nibbles (bytes : List UInt8) (f : Int → α) : List α :=
  (range 16).flatMap fun i =>
    let byte : UInt8 := bytes[i]?.getD 0
    [f (byte &&& 0x0F).toNat, f (byte >>> 4 &&& 0x0F).toNat]

section Blocks

variable {φ : Type} [F32 φ]

def q4_0Block (block : List UInt8) : List φ :=
  let delta := f16ToF32 (le16 (block[0]?.getD 0) (block[1]?.getD 0))
  nibbles ((block.take 18).drop 2) fun n => mul delta (ofInt (n - 8))

def q4kBlock (block : List UInt8) : List φ :=
  let d := f16ToF32 (le16 (block[0]?.getD 0) (block[1]?.getD 0))
  let dmin := f16ToF32 (le16 (block[2]?.getD 0) (block[3]?.getD 0))
  let qs := (block.take 144).drop 16
  (unpackQ4kScales ((block.take 16).drop 4)).zipIdx.flatMap fun ((sc, mnSc), sub') =>
    nibbles (qs.drop (sub' * 16)) fun n => F32.sub (mul (mul d (ofInt sc.toNat)) (ofInt n)) (mul dmin (ofInt mnSc.toNat))

-- The numbers of one block
def GgmlType.decodeBlock (block : List UInt8) : GgmlType → List φ
  | f32         => [ofBits (.ofNat (ofLeBytes block))]
  | f16         => [f16ToF32 (.ofNat (ofLeBytes block))]
  | bf16        => [bf16ToF32 (.ofNat (ofLeBytes block))]
  | q4_0 | q4_1 => q4_0Block block
  | q4K         => q4kBlock block
  | _           => []

end Blocks

section Rows

variable {φ σ ε : Type} {block data : List UInt8} {out : List φ} {base n : Nat} {f : Int → φ}

theorem slice_part {l : List α} {n i k : Nat} (h : k * n ≤ l.length) (hi : i < k) :
    (Eff.slice l (i * n) ((i + 1) * n) : Eff σ ε (List α)) = pure (l.part n i) :=
  slice_eq (Nat.mul_le_mul_right n i.le_succ) ((Nat.mul_le_mul_right n hi).trans h)

@[simp]
theorem length_nibbles {bytes : List UInt8} : (nibbles bytes f).length = 32 := by
  simp [nibbles]

-- The two writes for each of 16 bytes
theorem fills_nibbles (bytes : List UInt8) (f : Int → φ) (off : Nat) (h : off + 16 ≤ bytes.length) (base : Nat) :
    Fills base (nibbles (bytes.drop off) f) (Eff.forEach (fun out i => do
      let byte ← Eff.index bytes (off + i)
      let out ← Eff.put out (base + i * 2) (f (byte &&& 0x0F).toNat)
      Eff.put out (base + (i * 2 + 1)) (f (byte >>> 4 &&& 0x0F).toNat) : List φ → Nat → Eff σ ε (List φ)) (range 16)) := by
  refine Fills.forEach (w := 2) fun j i hj => ⟨rfl, ?_⟩
  have ⟨hlt, hi⟩ := List.getElem?_eq_some_iff.mp hj
  rw [getElem_range] at hi
  subst hi
  rw [length_range] at hlt
  have hbyte : (bytes.drop off)[j]?.getD 0 = bytes[off + j] := by
    rw [getElem?_drop, getElem?_eq_getElem (by omega), Option.getD_some]
  rw [hbyte, index_eq (by omega)]
  simp only [pure_bind]
  exact Fills.put.bind (c := [_]) Fills.put

variable [F32 φ]

theorem fills_q4_0Block (h : block.length = 18) :
    Fills base (q4_0Block block) (dequantQ4_0Block block base : List φ → Eff σ ε (List φ)) := by
  have h₀ : (Eff.index block 0 : Eff σ ε UInt8) = pure (block[0]?.getD 0) := by rw [index_eq (by omega)]; simp [h]
  have h₁ : (Eff.index block 1 : Eff σ ε UInt8) = pure (block[1]?.getD 0) := by rw [index_eq (by omega)]; simp [h]
  have hn : ((block.take 18).drop 2).length = 16 := by simp [h]
  have hfill : Fills base _ (_ : List φ → Eff σ ε (List φ)) := fills_nibbles ((block.take 18).drop 2)
    (fun n => mul (f16ToF32 (le16 (block[0]?.getD 0) (block[1]?.getD 0))) (ofInt (n - 8))) 0 (by omega) base
  intro out hout
  rw [dequantQ4_0Block, h₀, h₁, slice_eq (by omega) (by omega)]
  simp only [pure_bind]
  simpa [q4_0Block] using hfill out hout

theorem fills_q4kBlock (h : block.length = 144) :
    Fills base (q4kBlock block) (dequantQ4kBlock block base : List φ → Eff σ ε (List φ)) := by
  have hget {i : Nat} (hi : i < 144) : (Eff.index block i : Eff σ ε UInt8) = pure (block[i]?.getD 0) := by
    rw [index_eq (by omega), getElem?_eq_getElem (by omega), Option.getD_some]
  intro out hout
  rw [dequantQ4kBlock, hget (by omega), hget (by omega), hget (by omega), hget (by omega), slice_eq (by omega) (by omega),
    slice_eq (by omega) (by omega)]
  simp only [pure_bind]
  refine (Fills.forEach (w := 32) fun j part hj => ?_) out hout
  obtain ⟨⟨sc, mnSc⟩, sub'⟩ := part
  rw [getElem?_zipIdx, Option.map_eq_some_iff] at hj
  have ⟨_, hpart, heq⟩ := hj
  cases heq
  have hlt : j < 8 := (List.getElem?_eq_some_iff.mp hpart).1
  refine ⟨length_nibbles, ?_⟩
  have hfill := fills_nibbles (σ := σ) (ε := ε) ((block.take 144).drop 16) (fun n => F32.sub (mul (mul
    (f16ToF32 (le16 (block[0]?.getD 0) (block[1]?.getD 0))) (ofInt sc.toNat)) (ofInt n)) (mul
    (f16ToF32 (le16 (block[2]?.getD 0) (block[3]?.getD 0))) (ofInt mnSc.toNat)) : Int → φ) (j * 16)
    (by simp [h]; omega) (base + j * 32)
  simpa only [Nat.zero_add, Nat.add_assoc] using hfill

@[simp]
theorem length_q4_0Block : (q4_0Block block : List φ).length = 32 := by
  simp [q4_0Block]

@[simp]
theorem length_q4kBlock : (q4kBlock block : List φ).length = 256 := by
  simp [q4kBlock, unpackQ4kScales]

omit [F32 φ] in
-- The loop of a row over its blocks
theorem forEach_blocks {decode : List UInt8 → List φ} {f : List UInt8 → Nat → List φ → Eff σ ε (List φ)} {s e : Nat}
    (hf : ∀ {block base}, block.length = s → Fills base (decode block) (f block base))
    (he : ∀ {block}, (decode block).length = e) (hd : n * s ≤ data.length) (ho : out.length = n * e) :
    Eff.forEach (fun out b => do
      let block ← Eff.slice data (b * s) ((b + 1) * s)
      f block (b * e) out) (range n) out = pure ((range n).flatMap fun b => decode (data.part s b)) := by
  refine Fills.eq_pure (Fills.forEach (w := e) fun j b hj => ⟨he, ?_⟩) (by simp [he, ho])
  have ⟨hlt, hb⟩ := List.getElem?_eq_some_iff.mp hj
  rw [getElem_range] at hb
  subst hb
  rw [length_range] at hlt
  rw [slice_part hd hlt]
  simp only [pure_bind, Nat.zero_add]
  exact hf (length_part hd hlt)

omit [F32 φ] in
theorem zipMut_const (g : List UInt8 → φ) {chunks : List (List UInt8)} (h : out.length ≤ chunks.length) :
    zipMut (fun _ chunk => g chunk) out chunks = (chunks.take out.length).map g := by
  induction out generalizing chunks
  case nil => simp [zipMut]
  case cons x out hi =>
    cases chunks
    case nil          => simp at h
    case cons c chunks => simp [zipMut, hi (Nat.le_of_succ_le_succ h)]

omit [F32 φ] in
theorem zipMut_chunksExact (g : List UInt8 → φ) (hpos : 0 < s) (hd : n * s ≤ data.length) (ho : out.length = n * 1) :
    zipMut (fun _ chunk => g chunk) out (chunksExact s data) = (range n).flatMap fun b => [g (data.part s b)] := by
  have hle : n ≤ data.length / s := (Nat.le_div_iff_mul_le hpos).mpr hd
  have hchunk (b : Nat) : (data.drop (b * s)).take s = data.part s b := by
    rw [List.part, drop_take, Nat.succ_mul, Nat.add_sub_cancel_left]
  rw [zipMut_const _ (by simpa [chunksExact, ho] using hle), chunksExact, ho, Nat.mul_one, ← map_take, take_range,
    Nat.min_eq_left hle, map_map, map_eq_flatMap]
  simp [hchunk]

-- What a row of `n` blocks is decoded to
theorem dequantRow_eq {t : GgmlType} (ht : t.Decoded) (hd : n * t.stride ≤ data.length) (ho : out.length = n * t.blockElems) :
    (dequantRow t data out : Eff σ ε (List φ)) = pure ((range n).flatMap fun b => t.decodeBlock (data.part t.stride b)) := by
  cases t <;> first | exact absurd ht (by decide) | skip
  case f32  => exact congrArg pure (zipMut_chunksExact _ (by decide) hd ho)
  case f16  => exact congrArg pure (zipMut_chunksExact _ (by decide) hd ho)
  case bf16 => exact congrArg pure (zipMut_chunksExact _ (by decide) hd ho)
  case q4_0 =>
    have hn : out.length / 32 = n := by rw [ho]; exact Nat.mul_div_cancel n (by decide)
    rw [dequantRow, dequantQ4_0Row, hn]
    exact forEach_blocks fills_q4_0Block length_q4_0Block hd ho
  case q4_1 =>
    have hn : out.length / 32 = n := by rw [ho]; exact Nat.mul_div_cancel n (by decide)
    rw [dequantRow, dequantQ4_0Row, hn]
    exact forEach_blocks fills_q4_0Block length_q4_0Block hd ho
  case q4K =>
    have hn : out.length / 256 = n := by rw [ho]; exact Nat.mul_div_cancel n (by decide)
    rw [dequantRow, dequantQ4kRow, hn]
    exact forEach_blocks fills_q4kBlock length_q4kBlock hd ho

end Rows
