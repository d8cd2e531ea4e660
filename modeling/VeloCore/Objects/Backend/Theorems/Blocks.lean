import VeloCore.Objects.Backend.Blocks
import VeloCore.Objects.Backend.Exact

open List F32 Eff

namespace GgmlType

variable {t : GgmlType} {n : Nat}

-- Each block of a row is decoded from the bytes of the block alone, and whatever was in its place is written to.
def BlockLocal (t : GgmlType) (n : Nat) : Prop :=
  ∀ (φ : Type) [F32 φ] (data data' : List UInt8) (out out' : List φ),
    data.length = t.rowBytes (n * t.blockElems) → data'.length = t.rowBytes (n * t.blockElems) →
    out.length = n * t.blockElems → out'.length = n * t.blockElems →
      ∃ row row', (dequantRow t data out : Eff Unit Empty (List φ)) = pure row ∧
        (dequantRow t data' out' : Eff Unit Empty (List φ)) = pure row' ∧ row.length = n * t.blockElems ∧
          ∀ b < n, data.part t.blockBytes b = data'.part t.blockBytes b → row.part t.blockElems b = row'.part t.blockElems b

theorem rowBytes_mul (t : GgmlType) (n : Nat) : t.rowBytes (n * t.blockElems) = n * t.blockBytes := by
  have hpos : 0 < t.blockElems := by cases t <;> decide
  have hdiv : divCeil (n * t.blockElems) t.blockElems = n := by
    rw [divCeil, Nat.add_sub_assoc hpos, Nat.add_comm, Nat.add_mul_div_right _ _ hpos,
      Nat.div_eq_of_lt (Nat.sub_lt hpos Nat.one_pos), Nat.zero_add]
  rw [rowBytes, hdiv]

theorem stride_le (t : GgmlType) : t.stride ≤ t.blockBytes := by
  cases t <;> decide

theorem length_decodeBlock {φ : Type} [F32 φ] {block : List UInt8} (ht : t.Decoded) :
    (t.decodeBlock block : List φ).length = t.blockElems := by
  cases t <;> first | exact absurd ht (by decide) | simp [decodeBlock, blockElems]

theorem blockLocal_of (ht : t.Decoded) (h : t ≠ .q4_1 ∨ n ≤ 1) : t.BlockLocal n := by
  intro φ _ data data' out out' hd hd' ho ho'
  rw [rowBytes_mul] at hd hd'
  have hle := Nat.mul_le_mul_left n t.stride_le
  refine ⟨_, _, dequantRow_eq ht (hd ▸ hle) ho, dequantRow_eq ht (hd' ▸ hle) ho', ?_, fun b hb hsame => ?_⟩
  case refine_1 => simp [length_decodeBlock ht]
  case refine_2 =>
    have hget : (range n)[b]? = some b := getElem?_range hb
    rw [part_flatMap (fun _ => length_decodeBlock ht) hget, part_flatMap (fun _ => length_decodeBlock ht) hget]
    congr 1
    rcases h with hne | hone
    case inl =>
      have hs : t.stride = t.blockBytes := by cases t <;> first | contradiction | rfl
      rw [hs, hsame]
    case inr =>
      -- The bytes that the only block is decoded from are some of its own.
      have h0 : b = 0 := by omega
      subst h0
      have htake := congrArg (take t.stride) hsame
      simpa [List.part, take_take, Nat.min_eq_left t.stride_le] using htake

theorem getElem?_q4_0Block {φ : Type} [F32 φ] {block : List UInt8} : (q4_0Block block : List φ)[0]? =
    some (mul (f16ToF32 (le16 (block[0]?.getD 0) (block[1]?.getD 0)))
      (ofInt ((((block.take 18).drop 2)[0]?.getD 0 &&& 0x0F).toNat - 8))) :=
  rfl

-- The two smallest numbers that are not negative
theorem f16ToF32_zero {φ : Type} [F32 φ] : (f16ToF32 0 : φ) = mul (ofInt 0) (div one (ofInt (2 ^ 24))) :=
  rfl

theorem f16ToF32_one {φ : Type} [F32 φ] : (f16ToF32 1 : φ) = mul (ofInt 1) (div one (ofInt (2 ^ 24))) :=
  rfl

-- The second block as it is decoded starts with the last two bytes of the first one.
theorem not_blockLocal (hn : 2 ≤ n) : ¬q4_1.BlockLocal n := by
  intro h
  have := realFunctions
  let data (x : UInt8) : List UInt8 := replicate 18 0 ++ x :: replicate (n * 20 - 19) 0
  have hlen (x : UInt8) : (data x).length = q4_1.rowBytes (n * q4_1.blockElems) := by
    simp only [data, rowBytes_mul, length_append, length_replicate, length_cons, blockBytes]
    omega
  have hout : (replicate (n * 32) (zero : Exact)).length = n * q4_1.blockElems := length_replicate
  have ⟨row, row', hrow, hrow', _, hb⟩ := h Exact (data 0) (data 1) _ _ (hlen 0) (hlen 1) hout hout
  have hle : n * q4_1.stride ≤ q4_1.rowBytes (n * q4_1.blockElems) := by
    rw [rowBytes_mul]
    exact Nat.mul_le_mul_left n q4_1.stride_le
  have hq : q4_1.Decoded := by decide
  rw [dequantRow_eq hq (hlen 0 ▸ hle) hout] at hrow
  rw [dequantRow_eq hq (hlen 1 ▸ hle) hout] at hrow'
  cases (Prod.mk.inj (congrFun hrow ())).left
  cases (Prod.mk.inj (congrFun hrow' ())).left
  have hown (x : UInt8) : (data x).part q4_1.blockBytes 1 = (replicate (n * 20 - 20) 0).take 20 := by
    have hdrop : (data x).drop 20 = replicate (n * 20 - 20) 0 := by simp [data]; omega
    rw [List.part, drop_take]
    exact congrArg (take 20) hdrop
  have hread (x : UInt8) : (data x).part q4_1.stride 1 = x :: replicate 17 0 := by
    have hdrop : (data x).drop 18 = x :: replicate (n * 20 - 19) 0 := drop_left' length_replicate
    rw [List.part, drop_take]
    refine (congrArg (take 18) hdrop).trans ?_
    rw [take_succ_cons, take_replicate, Nat.min_eq_left (by omega)]
  have hsame := hb 1 hn ((hown 0).trans (hown 1).symm)
  have hget : (range n)[1]? = some 1 := getElem?_range hn
  rw [part_flatMap (fun _ => length_decodeBlock hq) hget, part_flatMap (fun _ => length_decodeBlock hq) hget, hread, hread]
    at hsame
  have hfirst := congrArg (·[0]?) hsame
  simp only [decodeBlock, getElem?_q4_0Block] at hfirst
  have hle16 : le16 0 0 = 0 ∧ le16 1 0 = 1 := by decide
  simp only [getElem?_cons_zero, Option.getD_some, getElem?_cons_succ, getElem?_replicate] at hfirst
  simp [hle16, f16ToF32_zero, f16ToF32_one, mul, div, ofInt, one, Exact.map₂] at hfirst

-- The blocks of this format are of 20 bytes, and are decoded as if they were of 18.
theorem blockLocal_iff (t : GgmlType) (ht : t.Decoded) (n : Nat) : t.BlockLocal n ↔ t ≠ .q4_1 ∨ n ≤ 1 := by
  refine ⟨fun h => ?_, blockLocal_of ht⟩
  by_contra hn
  push Not at hn
  exact not_blockLocal (Nat.succ_le_of_lt hn.right) (hn.left ▸ h)

theorem blockLocal_q4K : q4K.BlockLocal 2 :=
  (blockLocal_iff q4K (by decide) 2).mpr (.inl (by decide))

-- A row of two blocks
theorem exists_not_blockLocal : ∃ t n, Decoded t ∧ ¬t.BlockLocal n :=
  ⟨q4_1, 2, by decide, not_blockLocal (Nat.le_refl 2)⟩

end GgmlType
