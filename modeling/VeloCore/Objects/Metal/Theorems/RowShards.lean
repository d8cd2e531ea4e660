import VeloCore.Objects.Backend.Theorems.Blocks
import VeloCore.Objects.Backend.Theorems.LlamaForward
import VeloCore.Objects.Metal.Theorems.Sharding

open List F32 Eff

section Rows

variable {φ σ ε : Type} [F32 φ] {data : List UInt8} {out : List φ}

-- Of a row that ends inside of a super-block, the rest is left as it is.
theorem dequantQ4kRow_eq (hd : out.length / 256 * 144 ≤ data.length) : (dequantQ4kRow data out : Eff σ ε (List φ)) =
    pure ((range (out.length / 256)).flatMap (fun b => q4kBlock (data.part 144 b)) ++ out.drop (out.length / 256 * 256)) := by
  have hlen : ((range (out.length / 256)).flatMap fun b => (q4kBlock (data.part 144 b) : List φ)).length =
      out.length / 256 * 256 := by simp
  have hfill : Fills 0 ((range (out.length / 256)).flatMap fun b => (q4kBlock (data.part 144 b) : List φ))
      (fun out' => (Eff.forEach (fun out b => do
        let block ← Eff.slice data (b * 144) ((b + 1) * 144)
        dequantQ4kBlock block (b * 256) out) (range (out.length / 256)) out' : Eff σ ε (List φ))) := by
    refine Fills.forEach (w := 256) fun j b hj => ⟨length_q4kBlock, ?_⟩
    have ⟨hlt, hb⟩ := List.getElem?_eq_some_iff.mp hj
    rw [getElem_range] at hb
    subst hb
    rw [length_range] at hlt
    rw [slice_part hd hlt]
    simp only [pure_bind, Nat.zero_add]
    exact fills_q4kBlock (length_part hd hlt)
  refine (hfill out (by rw [hlen]; omega)).trans ?_
  rw [overwrite, hlen, take_zero, nil_append, Nat.zero_add]

theorem dequantRow_returns {t : GgmlType} {cols : Nat} (hd : data.length = t.rowBytes cols) :
    ∃ row, (dequantRow t data (replicate cols zero) : Eff Unit Empty (List φ)) () = (.ok row, ()) ∧ row.length = cols := by
  have hguard : Guarded (fun _ : Unit => True) True (fun b => b.length = (replicate cols (zero : φ)).length)
      (dequantRow t data (replicate cols zero) : Eff Unit Empty (List φ)) :=
    dequantRow_guarded (by rw [length_replicate]; exact hd)
  have ⟨row, _, hrow, hlen, _⟩ := (hguard () trivial).left trivial
  exact ⟨row, hrow, hlen.trans length_replicate⟩

end Rows

namespace GgmlType

variable {t : GgmlType} {d n cols : Nat}

theorem blockElems_pos (t : GgmlType) : 0 < t.blockElems := by
  cases t <;> decide

theorem le_divCeil_mul {b : Nat} (hb : 0 < b) (n : Nat) : n ≤ divCeil n b * b := by
  have hlt := Nat.lt_div_mul_add (a := n + b - 1) hb
  rw [divCeil]
  omega

-- Parts of a row are never of fewer blocks together.
theorem rowBytes_mul_le (t : GgmlType) (d n : Nat) : t.rowBytes (d * n) ≤ d * t.rowBytes n := by
  have hpos := t.blockElems_pos
  have hle := Nat.mul_le_mul_left d (le_divCeil_mul hpos n)
  have hdiv : divCeil (d * n) t.blockElems ≤ d * divCeil n t.blockElems := by
    rw [divCeil, Nat.div_le_iff_le_mul_add_pred hpos]
    rw [← Nat.mul_assoc, Nat.mul_comm _ t.blockElems] at hle
    omega
  rw [rowBytes, rowBytes, ← Nat.mul_assoc]
  exact Nat.mul_le_mul_right _ hdiv

end GgmlType

namespace Sharding

section Ranks

variable {name : String} {data : List UInt8} {quant : Quantization} {d rank cols rows : Nat} {w : ShardedWeight}

theorem accepted_of_shardRow (h : shardRow name data [cols, rows] quant d rank = .ok w) : Accepted quant rows cols d :=
  (shardRow_eq_ok h).left

theorem length_shardRow {rowLen : Nat} (hlen : data.length = rows * rowLen) (hrank : rank < d)
    (h : shardRow name data [cols, rows] quant d rank = .ok w) : w.data.length = rows * (rowLen / d) := by
  have ⟨⟨_, _, hrows, _⟩, hw⟩ := shardRow_eq_ok h
  have hrows : 0 < rows := Nat.pos_of_ne_zero hrows
  simp only [head?_cons, Option.getD_some, hlen, Nat.mul_div_cancel_left _ hrows] at hw
  have hslices : ∀ r ∈ range rows, ((data.drop (r * rowLen + rank * (rowLen / d))).take (rowLen / d)).length = rowLen / d :=
    fun r hr => by
      have hle := slice_le hlen hrank (mem_range.mp hr)
      rw [length_take, length_drop]
      omega
  rw [hw, length_flatMap_of hslices, length_range]

end Ranks

section Decoding

variable {φ : Type} [F32 φ] {R : List UInt8} {t : GgmlType} {d n m rank cols : Nat}

-- What is decoded from whole blocks is in parts as their bytes are.
theorem dequantRow_part (ht : t.Decoded) (hstride : t.stride = t.blockBytes) (hR : R.length = d * (n * t.blockBytes))
    (hrank : rank < d) : ∃ row : List φ,
      (dequantRow t R (replicate (d * (n * t.blockElems)) zero) : Eff Unit Empty (List φ)) = pure row ∧
        (dequantRow t (R.part (n * t.blockBytes) rank) (replicate (n * t.blockElems) zero) : Eff Unit Empty (List φ)) =
          pure (row.part (n * t.blockElems) rank) := by
  have hpart : (R.part (n * t.blockBytes) rank).length = n * t.blockBytes := length_part hR.ge hrank
  refine ⟨_, dequantRow_eq (n := d * n) ht (by rw [hR, hstride, Nat.mul_assoc]) (by rw [length_replicate, Nat.mul_assoc]), ?_⟩
  rw [dequantRow_eq (n := n) ht (by rw [hpart, hstride]) length_replicate, range_mul_eq, flatMap_assoc]
  have hlen (k : Nat) : (((range n).map fun i => k * n + i).flatMap fun b => (t.decodeBlock (R.part t.stride b) : List φ)).length =
      n * t.blockElems := by
    rw [length_flatMap_of fun _ _ => GgmlType.length_decodeBlock ht, length_map, length_range]
  rw [part_flatMap hlen (getElem?_range hrank), flatMap_map]
  refine congrArg pure (flatMap_congr fun b hb => ?_)
  rw [hstride, part_part R (mem_range.mp hb)]

end Decoding

-- Each row of each shard is decoded to the columns of the rank, whatever the numbers are.
def RowsDecode (quant : Quantization) (rows cols d : Nat) : Prop :=
  ∀ (φ : Type) [F32 φ] (name : String) (data : List UInt8), data.length = rows * quant.ggml.rowBytes cols →
    ∀ rank < d, ∀ w, shardWeight name data [cols, rows] quant d rank .row = .ok w → ∀ i < rows,
      (w.data.part (w.data.length / rows) i).length = quant.ggml.rowBytes (cols / d) ∧
        ∃ row : List φ,
          (dequantRow quant.ggml (data.part (quant.ggml.rowBytes cols) i) (replicate cols zero) : Eff Unit Empty (List φ)) () =
            (.ok row, ()) ∧
          (dequantRow quant.ggml (w.data.part (w.data.length / rows) i) (replicate (cols / d) zero) :
            Eff Unit Empty (List φ)) () = (.ok (row.part (cols / d) rank), ())

-- No shard, or nothing to split, or whole blocks. A format that is not decoded at all only has to have the right length.
def Whole (quant : Quantization) (rows cols d : Nat) : Prop :=
  d ≤ 1 ∨ ¬Accepted quant rows cols d ∨ quant.ggml.blockElems ∣ cols / d ∨
    (quant = .q8K ∧ d * quant.ggml.rowBytes (cols / d) = quant.ggml.rowBytes cols)

section Sufficient

variable {quant : Quantization} {rows cols d : Nat}

theorem rowsDecode_of_le (hd : d ≤ 1) : RowsDecode quant rows cols d := by
  intro φ _ name data hlen rank hrank w hw i hi
  have hone : d = 1 := by omega
  have hzero : rank = 0 := by omega
  subst hone hzero
  cases (shardWeight_of_le hd _).symm.trans hw
  have hrow : data.length / rows = quant.ggml.rowBytes cols := by
    rw [hlen, Nat.mul_div_cancel_left _ (Nat.zero_lt_of_lt hi)]
  have hpart := length_part hlen.ge hi
  rw [hrow, Nat.div_one]
  have ⟨row, hdecode, hcols⟩ := dequantRow_returns (φ := φ) hpart
  refine ⟨hpart, row, hdecode, ?_⟩
  rw [hdecode, List.part, Nat.zero_add, Nat.one_mul, Nat.zero_mul, drop_zero, take_of_length_le hcols.le]

-- Rows whose bytes are divided as their columns are
theorem rowsDecode_of_bytes (hd : ¬d ≤ 1) (hbytes : d * quant.ggml.rowBytes (cols / d) = quant.ggml.rowBytes cols)
    (hdecode : ∀ (φ : Type) [F32 φ] (R : List UInt8), R.length = quant.ggml.rowBytes cols → ∀ rank < d, ∃ row : List φ,
      (dequantRow quant.ggml R (replicate cols zero) : Eff Unit Empty (List φ)) = pure row ∧
        (dequantRow quant.ggml (R.part (quant.ggml.rowBytes (cols / d)) rank) (replicate (cols / d) zero) :
          Eff Unit Empty (List φ)) = pure (row.part (cols / d) rank)) : RowsDecode quant rows cols d := by
  intro φ _ name data hlen rank hrank w hw i hi
  rw [shardWeight_row hd] at hw
  have hlen' := hlen
  rw [← hbytes] at hlen'
  have ⟨hlength, hpart⟩ := row_part (by omega) hlen' hrank hi hw
  rw [hlength, Nat.mul_div_cancel_left _ (Nat.zero_lt_of_lt hi), hpart, hbytes]
  have hrow := length_part hlen.ge hi
  have ⟨row, hall, hshard⟩ := hdecode φ _ hrow rank hrank
  exact ⟨length_part (by rw [hrow, hbytes]) hrank, row, by rw [hall]; rfl, by rw [hshard]; rfl⟩

theorem dequantRow_q8K {φ : Type} [F32 φ] (R : List UInt8) (n : Nat) :
    (dequantRow .q8K R (replicate n zero) : Eff Unit Empty (List φ)) = pure (replicate n zero) := by
  simp [dequantRow]

theorem part_replicate {α : Type} (a : α) {d n rank : Nat} (hrank : rank < d) :
    (replicate (d * n) a).part n rank = replicate n a := by
  have hle := Nat.mul_le_mul_right n (Nat.succ_le_of_lt hrank)
  rw [Nat.succ_mul] at hle
  rw [part_eq_take_drop, drop_replicate, take_replicate, Nat.min_eq_left (by omega)]

theorem rowsDecode_q8K (hd : ¬d ≤ 1) (hdvd : d ∣ cols)
    (hbytes : d * GgmlType.rowBytes .q8K (cols / d) = GgmlType.rowBytes .q8K cols) : RowsDecode .q8K rows cols d := by
  refine rowsDecode_of_bytes hd hbytes fun φ _ R _ rank hrank => ?_
  refine ⟨replicate cols zero, dequantRow_q8K R cols, (dequantRow_q8K _ _).trans (congrArg pure ?_)⟩
  have ⟨n, hn⟩ := hdvd
  rw [hn, Nat.mul_div_cancel_left _ (Nat.zero_lt_of_lt hrank), part_replicate _ hrank]

theorem rowsDecode_of_whole (h : Whole quant rows cols d) : RowsDecode quant rows cols d := by
  by_cases hd : d ≤ 1
  case pos => exact rowsDecode_of_le hd
  case neg =>
    by_cases haccepted : Accepted quant rows cols d
    case neg =>
      intro φ _ name data _ rank _ w hw
      rw [shardWeight_row hd] at hw
      exact absurd (accepted_of_shardRow hw) haccepted
    case pos =>
      have ⟨hdvd, _⟩ := haccepted
      rcases ((h.resolve_left hd).resolve_left (not_not.mpr haccepted)) with ⟨n, hn⟩ | ⟨rfl, hbytes⟩
      case inr => exact rowsDecode_q8K hd hdvd hbytes
      case inl =>
        rw [Nat.mul_comm] at hn
        have hcols : cols = d * (n * quant.ggml.blockElems) := by rw [← hn, Nat.mul_div_cancel' hdvd]
        have hbytes : d * quant.ggml.rowBytes (cols / d) = quant.ggml.rowBytes cols := by
          rw [hn, GgmlType.rowBytes_mul, hcols, ← Nat.mul_assoc d n quant.ggml.blockElems, GgmlType.rowBytes_mul, Nat.mul_assoc]
        cases hq : quant
        case q8K =>
          rw [hq] at hbytes
          exact rowsDecode_q8K hd hdvd hbytes
        all_goals
          rw [← hq]
          refine rowsDecode_of_bytes hd hbytes fun φ _ R hR rank hrank => ?_
          rw [← hbytes, hn, GgmlType.rowBytes_mul] at hR
          rw [hn, GgmlType.rowBytes_mul, hcols]
          exact dequantRow_part (by rw [hq]; decide) (by rw [hq]; rfl) hR hrank

end Sufficient

section Necessary

-- A super-block whose first number is not zero: `d`, the first scale and the first nibble are one.
def oneBlock : List UInt8 :=
  [1, 0, 0, 0, 1] ++ replicate 11 0 ++ 1 :: replicate 127 0

theorem length_oneBlock : oneBlock.length = 144 := by
  simp [oneBlock]

theorem part_repeated {B : List UInt8} {e m b : Nat} (hB : B.length = e) (hb : b < m) :
    ((range m).flatMap fun _ => B).part e b = B :=
  part_flatMap_of (fun _ _ => hB) (getElem?_range hb)

theorem getElem?_q4kBlock {φ : Type} [F32 φ] : (q4kBlock oneBlock : List φ)[0]? =
    some (F32.sub (mul (mul (f16ToF32 1) (ofInt 1)) (ofInt 1)) (mul (f16ToF32 0) (ofInt 0))) := by
  rfl

theorem oneBlock_ne_zero [ExactFunctions] : (F32.sub (mul (mul (f16ToF32 1) (ofInt 1)) (ofInt 1)) (mul (f16ToF32 0) (ofInt 0)) : Exact) ≠
    zero := by
  simp [GgmlType.f16ToF32_zero, GgmlType.f16ToF32_one, mul, div, ofInt, one, F32.sub, zero, Exact.map₂]

theorem eq_of_dequantRow_q4K {φ : Type} [F32 φ] {R : List UInt8} {n : Nat} {row : List φ} (hR : n / 256 * 144 ≤ R.length)
    (h : (dequantRow .q4K R (replicate n zero) : Eff Unit Empty (List φ)) () = (.ok row, ())) :
    row = (range (n / 256)).flatMap (fun b => q4kBlock (R.part 144 b)) ++ replicate (n - n / 256 * 256) zero := by
  have hlen : (replicate n (zero : φ)).length = n := length_replicate
  have heq : (dequantRow .q4K R (replicate n zero) : Eff Unit Empty (List φ)) = _ := dequantQ4kRow_eq (hlen.symm ▸ hR)
  rw [heq, hlen, drop_replicate] at h
  exact (Except.ok.inj (Prod.mk.inj h).left).symm

-- The first number of a super-block that the row has whole
theorem getElem?_of_whole {φ : Type} [F32 φ] {R : List UInt8} {n b : Nat} {row : List φ} (hR : n / 256 * 144 ≤ R.length)
    (h : (dequantRow .q4K R (replicate n zero) : Eff Unit Empty (List φ)) () = (.ok row, ())) (hb : b < n / 256)
    (hblock : R.part 144 b = oneBlock) : row[b * 256]? =
      some (F32.sub (mul (mul (f16ToF32 1) (ofInt 1)) (ofInt 1)) (mul (f16ToF32 0) (ofInt 0))) := by
  have hget : (range (n / 256))[b]? = some b := getElem?_range hb
  have hdecoded := getElem?_flatMap_part (f := fun b => (q4kBlock (R.part 144 b) : List φ)) (fun _ => length_q4kBlock) hget
    (Nat.zero_lt_succ 255)
  rw [hblock, getElem?_q4kBlock, Nat.add_zero] at hdecoded
  rw [eq_of_dequantRow_q4K hR h, getElem?_append_left, hdecoded]
  exact (List.getElem?_eq_some_iff.mp hdecoded).1

-- The first number of a super-block that the row ends in
theorem getElem?_of_cut {φ : Type} [F32 φ] {R : List UInt8} {n : Nat} {row : List φ} (hR : n / 256 * 144 ≤ R.length)
    (h : (dequantRow .q4K R (replicate n zero) : Eff Unit Empty (List φ)) () = (.ok row, ())) (hmod : n % 256 ≠ 0) :
    row[n / 256 * 256]? = some zero := by
  rw [eq_of_dequantRow_q4K hR h, getElem?_append_right (by simp), getElem?_replicate, if_pos (by simp; omega)]

variable {quant : Quantization} {rows cols d : Nat}

-- Where the rows of the shards are as long as they have to be, they take up all bytes of the rows.
theorem bytes_of_rowsDecode (hd : ¬d ≤ 1) (haccepted : Accepted quant rows cols d) (h : RowsDecode quant rows cols d) :
    d * quant.ggml.rowBytes (cols / d) = quant.ggml.rowBytes cols := by
  have := realFunctions
  have ⟨hdvd, _, hrows, _⟩ := haccepted
  have hd0 : 0 < d := by omega
  have hlen : (replicate (rows * quant.ggml.rowBytes cols) (0 : UInt8)).length = rows * quant.ggml.rowBytes cols :=
    length_replicate
  have ⟨w, hw⟩ : ∃ w, shardRow "" _ [cols, rows] quant d 0 = .ok w := shardRow_ok _ haccepted hlen hd0
  have ⟨hlength, _⟩ := h Exact "" _ hlen 0 hd0 w ((shardWeight_row hd).trans hw) 0 (Nat.pos_of_ne_zero hrows)
  have hall := length_shardRow hlen hd0 hw
  rw [hall, Nat.mul_div_cancel_left _ (Nat.pos_of_ne_zero hrows), length_part hall.ge (Nat.pos_of_ne_zero hrows)] at hlength
  refine Nat.le_antisymm ?_ ?_
  case refine_1 => exact hlength ▸ Nat.mul_div_le ..
  case refine_2 =>
    have hle := quant.ggml.rowBytes_mul_le d (cols / d)
    rwa [Nat.mul_div_cancel' hdvd] at hle

-- The super-block that the first shard ends in is not decoded for the shard, but for the row.
theorem not_rowsDecode_q4K (hd : ¬d ≤ 1) (haccepted : Accepted .q4K rows cols d) (hcut : ¬256 ∣ cols / d)
    (hbytes : d * GgmlType.rowBytes .q4K (cols / d) = GgmlType.rowBytes .q4K cols) : ¬RowsDecode .q4K rows cols d := by
  intro h
  have := realFunctions
  have ⟨⟨n, hn⟩, _, hrows, _⟩ := haccepted
  have hd0 : 0 < d := by omega
  have hrows := Nat.pos_of_ne_zero hrows
  subst hn
  rw [Nat.mul_div_cancel_left _ hd0] at hcut hbytes
  have hmod : n % 256 ≠ 0 := fun hzero => hcut (Nat.dvd_of_mod_eq_zero hzero)
  have hblocks : (d * n + 255) / 256 = d * (n / 256 + 1) := by
    have heq : d * ((n + 255) / 256 * 144) = (d * n + 255) / 256 * 144 := hbytes
    have hceil : (n + 255) / 256 = n / 256 + 1 := by omega
    rw [hceil, ← Nat.mul_assoc] at heq
    exact (Nat.eq_of_mul_eq_mul_right (by decide) heq).symm
  have hbehind : n / 256 < d * n / 256 := by
    have htwo : 2 * (n / 256 + 1) ≤ d * (n / 256 + 1) := Nat.mul_le_mul_right _ (by omega)
    omega
  -- All blocks are the same.
  have hrowBytes : GgmlType.rowBytes .q4K (d * n) = d * (n / 256 + 1) * 144 := congrArg (· * 144) hblocks
  generalize hdata : ((range (rows * (d * (n / 256 + 1)))).flatMap fun _ => oneBlock) = data
  have hlen : data.length = rows * GgmlType.rowBytes .q4K (d * n) := by
    rw [← hdata, length_flatMap_of fun _ _ => length_oneBlock, length_range, hrowBytes, Nat.mul_assoc]
  have hblock (b : Nat) (hb : b < d * (n / 256 + 1)) : (data.part (GgmlType.rowBytes .q4K (d * n)) 0).part 144 b = oneBlock := by
    have hlt : 0 * (d * (n / 256 + 1)) + b < rows * (d * (n / 256 + 1)) := by
      have hle := Nat.le_mul_of_pos_left (d * (n / 256 + 1)) hrows
      omega
    rw [hrowBytes, part_part data hb, ← hdata, part_repeated length_oneBlock hlt]
  have ⟨w, hw⟩ : ∃ w, shardRow "" data [d * n, rows] .q4K d 0 = .ok w := shardRow_ok _ haccepted hlen hd0
  have ⟨hslice, row, hrow, hshard⟩ := h Exact "" data hlen 0 hd0 w ((shardWeight_row hd).trans hw) 0 hrows
  rw [Nat.mul_div_cancel_left _ hd0] at hslice hshard
  change (dequantRow .q4K (data.part (GgmlType.rowBytes .q4K (d * n)) 0) _ : Eff Unit Empty (List Exact)) () = _ at hrow
  have hfirst : row[n / 256 * 256]? = some (F32.sub (mul (mul (f16ToF32 1) (ofInt 1)) (ofInt 1)) (mul (f16ToF32 0) (ofInt 0))) := by
    have hR : (data.part (GgmlType.rowBytes .q4K (d * n)) 0).length = d * (n / 256 + 1) * 144 :=
      (length_part hlen.ge hrows).trans hrowBytes
    have hle : d * n / 256 ≤ d * (n / 256 + 1) := by rw [← hblocks]; omega
    exact getElem?_of_whole (by rw [hR]; omega) hrow hbehind (hblock _ (hbehind.trans_le hle))
  have hlast : (row.part n 0)[n / 256 * 256]? = some zero := by
    have heq : (w.data.part (w.data.length / rows) 0).length = (n + 255) / 256 * 144 := hslice
    exact getElem?_of_cut (by rw [heq]; omega) hshard hmod
  rw [getElem?_part (by omega), Nat.zero_mul, Nat.zero_add, hfirst, Option.some_inj] at hlast
  exact oneBlock_ne_zero hlast

-- A row of one super-block is cut in two.
theorem exists_not_rowsDecode : ¬RowsDecode .q4K 1 256 2 := by
  intro h
  have hbytes := bytes_of_rowsDecode (by decide) ⟨by decide, by decide, by decide, by decide⟩ h
  revert hbytes
  decide

-- The guard of the shards knows of blocks of 32 columns, the formats of blocks of 256.
theorem rowsDecode_iff (quant : Quantization) (rows cols d : Nat) : RowsDecode quant rows cols d ↔ Whole quant rows cols d := by
  refine ⟨fun h => ?_, rowsDecode_of_whole⟩
  refine or_iff_not_imp_left.mpr fun hd => or_iff_not_imp_left.mpr fun haccepted => or_iff_not_imp_left.mpr fun hcut => ?_
  have haccepted := not_not.mp haccepted
  have hbytes := bytes_of_rowsDecode hd haccepted h
  have ⟨_, hblock, _⟩ := haccepted
  cases quant
  case q4_0 => exact absurd hblock hcut
  case f32  => exact absurd hblock hcut
  case f16  => exact absurd hblock hcut
  case q4K  => exact absurd h (not_rowsDecode_q4K hd haccepted hcut hbytes)
  case q8K  => exact ⟨rfl, hbytes⟩

end Necessary
end Sharding
