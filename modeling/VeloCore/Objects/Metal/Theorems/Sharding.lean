import VeloCore.Objects.Metal.Sharding
import VeloCore.Objects.Metal.Theorems.TensorParallel
import VeloCore.Primitives.Parts

open List

theorem Except.mapM_eq_ok_iff {f : α → Except ε β} {l : List α} {bs : List β} :
    l.mapM f = .ok bs ↔ l.map f = bs.map .ok := by
  induction l generalizing bs
  case nil => cases bs <;> simp [pure, Except.pure]
  case cons a l hi =>
    rw [mapM_cons]
    cases ha : f a
    case error => cases bs <;> simp [bind, Except.bind, ha]
    case ok b =>
      cases hl : l.mapM f
      case error =>
        have hne (bs : List β) : l.map f ≠ bs.map .ok := fun heq => by simp [hi.mpr heq] at hl
        cases bs <;> simp [bind, Except.bind, ha, hne]
      case ok bs' =>
        have heq := hi.mp hl
        have hinj : Function.Injective (Except.ok : β → Except ε β) := fun _ _ => Except.ok.inj
        cases bs <;> simp [bind, Except.bind, pure, Except.pure, ha, heq, (map_injective_iff.mpr hinj).eq_iff]

namespace Sharding

section ShardWeight

variable {name : String} {data : List UInt8} {shape rest : List Nat} {quant : Quantization} {d rank cols rows : Nat}
  {w : ShardedWeight}

theorem slice_eq_ok {start stop : Nat} {part : List UInt8} (h : slice data start stop = .ok part) :
    stop ≤ data.length ∧ part = (data.take stop).drop start := by
  unfold slice at h
  split at h
  case isTrue hs  => cases h; exact ⟨hs.right, rfl⟩
  case isFalse    => cases h

theorem slice_ok {start stop : Nat} (h : start ≤ stop) (h' : stop ≤ data.length) :
    slice data start stop = .ok ((data.take stop).drop start) :=
  if_pos ⟨h, h'⟩

theorem shardColumn_eq_ok (h : shardColumn name data shape d rank = .ok w) : ∃ rows, shape.getLast? = some rows ∧
    d ∣ rows ∧ rows ≠ 0 ∧ w = ⟨data.part (rows / d * (data.length / rows)) rank, shape.set (shape.length - 1) (rows / d)⟩ := by
  unfold shardColumn at h
  split at h
  case h_1 => cases h
  case h_2 rows hrows =>
    split at h
    case isTrue => cases h
    case isFalse hmod =>
      split at h
      case isTrue => cases h
      case isFalse hzero =>
        refine ⟨rows, hrows, Nat.dvd_of_mod_eq_zero (not_not.mp hmod), hzero, ?_⟩
        have ⟨part, hpart, h⟩ := Except.bind_eq_ok_iff.mp h
        cases h
        rw [(slice_eq_ok hpart).right, List.part, Nat.mul_assoc, Nat.mul_assoc]

theorem shardRow_eq_ok (h : shardRow name data (cols :: rest) quant d rank = .ok w) :
    (d ∣ cols ∧ quant.blockSize ∣ cols / d ∧ rest.head?.getD 1 ≠ 0 ∧ cols ≠ 0) ∧
      w = ⟨(range (rest.head?.getD 1)).flatMap fun r =>
        (data.drop (r * (data.length / rest.head?.getD 1) + rank * (data.length / rest.head?.getD 1 / d))).take
          (data.length / rest.head?.getD 1 / d), cols / d :: rest⟩ := by
  rw [shardRow] at h
  split at h
  case isTrue => cases h
  case isFalse hmod =>
    split at h
    case isTrue => cases h
    case isFalse hblock =>
      dsimp only at h
      split at h
      case isTrue => cases h
      case isFalse hzero =>
        rw [not_or] at hzero
        refine ⟨⟨Nat.dvd_of_mod_eq_zero (not_not.mp hmod), Nat.dvd_of_mod_eq_zero (not_not.mp hblock), hzero⟩, ?_⟩
        have ⟨parts, hparts, h⟩ := Except.bind_eq_ok_iff.mp h
        cases h
        have hmap := Except.mapM_eq_ok_iff.mp hparts
        have hslices : parts = (range (rest.head?.getD 1)).map fun r =>
            (data.drop (r * (data.length / rest.head?.getD 1) + rank * (data.length / rest.head?.getD 1 / d))).take
              (data.length / rest.head?.getD 1 / d) := by
          refine ext_getElem (by simpa using (congrArg length hmap).symm) fun i hi hi' => ?_
          have hget := congrArg (·[i]?) hmap
          simp only [length_map, length_range] at hi'
          simp only [getElem?_map, getElem?_range hi', Option.map_some, getElem?_eq_getElem hi, Option.some.injEq] at hget
          rw [(slice_eq_ok hget).right, drop_take, Nat.add_sub_cancel_left]
          simp
        rw [hslices, flatMap_def]

-- The shapes that the guards let through
def Accepted (quant : Quantization) (rows cols d : Nat) : Prop :=
  d ∣ cols ∧ quant.blockSize ∣ cols / d ∧ rows ≠ 0 ∧ cols ≠ 0

-- The slices of a rank are inside of the rows, also where the degree does not divide the bytes of one.
theorem slice_le {rowLen i : Nat} (hlen : data.length = rows * rowLen) (hrank : rank < d) (hi : i < rows) :
    i * rowLen + rank * (rowLen / d) + rowLen / d ≤ data.length := by
  have hshard : (rank + 1) * (rowLen / d) ≤ rowLen :=
    (Nat.mul_le_mul_right _ hrank).trans (Nat.mul_div_le rowLen d)
  have hrow := Nat.mul_le_mul_right rowLen (Nat.succ_le_of_lt hi)
  rw [Nat.succ_mul] at hshard hrow
  omega

theorem shardRow_ok {rowLen : Nat} (name : String) (h : Accepted quant rows cols d)
    (hlen : data.length = rows * rowLen) (hrank : rank < d) : ∃ w, shardRow name data [cols, rows] quant d rank = .ok w := by
  have ⟨hdvd, hblock, hrows, hcols⟩ := h
  have hdiv : data.length / rows = rowLen := by rw [hlen, Nat.mul_div_cancel_left _ (Nat.pos_of_ne_zero hrows)]
  have hmap : (range rows).mapM (fun r => slice data (r * rowLen + rank * (rowLen / d))
      (r * rowLen + rank * (rowLen / d) + rowLen / d)) = .ok ((range rows).map fun r =>
        (data.take (r * rowLen + rank * (rowLen / d) + rowLen / d)).drop (r * rowLen + rank * (rowLen / d))) := by
    refine Except.mapM_eq_ok_iff.mpr ?_
    rw [map_map]
    exact map_congr_left fun r hr => slice_ok (Nat.le_add_right ..) (slice_le hlen hrank (mem_range.mp hr))
  simp [shardRow, Nat.mod_eq_zero_of_dvd hdvd, Nat.mod_eq_zero_of_dvd hblock, hrows, hcols, hdiv, hmap, bind, Except.bind, pure,
    Except.pure]

-- So are the rows of a rank.
theorem column_slice_le {rowLen : Nat} (hdvd : d ∣ rows) (hlen : data.length = rows * rowLen) (hrank : rank < d) :
    rank * (rows / d) * rowLen ≤ (rank + 1) * (rows / d) * rowLen ∧ (rank + 1) * (rows / d) * rowLen ≤ data.length := by
  refine ⟨Nat.mul_le_mul_right _ (Nat.mul_le_mul_right _ (Nat.le_succ rank)), ?_⟩
  rw [hlen]
  refine Nat.mul_le_mul_right _ ?_
  calc (rank + 1) * (rows / d) ≤ d * (rows / d) := Nat.mul_le_mul_right _ hrank
    _ = rows := Nat.mul_div_cancel' hdvd

theorem shardColumn_ok {rowLen : Nat} (name : String) (cols : Nat) (hdvd : d ∣ rows) (hrows : rows ≠ 0)
    (hlen : data.length = rows * rowLen) (hrank : rank < d) : ∃ w, shardColumn name data [cols, rows] d rank = .ok w := by
  have hdiv : data.length / rows = rowLen := by rw [hlen, Nat.mul_div_cancel_left _ (Nat.pos_of_ne_zero hrows)]
  have ⟨hle, hle'⟩ := column_slice_le hdvd hlen hrank
  simp [shardColumn, Nat.mod_eq_zero_of_dvd hdvd, hrows, hdiv, slice_ok hle hle', bind, Except.bind, pure, Except.pure]

theorem shardWeight_of_le (hd : d ≤ 1) (strategy : ShardStrategy) :
    shardWeight name data shape quant d rank strategy = .ok ⟨data, shape⟩ := by
  simp [shardWeight, hd]

theorem shardWeight_column (hd : ¬d ≤ 1) :
    shardWeight name data shape quant d rank .column = shardColumn name data shape d rank := by
  simp [shardWeight, hd]

theorem shardWeight_row (hd : ¬d ≤ 1) :
    shardWeight name data shape quant d rank .row = shardRow name data shape quant d rank := by
  simp [shardWeight, hd]

-- The shard of a matrix whose rows are of `rowLen` bytes
theorem column_shard {rowLen : Nat} (hlen : data.length = rows * rowLen)
    (h : shardColumn name data [cols, rows] d rank = .ok w) :
    d ∣ rows ∧ w = ⟨data.part (rows / d * rowLen) rank, [cols, rows / d]⟩ := by
  have ⟨rows', hrows', hdvd, hzero, hw⟩ := shardColumn_eq_ok h
  have hsame : rows = rows' := by simpa using hrows'
  subst hsame
  refine ⟨hdvd, hw.trans ?_⟩
  rw [hlen, Nat.mul_div_cancel_left _ (Nat.pos_of_ne_zero hzero)]
  rfl

-- The shard of a matrix whose rows are of `rowLen` bytes for each shard
theorem row_shard {rowLen : Nat} (hd : 0 < d) (hlen : data.length = rows * (d * rowLen)) (hrank : rank < d)
    (h : shardRow name data [cols, rows] quant d rank = .ok w) :
    w = ⟨(range rows).flatMap fun i => (data.part (d * rowLen) i).part rowLen rank, [cols / d, rows]⟩ := by
  have ⟨⟨_, _, hzero, _⟩, hw⟩ := shardRow_eq_ok h
  have hrows : 0 < rows := Nat.pos_of_ne_zero hzero
  refine hw.trans ?_
  simp only [head?_cons, Option.getD_some, hlen, Nat.mul_div_cancel_left _ hrows, Nat.mul_div_cancel_left _ hd]
  congr 1
  refine flatMap_congr fun i _ => ?_
  have hoff : i * (d * rowLen) + rank * rowLen = (i * d + rank) * rowLen := by ring
  rw [part_part data hrank, part_eq_take_drop, hoff]

theorem length_row_part {rowLen i : Nat} (hlen : data.length = rows * (d * rowLen)) (hrank : rank < d) (hi : i < rows) :
    ((data.part (d * rowLen) i).part rowLen rank).length = rowLen :=
  length_part (length_part hlen.ge hi).ge hrank

-- What the rows of the shard are
theorem row_part {rowLen i : Nat} (hd : 0 < d) (hlen : data.length = rows * (d * rowLen)) (hrank : rank < d) (hi : i < rows)
    (h : shardRow name data [cols, rows] quant d rank = .ok w) :
    w.data.length = rows * rowLen ∧ w.data.part rowLen i = (data.part (d * rowLen) i).part rowLen rank := by
  have hw := row_shard hd hlen hrank h
  have hall : ∀ j ∈ range rows, ((data.part (d * rowLen) j).part rowLen rank).length = rowLen :=
    fun j hj => length_row_part hlen hrank (mem_range.mp hj)
  rw [hw]
  exact ⟨by rw [length_flatMap_of hall, length_range], part_flatMap_of hall (getElem?_range hi)⟩

-- The rows are of as many blocks as their numbers fill.
theorem rowLen_of_blocks {rowBlocks bs : Nat} (hdvd : d ∣ cols) (hblock : quant.blockSize ∣ cols / d)
    (hrow : rowBlocks = cols / quant.blockSize) : rowBlocks * bs = d * (cols / d / quant.blockSize * bs) := by
  have ⟨k, hk⟩ := hdvd
  by_cases hd : d = 0
  case pos => simp [hrow, hk, hd]
  case neg =>
    rw [hk, Nat.mul_div_cancel_left _ (Nat.pos_of_ne_zero hd)] at hblock ⊢
    rw [hrow, hk, Nat.mul_div_assoc _ hblock, Nat.mul_assoc]

theorem eq_of_degree_one {w : Nat → ShardedWeight} {strategy : ShardStrategy}
    (h : ∀ rank < 1, shardWeight name data shape quant 1 rank strategy = .ok (w rank)) : w 0 = ⟨data, shape⟩ :=
  Except.ok.inj ((h 0 Nat.one_pos).symm.trans (shardWeight_of_le le_rfl strategy))

theorem column_reassemble {rowLen : Nat} {w : Nat → ShardedWeight} (hd : 1 ≤ d) (hlen : data.length = rows * rowLen)
    (h : ∀ rank < d, shardWeight name data [cols, rows] quant d rank .column = .ok (w rank)) :
    ((range d).flatMap fun rank => (w rank).data) = data ∧
      ∃ part : Nat → Nat, (∀ rank < d, (w rank).shape = [cols, part rank]) ∧ ((range d).map part).sum = rows := by
  by_cases hone : d ≤ 1
  case pos =>
    have hd : d = 1 := Nat.le_antisymm hone hd
    subst hd
    have hw := eq_of_degree_one h
    refine ⟨by simp [hw], fun _ => rows, fun rank hrank => ?_, by simp⟩
    rw [Nat.lt_one_iff.mp hrank, hw]
  case neg =>
    have hw (rank) (hrank : rank < d) := column_shard hlen (shardWeight_column hone ▸ h rank hrank)
    have hdvd := (hw 0 hd).left
    refine ⟨?_, fun _ => rows / d, fun rank hrank => by rw [(hw rank hrank).right], ?_⟩
    case refine_1 =>
      have hparts : ((range d).flatMap fun rank => (w rank).data) = (range d).flatMap (data.part (rows / d * rowLen)) :=
        flatMap_congr fun rank hrank => by rw [(hw rank (mem_range.mp hrank)).right]
      rw [hparts, flatMap_part_eq]
      rw [hlen, ← Nat.mul_assoc d, Nat.mul_div_cancel' hdvd]
    case refine_2 => simp [Nat.mul_div_cancel' hdvd]

-- Each row is put together from its part in every shard.
theorem row_reassemble {bs : Nat} {w : Nat → ShardedWeight} (hd : 1 ≤ d) (hrows : 0 < rows)
    (hlen : data.length = rows * (cols / quant.blockSize * bs))
    (h : ∀ rank < d, shardWeight name data [cols, rows] quant d rank .row = .ok (w rank)) :
    ((range rows).flatMap fun i => (range d).flatMap fun rank => (w rank).data.part ((w rank).data.length / rows) i) = data ∧
      ∃ part : Nat → Nat, (∀ rank < d, (w rank).shape = [part rank, rows]) ∧ ((range d).map part).sum = cols := by
  by_cases hone : d ≤ 1
  case pos =>
    have hd : d = 1 := Nat.le_antisymm hone hd
    subst hd
    have hw := eq_of_degree_one h
    refine ⟨?_, fun _ => cols, fun rank hrank => ?_, by simp⟩
    case refine_1 =>
      have hrow : data.length / rows = cols / quant.blockSize * bs := by rw [hlen, Nat.mul_div_cancel_left _ hrows]
      simp only [range_one, flatMap_singleton, hw, hrow]
      exact flatMap_part_eq hlen
    case refine_2 => rw [Nat.lt_one_iff.mp hrank, hw]
  case neg =>
    have hrow (rank) (hrank : rank < d) := shardWeight_row hone ▸ h rank hrank
    have ⟨⟨hdvd, hcut, _⟩, _⟩ := shardRow_eq_ok (hrow 0 hd)
    rw [rowLen_of_blocks hdvd hcut rfl] at hlen
    refine ⟨?_, fun _ => cols / d, fun rank hrank => by rw [row_shard hd hlen hrank (hrow rank hrank)], ?_⟩
    case refine_1 =>
      generalize cols / d / quant.blockSize * bs = rowLen at hlen
      have hrows' (i) (hi : i ∈ range rows) :
          ((range d).flatMap fun rank => (w rank).data.part ((w rank).data.length / rows) i) = data.part (d * rowLen) i := by
        have hi := mem_range.mp hi
        have hparts : ((range d).flatMap fun rank => (w rank).data.part ((w rank).data.length / rows) i) =
            (range d).flatMap ((data.part (d * rowLen) i).part rowLen) :=
          flatMap_congr fun rank hrank => by
            have ⟨hlength, hpart⟩ := row_part hd hlen (mem_range.mp hrank) hi (hrow rank (mem_range.mp hrank))
            rw [hlength, Nat.mul_div_cancel_left _ hrows, hpart]
        rw [hparts, flatMap_part_eq (length_part hlen.ge hi)]
      rw [flatMap_congr hrows', flatMap_part_eq hlen]
    case refine_2 => simp [Nat.mul_div_cancel' hdvd]

end ShardWeight

-- The bytes of the shards are those of the tensor: column shards one after another, row shards row by row.
theorem shards_reassemble (name : String) (quant : Quantization) (d cols rows bs : Nat) (data : List UInt8) (hd : 1 ≤ d)
    (hrows : 0 < rows) (hlen : data.length = rows * (cols / quant.blockSize * bs)) (w : Nat → ShardedWeight) :
    ((∀ rank < d, shardWeight name data [cols, rows] quant d rank .column = .ok (w rank)) →
      ((range d).flatMap fun rank => (w rank).data) = data ∧
        ∃ part : Nat → Nat, (∀ rank < d, (w rank).shape = [cols, part rank]) ∧ ((range d).map part).sum = rows) ∧
    ((∀ rank < d, shardWeight name data [cols, rows] quant d rank .row = .ok (w rank)) →
      ((range rows).flatMap fun i => (range d).flatMap fun rank => (w rank).data.part ((w rank).data.length / rows) i) = data ∧
        ∃ part : Nat → Nat, (∀ rank < d, (w rank).shape = [part rank, rows]) ∧ ((range d).map part).sum = cols) ∧
    (d = 1 → ∀ rank strategy, shardWeight name data [cols, rows] quant d rank strategy = .ok ⟨data, [cols, rows]⟩) :=
  ⟨column_reassemble hd hlen, row_reassemble hd hrows hlen, fun hone _ strategy => shardWeight_of_le hone.le strategy⟩

-- Two rows of two blocks
theorem shards_reassemble_q4_0 : let data := (range 72).map UInt8.ofNat
    let w (rank : Nat) : ShardedWeight :=
      ⟨(data.drop (rank * 18)).take 18 ++ (data.drop (36 + rank * 18)).take 18, [32, 2]⟩
    ((range 2).flatMap fun i => (range 2).flatMap fun rank => (w rank).data.part ((w rank).data.length / 2) i) = data :=
  ((shards_reassemble "layers.0.attention.wo.weight" .q4_0 2 64 2 18 ((range 72).map UInt8.ofNat) (by decide) (by decide)
    (by simp [Quantization.blockSize]) _).right.left (by
      intro rank hrank
      interval_cases rank <;> decide)).left

end Sharding
