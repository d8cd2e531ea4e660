import VeloCore.Objects.Metal.Theorems.RowShards
import VeloCore.Objects.Metal.Theorems.ShardedMlp

open List

namespace Sharding

section Floats

variable {R : Type} {data : List UInt8} {rank k m n : Nat}

theorem length_floats (f : UInt32 → R) (h : data.length = n * 4) : (floats f data).length = n := by
  rw [floats, length_map, length_range, h, Nat.mul_div_cancel _ (by decide)]

theorem getElem?_floats (f : UInt32 → R) (h : data.length = n * 4) (hk : k < n) :
    (floats f data)[k]? = some (float f data k) := by
  rw [floats, h, Nat.mul_div_cancel _ (by decide), getElem?_map, getElem?_range hk, Option.map_some]

-- The numbers of a part are a part of the numbers.
theorem floats_part (f : UInt32 → R) (h : data.length = m * (n * 4)) (hrank : rank < m) :
    floats f (data.part (n * 4) rank) = (floats f data).part n rank := by
  have hpart := length_part h.ge hrank
  have hall : data.length = m * n * 4 := by rw [h, Nat.mul_assoc]
  have hlen : ((floats f data).part n rank).length = n := length_part (length_floats f hall).ge hrank
  refine ext_getElem? fun k => ?_
  by_cases hk : k < n
  case pos =>
    rw [getElem?_part hk, getElem?_floats f hall (mul_add_lt hrank hk), getElem?_floats f hpart hk, float_part f hk]
  case neg =>
    have hk := Nat.not_lt.mp hk
    rw [getElem?_eq_none (hlen.trans_le hk), getElem?_eq_none ((length_floats f hpart).trans_le hk)]

theorem floats_append (f : UInt32 → R) {bytes : List UInt8} (h : data.length = n * 4) :
    floats f (data ++ bytes) = floats f data ++ floats f bytes := by
  have hlen : (data ++ bytes).length / 4 = n + bytes.length / 4 := by
    rw [length_append, h]
    omega
  have hfront (k) (hk : k ∈ range n) : float f (data ++ bytes) k = float f data k := by
    have hle : (k + 1) * 4 ≤ data.length := by
      rw [h]
      exact Nat.mul_le_mul_right 4 (mem_range.mp hk)
    rw [float, part, take_append_of_le_length hle, float, part]
  have hback (k : Nat) : float f (data ++ bytes) (n + k) = float f bytes k := by
    have hoff : (n + k) * 4 = data.length + k * 4 := by rw [h]; ring
    rw [float, part_eq_take_drop, hoff, drop_append, drop_of_length_le (Nat.le_add_right ..), nil_append,
      Nat.add_sub_cancel_left, float, part_eq_take_drop]
  rw [floats, hlen, range_add, map_append, map_congr_left hfront, map_map, floats, floats, h,
    Nat.mul_div_cancel _ (by decide)]
  exact congrArg _ (map_congr_left fun k _ => hback k)

theorem floats_flatMap (f : UInt32 → R) {g : Nat → List UInt8} {l : List Nat} (h : ∀ i ∈ l, (g i).length = n * 4) :
    floats f (l.flatMap g) = l.flatMap fun i => floats f (g i) := by
  induction l
  case nil => simp [floats]
  case cons i l hi =>
    rw [flatMap_cons, flatMap_cons, floats_append f (h i mem_cons_self), hi fun j hj => h j (mem_cons_of_mem i hj)]

end Floats

end Sharding

section ShardWeight

variable {R : Type} {data : List UInt8} {d rank cols rows : Nat}

theorem shardColumn_floats (f : UInt32 → R) (name : TensorName) (hlen : data.length = rows * (cols * 4)) (hrank : rank < d) :
    (Sharding.shardColumn name.text data [cols, rows] d rank).map (fun w => Sharding.floats f w.data) =
      shardColumn name (Sharding.floats f data) [cols, rows] d rank := by
  have hlast : [cols, rows].getLast? = some rows := rfl
  simp only [Sharding.shardColumn, shardColumn, hlast, Option.getD_some]
  by_cases hmod : rows % d ≠ 0
  case pos => rw [if_pos hmod, if_pos hmod]; rfl
  case neg =>
    rw [if_neg hmod, if_neg hmod]
    by_cases hrows : rows = 0
    case pos => rw [if_pos hrows, if_pos hrows]; rfl
    case neg =>
      rw [if_neg hrows, if_neg hrows]
      have hpos := Nat.pos_of_ne_zero hrows
      have hdvd := Nat.dvd_of_mod_eq_zero (not_not.mp hmod)
      have hlen' : data.length = d * (rows / d * cols * 4) := by
        rw [hlen, ← Nat.mul_assoc, Nat.mul_assoc, ← Nat.mul_assoc d, ← Nat.mul_assoc d, Nat.mul_div_cancel' hdvd, Nat.mul_assoc]
      have hper : data.length / rows = cols * 4 := by rw [hlen, Nat.mul_div_cancel_left _ hpos]
      have hfloats : (Sharding.floats f data).length / rows = cols := by
        rw [Sharding.length_floats f (hlen.trans (Nat.mul_assoc ..).symm), Nat.mul_div_cancel_left _ hpos]
      obtain ⟨hle, hle'⟩ := Sharding.column_slice_le hdvd hlen hrank
      have hslice : Sharding.slice data (rank * (rows / d) * (cols * 4)) ((rank + 1) * (rows / d) * (cols * 4)) =
          .ok (data.part (rows / d * cols * 4) rank) := by
        rw [Sharding.slice_ok hle hle', part]
        simp only [Nat.mul_assoc]
      rw [hper, hfloats, hslice]
      refine congrArg Except.ok ?_
      dsimp only
      rw [Sharding.floats_part f hlen' hrank, part_eq_take_drop, Nat.mul_assoc]

theorem shardRow_floats (f : UInt32 → R) (name : TensorName) (hlen : data.length = rows * (cols * 4)) (hrank : rank < d) :
    (Sharding.shardRow name.text data [cols, rows] .f32 d rank).map (fun w => Sharding.floats f w.data) =
      shardRow name (Sharding.floats f data) [cols, rows] d rank := by
  have hblock : cols / d % Quantization.f32.blockSize = 0 := Nat.mod_one _
  by_cases hmod : cols % d ≠ 0
  case pos =>
    rw [Sharding.shardRow, if_pos hmod, shardRow]
    exact (if_pos hmod).symm
  case neg =>
    by_cases hzero : rows = 0 ∨ cols = 0
    case pos =>
      rw [Sharding.shardRow, if_neg hmod, if_neg (not_not.mpr hblock), shardRow]
      refine Eq.trans ?_ (if_neg hmod).symm
      exact (congrArg _ (if_pos hzero)).trans (if_pos hzero).symm
    case neg =>
      obtain ⟨n, hn⟩ := Nat.dvd_of_mod_eq_zero (not_not.mp hmod)
      have hd : 0 < d := Nat.zero_lt_of_lt hrank
      have hrows : 0 < rows := Nat.pos_of_ne_zero fun h => hzero (.inl h)
      obtain ⟨w, hw⟩ : ∃ w, Sharding.shardRow name.text data [cols, rows] .f32 d rank = .ok w :=
        Sharding.shardRow_ok name.text ⟨⟨n, hn⟩, Nat.dvd_of_mod_eq_zero hblock, not_or.mp hzero⟩ hlen hrank
      subst hn
      have hfloats : (Sharding.floats f data).length / rows = d * n := by
        rw [Sharding.length_floats f (hlen.trans (Nat.mul_assoc ..).symm), Nat.mul_div_cancel_left _ hrows]
      rw [Nat.mul_assoc] at hlen
      have hparts : data.length = rows * d * (n * 4) := by rw [hlen, Nat.mul_assoc]
      have hdata := Sharding.row_shard hd hlen hrank hw
      have hrow : shardRow name (Sharding.floats f data) [d * n, rows] d rank = .ok ((range rows).flatMap fun r =>
          ((Sharding.floats f data).drop (r * (d * n) + rank * n)).take n) := by
        rw [shardRow]
        refine (if_neg hmod).trans ((if_neg hzero).trans ?_)
        simp only [getElem?_cons_succ, getElem?_cons_zero, Option.getD_some, hfloats, Nat.mul_div_cancel_left _ hd]
      rw [hw, hrow]
      refine congrArg Except.ok ?_
      rw [hdata]
      dsimp only
      rw [Sharding.floats_flatMap f fun i hi => Sharding.length_row_part hlen hrank (mem_range.mp hi)]
      refine flatMap_congr fun i hi => ?_
      have hplace : i * d + rank < rows * d := Sharding.mul_add_lt (mem_range.mp hi) hrank
      have hoff : (i * d + rank) * n = i * (d * n) + rank * n := by ring
      rw [part_part data hrank, Sharding.floats_part f hparts hplace, part_eq_take_drop, hoff]

-- What is made of the bytes of a tensor of floats is what is made of its numbers.
theorem shardWeight_floats (f : UInt32 → R) (name : TensorName) (hlen : data.length = rows * (cols * 4)) (hrank : rank < d)
    (strategy : ShardStrategy) :
    (Sharding.shardWeight name.text data [cols, rows] .f32 d rank strategy).map (fun w => Sharding.floats f w.data) =
      shardWeight name (Sharding.floats f data) [cols, rows] d rank strategy := by
  unfold Sharding.shardWeight shardWeight
  split
  case isTrue => rfl
  case isFalse =>
    cases strategy
    case replicated => rfl
    case column     => exact shardColumn_floats f name hlen hrank
    case row        => exact shardRow_floats f name hlen hrank

end ShardWeight
