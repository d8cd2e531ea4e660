import VeloCore.Objects.Metal.Theorems.Sharding

open List

namespace Sharding

section Floats

variable {R : Type} {data : List UInt8} {d rank n k : Nat}

-- The number `k` of a buffer of floats
def float (f : UInt32 → R) (data : List UInt8) (k : Nat) : R :=
  f (.ofNat (ofLeBytes (data.part 4 k)))

-- What a kernel reads from the bytes of its buffer
def floats (f : UInt32 → R) (data : List UInt8) : List R :=
  (range (data.length / 4)).map (float f data)

theorem getD_floats [Zero R] (f : UInt32 → R) (h : n * 4 ≤ data.length) (hk : k < n) :
    (floats f data).getD k 0 = float f data k := by
  have hlt : k < data.length / 4 := by omega
  simp [floats, hlt]

theorem float_part (f : UInt32 → R) (hk : k < n) : float f (data.part (n * 4) rank) k = float f data (rank * n + k) := by
  rw [float, float, part_part data hk]

end Floats

section Products

variable {R : Type} [CommRing R] {d rows cols n : Nat} {w x : List R} {v : Nat → R}

theorem mul_add_lt {i n c m : Nat} (hi : i < m) (hc : c < n) : i * n + c < m * n := by
  have hle := Nat.mul_le_mul_right n (Nat.succ_le_of_lt hi)
  rw [Nat.succ_mul] at hle
  omega

-- A product in terms of the numbers that it reads
theorem matvecF32_eq (hw : ∀ r < rows, ∀ c < cols, w.getD (r * cols + c) 0 = v (r * cols + c)) :
    matvecF32 w rows cols x = (range rows).map fun r => ((range cols).map fun c => v (r * cols + c) * x.getD c 0).sum :=
  map_congr_left fun r hr => congrArg List.sum <| map_congr_left fun c hc => by
    rw [hw r (mem_range.mp hr) c (mem_range.mp hc)]

theorem vecMul_map (p q : Nat → R) (act : R → R) :
    vecMul (((range n).map p).map act) ((range n).map q) = (range n).map fun k => act (p k) * q k := by
  rw [vecMul, map_map, zipWith_map, zipWith_self]
  rfl

-- The sums of the partial results, number by number
theorem foldl_vecAdd (p : Nat → Nat → R) (a : Nat → R) (ranks : List Nat) :
    ranks.foldl (fun sum rank => vecAdd sum ((range n).map (p rank))) ((range n).map a) =
      (range n).map fun i => a i + (ranks.map (p · i)).sum := by
  induction ranks generalizing a
  case nil => simp
  case cons rank ranks hi =>
    have hstep : vecAdd ((range n).map a) ((range n).map (p rank)) = (range n).map fun i => a i + p rank i := by
      rw [vecAdd, zipWith_map, zipWith_self]
    rw [foldl_cons, hstep, hi]
    simp [add_assoc]

-- A sum over all columns is one over the columns of each rank.
theorem sum_range_mul (d n : Nat) (g : Nat → R) :
    ((range d).map fun rank => ((range n).map fun c => g (rank * n + c)).sum).sum = ((range (d * n)).map g).sum := by
  rw [range_mul_eq, map_flatMap, flatMap_def, sum_flatten, map_map]
  simp [Function.comp_def]

end Products

section Mlp

variable {R : Type} [CommRing R] {name : String} {quant : Quantization} {data : List UInt8} {d rank cols rows n : Nat}
  {w : ShardedWeight} {x : List R}

-- The rows of a column shard are rows of the tensor.
theorem matvecF32_column (f : UInt32 → R) (hlen : data.length = rows * (cols * 4)) (hrank : rank < d) (hd : d * n = rows)
    (h : shardColumn name data [cols, rows] d rank = .ok w) :
    matvecF32 (floats f w.data) n cols x =
      (range n).map fun j => ((range cols).map fun c => float f data ((rank * n + j) * cols + c) * x.getD c 0).sum := by
  have ⟨_, hw⟩ := column_shard hlen h
  have hn : rows / d = n := by rw [← hd, Nat.mul_div_cancel_left _ (Nat.zero_lt_of_lt hrank)]
  have hdata : w.data = data.part (n * cols * 4) rank := by rw [hw, hn, Nat.mul_assoc]
  have hlength : w.data.length = n * cols * 4 := by
    rw [hdata, length_part (k := d) (by rw [hlen, ← hd]; apply le_of_eq; ring) hrank]
  have hv (r) (hr : r < n) (c) (hc : c < cols) :
      (floats f w.data).getD (r * cols + c) 0 = float f data (rank * (n * cols) + (r * cols + c)) := by
    have hlt := mul_add_lt hr hc
    rw [getD_floats f hlength.ge hlt, hdata, float_part f hlt]
  rw [matvecF32_eq (v := fun k => float f data (rank * (n * cols) + k)) hv]
  refine map_congr_left fun j _ => congrArg List.sum <| map_congr_left fun c _ => ?_
  have hoff : rank * (n * cols) + (j * cols + c) = (rank * n + j) * cols + c := by ring
  rw [hoff]

-- The columns of a row shard are columns of the tensor.
theorem matvecF32_row (f : UInt32 → R) (hlen : data.length = rows * (d * n * 4)) (hrank : rank < d)
    (h : shardRow name data [d * n, rows] quant d rank = .ok w) (x : List R) :
    matvecF32 (floats f w.data) rows n x =
      (range rows).map fun i => ((range n).map fun c => float f data (i * (d * n) + (rank * n + c)) * x.getD c 0).sum := by
  have hd : 0 < d := Nat.zero_lt_of_lt hrank
  rw [Nat.mul_assoc] at hlen
  refine map_congr_left fun i hi => congrArg List.sum <| map_congr_left fun c hc => ?_
  have hi := mem_range.mp hi
  have hc := mem_range.mp hc
  have ⟨hlength, hpart⟩ := row_part hd hlen hrank hi h
  have hlt := mul_add_lt hi hc
  have hoff : (i * d + rank) * n + c = i * (d * n) + (rank * n + c) := by ring
  rw [getD_floats f (by rw [hlength]; apply le_of_eq; ring) hlt, ← float_part f hc, hpart, part_part data hrank,
    float_part f hc, hoff]

theorem matvecF32_floats (f : UInt32 → R) (hlen : data.length = rows * (cols * 4)) (x : List R) :
    matvecF32 (floats f data) rows cols x =
      (range rows).map fun r => ((range cols).map fun c => float f data (r * cols + c) * x.getD c 0).sum := by
  refine matvecF32_eq fun r hr c hc => ?_
  exact getD_floats f (by rw [hlen]; apply le_of_eq; ring) (mul_add_lt hr hc)

-- What the MLP block of a layer makes of its input, with the weights of one shard or of all
def mlp (f : UInt32 → R) (act : R → R) (w₁ w₂ w₃ : List UInt8) (nEmbd nFf : Nat) (x : List R) : List R :=
  let gate := matvecF32 (floats f w₁) nFf nEmbd x
  let up := matvecF32 (floats f w₃) nFf nEmbd x
  matvecF32 (floats f w₂) nEmbd nFf (vecMul (gate.map act) up)

-- It is what a shard of the model computes for its second block.
theorem forwardLayer_mlp (ops : ExactOps R) (shard : ModelMeta) (f : UInt32 → R) {w : LayerTensor → List R}
    {w₁ w₂ w₃ : List UInt8} (hw₁ : w .w1 = floats f w₁) (hw₂ : w .w2 = floats f w₂) (hw₃ : w .w3 = floats f w₃)
    (pos : Nat) (mem : ShardMemory R) :
    (LlamaTensorParallelModel.forwardLayer ops shard w pos mem).2 =
      mlp f ops.silu w₁ w₂ w₃ shard.nEmbd shard.nFf (ops.rmsNorm (w .ffnNorm) mem.hiddenState) := by
  simp only [LlamaTensorParallelModel.forwardLayer, mlp, hw₁, hw₂, hw₃]

-- What the number `k` between the blocks adds to the number `i` of the output
def mlpTerm (f : UInt32 → R) (act : R → R) (w₁ w₂ w₃ : List UInt8) (nEmbd nFf : Nat) (x : List R) (i k : Nat) : R :=
  float f w₂ (i * nFf + k) * (act ((range nEmbd).map fun c => float f w₁ (k * nEmbd + c) * x.getD c 0).sum *
    ((range nEmbd).map fun c => float f w₃ (k * nEmbd + c) * x.getD c 0).sum)

theorem getD_map_range (g : Nat → R) {n k : Nat} (hk : k < n) : ((range n).map g).getD k 0 = g k := by simp [hk]

theorem mlp_eq (f : UInt32 → R) (act : R → R) {w₁ w₂ w₃ : List UInt8} {nEmbd nFf : Nat}
    (hw₁ : w₁.length = nFf * (nEmbd * 4)) (hw₂ : w₂.length = nEmbd * (nFf * 4)) (hw₃ : w₃.length = nFf * (nEmbd * 4))
    (x : List R) : mlp f act w₁ w₂ w₃ nEmbd nFf x =
      (range nEmbd).map fun i => ((range nFf).map (mlpTerm f act w₁ w₂ w₃ nEmbd nFf x i)).sum := by
  rw [mlp, matvecF32_floats f hw₁, matvecF32_floats f hw₃, vecMul_map, matvecF32_floats f hw₂]
  refine map_congr_left fun i _ => congrArg List.sum <| map_congr_left fun c hc => ?_
  rw [getD_map_range _ (mem_range.mp hc), mlpTerm]

-- A shard has the terms of its own numbers.
theorem mlp_shard (f : UInt32 → R) (act : R → R) {w₁ w₂ w₃ : List UInt8} {nEmbd n d rank : Nat} {name₁ name₂ name₃ : String}
    {shard₁ shard₂ shard₃ : ShardedWeight} (hrank : rank < d)
    (hw₁ : w₁.length = d * n * (nEmbd * 4)) (hw₂ : w₂.length = nEmbd * (d * n * 4)) (hw₃ : w₃.length = d * n * (nEmbd * 4))
    (h₁ : shardColumn name₁ w₁ [nEmbd, d * n] d rank = .ok shard₁)
    (h₂ : shardRow name₂ w₂ [d * n, nEmbd] .f32 d rank = .ok shard₂)
    (h₃ : shardColumn name₃ w₃ [nEmbd, d * n] d rank = .ok shard₃) (x : List R) :
    mlp f act shard₁.data shard₂.data shard₃.data nEmbd n x = (range nEmbd).map fun i =>
      ((range n).map fun c => mlpTerm f act w₁ w₂ w₃ nEmbd (d * n) x i (rank * n + c)).sum := by
  rw [mlp, matvecF32_column f hw₁ hrank rfl h₁, matvecF32_column f hw₃ hrank rfl h₃, vecMul_map,
    matvecF32_row f hw₂ hrank h₂]
  refine map_congr_left fun i _ => congrArg List.sum <| map_congr_left fun c hc => ?_
  rw [getD_map_range _ (mem_range.mp hc), mlpTerm]

end Mlp

-- The shards of the weights of the block, as `shard_weight` cuts them from the bytes of the tensors
structure Cut {R : Type} (model : LlamaTensorParallelModel R) (name₁ name₂ name₃ : String) (w₁ w₂ w₃ : List UInt8)
    (shard₁ shard₂ shard₃ : Nat → ShardedWeight) : Prop where
  gate : rank < model.tpDegree → shardWeight name₁ w₁ [model.modelMeta.nEmbd, model.modelMeta.nFf] .f32 model.tpDegree rank
    .column = .ok (shard₁ rank)
  down : rank < model.tpDegree → shardWeight name₂ w₂ [model.modelMeta.nFf, model.modelMeta.nEmbd] .f32 model.tpDegree rank
    .row = .ok (shard₂ rank)
  up   : rank < model.tpDegree → shardWeight name₃ w₃ [model.modelMeta.nEmbd, model.modelMeta.nFf] .f32 model.tpDegree rank
    .column = .ok (shard₃ rank)

section Cut

variable {R : Type} {model : LlamaTensorParallelModel R} {w₁ w₂ w₃ : List UInt8} {shard₁ shard₂ shard₃ : Nat → ShardedWeight}
  (hdvd : model.tpDegree ∣ model.modelMeta.nFf)
  (hw₁ : w₁.length = model.modelMeta.nFf * (model.modelMeta.nEmbd * 4))
  (hw₂ : w₂.length = model.modelMeta.nEmbd * (model.modelMeta.nFf * 4))
  (hw₃ : w₃.length = model.modelMeta.nFf * (model.modelMeta.nEmbd * 4))

include hdvd hw₁ hw₂ hw₃

-- Nothing fails when the degree divides the numbers between the two products.
theorem exists_cut (name₁ name₂ name₃ : String) (hEmbd : 0 < model.modelMeta.nEmbd) (hFf : 0 < model.modelMeta.nFf) :
    ∃ shard₁ shard₂ shard₃, Cut model name₁ name₂ name₃ w₁ w₂ w₃ shard₁ shard₂ shard₃ := by
  by_cases hone : model.tpDegree ≤ 1
  case pos =>
    exact ⟨fun _ => ⟨w₁, _⟩, fun _ => ⟨w₂, _⟩, fun _ => ⟨w₃, _⟩, fun _ => shardWeight_of_le hone _,
      fun _ => shardWeight_of_le hone _, fun _ => shardWeight_of_le hone _⟩
  case neg =>
    have hcolumn (name : String) {w : List UInt8} (hw : w.length = model.modelMeta.nFf * (model.modelMeta.nEmbd * 4)) :
        ∀ rank, ∃ shard, rank < model.tpDegree → shardWeight name w [model.modelMeta.nEmbd, model.modelMeta.nFf] .f32
          model.tpDegree rank .column = .ok shard := by
      intro rank
      by_cases hrank : rank < model.tpDegree
      case pos =>
        have ⟨shard, h⟩ := shardColumn_ok name model.modelMeta.nEmbd hdvd hFf.ne' hw hrank
        exact ⟨shard, fun _ => (shardWeight_column hone).trans h⟩
      case neg => exact ⟨⟨[], []⟩, fun h => absurd h hrank⟩
    have hrow : ∀ rank, ∃ shard, rank < model.tpDegree → shardWeight name₂ w₂ [model.modelMeta.nFf, model.modelMeta.nEmbd]
        .f32 model.tpDegree rank .row = .ok shard := by
      intro rank
      by_cases hrank : rank < model.tpDegree
      case pos =>
        have haccepted : Accepted .f32 model.modelMeta.nEmbd model.modelMeta.nFf model.tpDegree :=
          ⟨hdvd, Nat.one_dvd _, hEmbd.ne', hFf.ne'⟩
        have ⟨shard, h⟩ := shardRow_ok name₂ haccepted hw₂ hrank
        exact ⟨shard, fun _ => (shardWeight_row hone).trans h⟩
      case neg => exact ⟨⟨[], []⟩, fun h => absurd h hrank⟩
    choose shard₁ h₁ using hcolumn name₁ hw₁
    choose shard₂ h₂ using hrow
    choose shard₃ h₃ using hcolumn name₃ hw₃
    exact ⟨shard₁, shard₂, shard₃, fun h => h₁ _ h, fun h => h₂ _ h, fun h => h₃ _ h⟩

open LlamaTensorParallelModel in
theorem Cut.allReduce [CommRing R] {name₁ name₂ name₃ : String} (h : Cut model name₁ name₂ name₃ w₁ w₂ w₃ shard₁ shard₂ shard₃)
    (f : UInt32 → R) (act : R → R) (x : List R) (mem : Nat → ShardMemory R) {rank : Nat} (hrank : rank < model.tpDegree) :
    (model.allReduceSumAndAdd (fun rank => mlp f act (shard₁ rank).data (shard₂ rank).data (shard₃ rank).data
        model.modelMeta.nEmbd model.shardMeta.nFf x) mem rank).hiddenState =
      vecAdd (mem rank).hiddenState (mlp f act w₁ w₂ w₃ model.modelMeta.nEmbd model.modelMeta.nFf x) := by
  have hd : 0 < model.tpDegree := Nat.zero_lt_of_lt hrank
  obtain ⟨h₁, h₂, h₃⟩ := h
  obtain ⟨modelMeta, d, weights⟩ := model
  simp only [shardMeta, allReduceSumAndAdd] at *
  generalize modelMeta.nEmbd = nEmbd at *
  generalize modelMeta.nFf = nFf at *
  obtain ⟨n, rfl⟩ := hdvd
  rw [Nat.mul_div_cancel_left _ hd]
  by_cases hone : d ≤ 1
  case pos =>
    have hd : d = 1 := Nat.le_antisymm hone hd
    subst hd
    cases Nat.lt_one_iff.mp hrank
    have hs₁ := Except.ok.inj ((shardWeight_of_le hone _).symm.trans (h₁ hrank))
    have hs₂ := Except.ok.inj ((shardWeight_of_le hone _).symm.trans (h₂ hrank))
    have hs₃ := Except.ok.inj ((shardWeight_of_le hone _).symm.trans (h₃ hrank))
    simp only [hone, if_true, ← hs₁, ← hs₂, ← hs₃, one_mul]
  case neg =>
    simp only [hone, if_false]
    have hpart (rank) (hrank : rank < d) := mlp_shard f act hrank hw₁ hw₂ hw₃ (shardWeight_column hone ▸ h₁ hrank)
      (shardWeight_row hone ▸ h₂ hrank) (shardWeight_column hone ▸ h₃ hrank) x
    have hzero : replicate nEmbd (0 : R) = (range nEmbd).map fun _ => 0 := by rw [map_const', length_range]
    rw [foldl_ext _ _ _ fun sum rank hrank => by rw [hpart rank (mem_range.mp hrank)], hzero, foldl_vecAdd,
      mlp_eq f act hw₁ hw₂ hw₃]
    refine congrArg _ (map_congr_left fun i _ => ?_)
    rw [zero_add, sum_range_mul d n (mlpTerm f act w₁ w₂ w₃ nEmbd (d * n) x i)]

end Cut

open LlamaTensorParallelModel in
-- The weights can be cut for every degree that divides the numbers between the products, and the all-reduce over the
-- shards adds to the hidden states what the unsharded block would.
theorem mlp_sharded {R : Type} [CommRing R] (f : UInt32 → R) (act : R → R) (model : LlamaTensorParallelModel R)
    (hdvd : model.tpDegree ∣ model.modelMeta.nFf) (name₁ name₂ name₃ : String) (w₁ w₂ w₃ : List UInt8)
    (hw₁ : w₁.length = model.modelMeta.nFf * (model.modelMeta.nEmbd * 4))
    (hw₂ : w₂.length = model.modelMeta.nEmbd * (model.modelMeta.nFf * 4))
    (hw₃ : w₃.length = model.modelMeta.nFf * (model.modelMeta.nEmbd * 4)) :
    (0 < model.modelMeta.nEmbd → 0 < model.modelMeta.nFf →
      ∃ shard₁ shard₂ shard₃, Cut model name₁ name₂ name₃ w₁ w₂ w₃ shard₁ shard₂ shard₃) ∧
    ∀ shard₁ shard₂ shard₃, Cut model name₁ name₂ name₃ w₁ w₂ w₃ shard₁ shard₂ shard₃ →
      ∀ (x : List R) (mem : Nat → ShardMemory R) (rank : Nat), rank < model.tpDegree →
        (model.allReduceSumAndAdd (fun rank => mlp f act (shard₁ rank).data (shard₂ rank).data (shard₃ rank).data
            model.modelMeta.nEmbd model.shardMeta.nFf x) mem rank).hiddenState =
          vecAdd (mem rank).hiddenState (mlp f act w₁ w₂ w₃ model.modelMeta.nEmbd model.modelMeta.nFf x) :=
  ⟨exists_cut hdvd hw₁ hw₂ hw₃ name₁ name₂ name₃, fun _ _ _ h x mem _ hrank => h.allReduce hdvd hw₁ hw₂ hw₃ f act x mem hrank⟩

-- Two shards of two columns, over the integers
theorem mlp_sharded_two : let w₁ := leBytes 4 2 ++ leBytes 4 3; let w₂ := leBytes 4 5 ++ leBytes 4 7
    let w₃ := leBytes 4 11 ++ leBytes 4 13
    ∃ shard₁ shard₂ shard₃, Cut (⟨⟨0, 1, 1, 1, 1, 1, 2⟩, 2, fun _ _ => []⟩ : LlamaTensorParallelModel ℤ)
      "layers.0.feed_forward.w1.weight" "layers.0.feed_forward.w2.weight" "layers.0.feed_forward.w3.weight" w₁ w₂ w₃ shard₁ shard₂ shard₃ ∧
      ∃ mem : Nat → ShardMemory ℤ, (mem 1).hiddenState =
        vecAdd [1] (mlp (fun bits => (bits.toNat : ℤ)) (· + 1) w₁ w₂ w₃ 1 2 [4]) := by
  intro w₁ w₂ w₃
  have ⟨hcut, hsum⟩ := mlp_sharded (fun bits => (bits.toNat : ℤ)) (· + 1) ⟨⟨0, 1, 1, 1, 1, 1, 2⟩, 2, fun _ _ => []⟩ (by decide)
    "layers.0.feed_forward.w1.weight" "layers.0.feed_forward.w2.weight" "layers.0.feed_forward.w3.weight" w₁ w₂ w₃
    (by decide) (by decide) (by decide)
  have ⟨shard₁, shard₂, shard₃, h⟩ := hcut (by decide) (by decide)
  exact ⟨shard₁, shard₂, shard₃, h, _, hsum shard₁ shard₂ shard₃ h [4] (fun _ => ⟨[1], fun _ => ([], [])⟩) 1 (by decide)⟩

end Sharding
