import VeloCore.Objects.Metal.Kernels
import VeloCore.Objects.Metal.Model

open List

inductive ShardStrategy
  | replicated
  | column
  | row
deriving DecidableEq, Repr

-- `get_shard_strategy`
def TensorName.shardStrategy : TensorName → ShardStrategy
  | layer _ .wq | layer _ .wk | layer _ .wv => .column
  | layer _ .wo                             => .row
  | layer _ .w1 | layer _ .w3               => .column
  | layer _ .w2                             => .row
  | output                                  => .column
  | tokenEmbd | outputNorm                  => .replicated
  | layer _ .attentionNorm                  => .replicated
  | layer _ .ffnNorm                        => .replicated

section Shard

variable {R : Type} (name : TensorName) (data : List R) (shape : List Nat) (tpDegree tpRank : Nat)

-- The last dimension is split. To divide by no rows is to panic.
def shardColumn : Except (Fault String) (List R) :=
  let rows := shape.getLast?.getD 0
  if rows % tpDegree ≠ 0 then
    .error (.err s!"Tensor {name.text} rows ({rows}) not divisible by TP degree {tpDegree}")
  else if rows = 0 then
    .error .panic
  else
    let shardRows := rows / tpDegree
    let perRow := data.length / rows
    .ok ((data.drop (tpRank * shardRows * perRow)).take (shardRows * perRow))

-- The first dimension is split.
def shardRow : Except (Fault String) (List R) :=
  let cols := shape.head?.getD 0
  let rows := shape[1]?.getD 1
  if cols % tpDegree ≠ 0 then
    .error (.err s!"Tensor {name.text} cols ({cols}) not divisible by TP degree {tpDegree}")
  else if rows = 0 ∨ cols = 0 then
    .error .panic
  else
    let perRow := data.length / rows
    let perShard := perRow / tpDegree
    .ok ((range rows).flatMap fun r => (data.drop (r * perRow + tpRank * perShard)).take perShard)

-- Of a tensor of whole numbers, so that no block of a quantization can be cut
def shardWeight (strategy : ShardStrategy) : Except (Fault String) (List R) :=
  if tpDegree ≤ 1 then
    .ok data
  else
    match strategy with
    | .replicated => .ok data
    | .column     => shardColumn name data shape tpDegree tpRank
    | .row        => shardRow name data shape tpDegree tpRank

end Shard

structure ModelMeta where
  nVocab : Nat
  nEmbd : Nat
  nLayer : Nat
  nHead : Nat
  nHeadKv : Nat
  headDim : Nat
  nFf : Nat
deriving DecidableEq, Repr

-- A matrix as it is handed to a kernel
structure Matrix32 (R : Type) where
  rows : Nat
  cols : Nat
  data : List R

-- Exact numbers, and the primitives that are made of single heads or single numbers.
structure ExactOps (R : Type) where
  rmsNorm : List R → List R → List R
  rope : Nat → Nat → List R → List R → List R × List R
  attention : Nat → Nat → Nat → List R → List (List R × List R) → List R
  silu : R → R
  rmsNorm_length : (rmsNorm w x).length = x.length

section Kernel

variable {R : Type} [CommRing R]

def matvecF32 (w : List R) (rows cols : Nat) (x : List R) : List R :=
  (range rows).map fun r => ((range cols).map fun c => w.getD (r * cols + c) 0 * x.getD c 0).sum

def vecAdd : List R → List R → List R :=
  zipWith (· + ·)

def vecMul : List R → List R → List R :=
  zipWith (· * ·)

-- What the threads of the grid do of them: there is one for each number of the row, or there are fewer. The place in the
-- weights is a `uint`, and so is `dim`, which is a `u32` of the file.
def embedLookup (out w : List R) (token : TokenId) (dim width : Nat) : List R :=
  (range width).foldl (fun out i => if i < dim then out.set i (w.getD (uint (token.toNat * dim + i)) 0) else out) out

end Kernel

namespace ModelMeta

variable (dims : ModelMeta)

-- The shapes that a loaded model is checked for, columns first
def shape : TensorName → List Nat
  | .tokenEmbd                               => [dims.nEmbd, dims.nVocab]
  | .layer _ .attentionNorm                  => [dims.nEmbd]
  | .layer _ .wq                             => [dims.nEmbd, dims.nEmbd]
  | .layer _ .wk | .layer _ .wv              => [dims.nEmbd, dims.nHeadKv * dims.headDim]
  | .layer _ .wo                             => [dims.nEmbd, dims.nEmbd]
  | .layer _ .ffnNorm                        => [dims.nEmbd]
  | .layer _ .w1 | .layer _ .w3              => [dims.nEmbd, dims.nFf]
  | .layer _ .w2                             => [dims.nFf, dims.nEmbd]
  | .outputNorm                              => [dims.nEmbd]
  | .output                                  => [dims.nEmbd, dims.nVocab]

def names : List TensorName :=
  .tokenEmbd :: .outputNorm :: .output :: (range dims.nLayer).flatMap fun l =>
    [.attentionNorm, .wq, .wk, .wv, .wo, .ffnNorm, .w1, .w2, .w3].map (.layer l)

end ModelMeta

namespace ExactOps

variable {R : Type} [CommRing R] (ops : ExactOps R) (dims : ModelMeta)

-- The primitives that the unsharded model is run with.
def toLlamaOps : LlamaOps R (Matrix32 R) where
  embeddingRow w token := (range w.cols).map fun i => w.data.getD (token.toNat * w.cols + i) 0
  rmsNorm w := ops.rmsNorm w.data
  matvec w := matvecF32 w.data w.rows w.cols
  rope := ops.rope dims.headDim
  attention := ops.attention dims.nHead dims.nHeadKv dims.headDim
  silu := map ops.silu
  vecMul := vecMul
  vecAdd := vecAdd

end ExactOps

-- All tensors, with the numbers of rows and columns that `forward` passes on for them.
def ModelMeta.loaded {R : Type} (dims : ModelMeta) (weights : TensorName → List R) : WeightStore (Matrix32 R) := fun name =>
  some ⟨(dims.shape name)[1]?.getD 1, (dims.shape name).head?.getD 0, weights name⟩

-- The shards with their part of each tensor
structure LlamaTensorParallelModel (R : Type) where
  modelMeta : ModelMeta
  tpDegree : Nat
  weights : Nat → TensorName → List R

-- The memory of the device of a shard: its hidden state and the rows of its pools. All other scratch
-- buffers are filled before they are read.
structure ShardMemory (R : Type) where
  hiddenState : List R
  rows : Nat → List R × List R

namespace LlamaTensorParallelModel

variable {R : Type}

def new (dims : ModelMeta) (weights : TensorName → List R) (tpDegree : Nat) : Except (Fault String) (LlamaTensorParallelModel R) := do
  let shard (rank : Nat) (name : TensorName) := shardWeight name (weights name) (dims.shape name) tpDegree rank name.shardStrategy
  (range tpDegree).forM fun rank => dims.names.forM fun name => (shard rank name).map fun _ => ()
  pure { modelMeta := dims, tpDegree, weights := fun rank name => (shard rank name).toOption.getD [] }

-- The metadata of a shard
def shardMeta (model : LlamaTensorParallelModel R) : ModelMeta :=
  { model.modelMeta with
    nHead := model.modelMeta.nHead / model.tpDegree
    nHeadKv := model.modelMeta.nHeadKv / model.tpDegree
    nFf := model.modelMeta.nFf / model.tpDegree }

variable [CommRing R] (ops : ExactOps R)

-- The outputs of the two blocks for the same hidden state. The key and the value of the position are
-- projected as well, and nothing is made of them.
def forwardLayer (shard : ModelMeta) (w : LayerTensor → List R) (pos : Nat) (mem : ShardMemory R) : List R × List R :=
  let attnIn := ops.rmsNorm (w .attentionNorm) mem.hiddenState
  let q := matvecF32 (w .wq) (shard.nHead * shard.headDim) shard.nEmbd attnIn
  let attnOut := ops.attention shard.nHead shard.nHeadKv shard.headDim q ((range (pos + 1)).map mem.rows)
  let attnOutProj := matvecF32 (w .wo) shard.nEmbd (shard.nHead * shard.headDim) attnOut
  let mlpIn := ops.rmsNorm (w .ffnNorm) mem.hiddenState
  let gate := matvecF32 (w .w1) shard.nFf shard.nEmbd mlpIn
  let up := matvecF32 (w .w3) shard.nFf shard.nEmbd mlpIn
  let gate := vecMul (gate.map ops.silu) up
  (attnOutProj, matvecF32 (w .w2) shard.nEmbd shard.nFf gate)

variable (model : LlamaTensorParallelModel R)

-- With one shard, its own part is the sum.
def allReduceSumAndAdd (parts : Nat → List R) (mem : Nat → ShardMemory R) : Nat → ShardMemory R :=
  if model.tpDegree ≤ 1 then
    fun rank => { mem rank with hiddenState := vecAdd (mem rank).hiddenState (parts rank) }
  else
    let sum := (range model.tpDegree).foldl (fun sum rank => vecAdd sum (parts rank)) (replicate model.modelMeta.nEmbd 0)
    fun rank => { mem rank with hiddenState := vecAdd (mem rank).hiddenState sum }

def layer (pos : Nat) (mem : Nat → ShardMemory R) (l : Nat) : Nat → ShardMemory R :=
  let results (rank : Nat) := forwardLayer ops model.shardMeta (fun t => model.weights rank (.layer l t)) pos (mem rank)
  let mem := model.allReduceSumAndAdd (fun rank => (results rank).1) mem
  model.allReduceSumAndAdd (fun rank => (results rank).2) mem

-- One thread looks the token up.
def embed (token : TokenId) (mem : Nat → ShardMemory R) : Nat → ShardMemory R := fun rank =>
  { mem rank with hiddenState := embedLookup (mem rank).hiddenState (model.weights rank .tokenEmbd) token model.modelMeta.nEmbd 1 }

def run (token : TokenId) (pos : Nat) (mem : Nat → ShardMemory R) : List R × (Nat → ShardMemory R) :=
  let mem := model.embed token mem
  let mem := (range model.modelMeta.nLayer).foldl (model.layer ops pos) mem
  let mem := fun rank => { mem rank with hiddenState := ops.rmsNorm (model.weights rank .outputNorm) (mem rank).hiddenState }
  let shardVocab := model.modelMeta.nVocab / model.tpDegree
  let logits (rank : Nat) := matvecF32 (model.weights rank .output) shardVocab model.modelMeta.nEmbd (mem rank).hiddenState
  let allLogits := (range model.tpDegree).flatMap logits
  (allLogits ++ replicate (model.modelMeta.nVocab - allLogits.length) 0, mem)

end LlamaTensorParallelModel
