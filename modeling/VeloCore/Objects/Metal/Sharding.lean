import VeloCore.Objects.Gguf.ModelMeta
import VeloCore.Objects.Metal.TensorParallel

open List

namespace Quantization

def blockSize : Quantization → Nat
  | f32 | f16        => 1
  | q4_0 | q4K | q8K => 32

def fromGgml : GgmlType → Option Quantization
  | .f32  => some f32
  | .f16  => some f16
  | .q4_0 => some q4_0
  | .q4K  => some q4K
  | .q8K  => some q8K
  | _     => none

-- The format that a quantization is read from
def ggml : Quantization → GgmlType
  | f32  => .f32
  | f16  => .f16
  | q4_0 => .q4_0
  | q4K  => .q4K
  | q8K  => .q8K

theorem fromGgml_eq_some {t : GgmlType} {quant : Quantization} : fromGgml t = some quant ↔ t = quant.ggml := by
  cases t <;> cases quant <;> decide

theorem blockSize_pos (quant : Quantization) : 0 < quant.blockSize := by
  cases quant <;> decide

end Quantization

-- The dimensions of a shape are of 64 bits.
structure ShardedWeight where
  data : List UInt8
  shape : List Nat
deriving DecidableEq, Repr

namespace Sharding

section ShardWeight

variable (name : String) (data : List UInt8) (shape : List Nat) (quant : Quantization) (tpDegree tpRank : Nat)

-- `data[start..end].to_vec()`
def slice (start stop : Nat) : Except (Fault String) (List UInt8) :=
  if start ≤ stop ∧ stop ≤ data.length then .ok ((data.take stop).drop start) else .error .panic

-- The last dimension is split. A shape without dimensions and a division by no rows are panics.
def shardColumn : Except (Fault String) ShardedWeight :=
  match shape.getLast? with
  | none => .error .panic
  | some rows =>
    if rows % tpDegree ≠ 0 then
      .error (.err s!"Tensor {name} rows ({rows}) not divisible by TP degree {tpDegree}")
    else if rows = 0 then
      .error .panic
    else do
      let shardRows := rows / tpDegree
      let bytesPerRow := data.length / rows
      let part ← slice data (tpRank * shardRows * bytesPerRow) ((tpRank + 1) * shardRows * bytesPerRow)
      pure ⟨part, shape.set (shape.length - 1) shardRows⟩

-- The first dimension is split. To divide by no columns is to panic, too.
def shardRow : Except (Fault String) ShardedWeight :=
  match shape with
  | [] => .error .panic
  | cols :: rest =>
    if cols % tpDegree ≠ 0 then
      .error (.err s!"Tensor {name} cols ({cols}) not divisible by TP degree {tpDegree}")
    else if cols / tpDegree % quant.blockSize ≠ 0 then
      .error (.err s!"Tensor {name} shard cols ({cols / tpDegree}) must be multiple of block size {quant.blockSize}")
    else
      let rows := rest.head?.getD 1
      if rows = 0 ∨ cols = 0 then
        .error .panic
      else do
        let bytesPerRow := data.length / rows
        let bytesPerShardColRow := bytesPerRow / tpDegree
        let parts ← (range rows).mapM fun r =>
          let shardStart := r * bytesPerRow + tpRank * bytesPerShardColRow
          slice data shardStart (shardStart + bytesPerShardColRow)
        pure ⟨parts.flatten, cols / tpDegree :: rest⟩

def shardWeight (strategy : ShardStrategy) : Except (Fault String) ShardedWeight :=
  if tpDegree ≤ 1 then
    .ok ⟨data, shape⟩
  else
    match strategy with
    | .replicated => .ok ⟨data, shape⟩
    | .column     => shardColumn name data shape tpDegree tpRank
    | .row        => shardRow name data shape quant tpDegree tpRank

end ShardWeight

-- `name.contains(pattern)`
def contains (name pattern : String) : Bool :=
  decide (pattern.toList <:+: name.toList)

def getShardStrategy (name : String) : ShardStrategy :=
  if contains name "attention.wq" || contains name "attention.wk" || contains name "attention.wv" then
    .column
  else if contains name "attention.wo" then
    .row
  else if contains name "feed_forward.w1" || contains name "feed_forward.w3" then
    .column
  else if contains name "feed_forward.w2" then
    .row
  else if name = "output.weight" then
    .column
  else
    .replicated

end Sharding
