import VeloCore.Objects.Gguf.Loader
import VeloCore.Objects.Metal.Sharding

open List Sharding

def ModelLoader.WeightStore.shape (store : ModelLoader.WeightStore) (name : String) : Option (List Nat) :=
  (store.index.lookup name).map fun info => info.shape.map UInt64.toNat

-- The names of the tensors of a store in the order in which the map is gone through
structure ModelLoader.WeightStore.Names (store : ModelLoader.WeightStore) where
  names    : List String
  nodup    : names.Nodup
  mem_iff  : name ∈ names ↔ name ∈ store.index

namespace TpModel

-- What a device makes of the calls: whether there is a queue for it, the error of its compiler, and whether
-- there is memory for the buffer of so many bytes of a tensor
structure Device where
  queue : Bool
  compileError : Option String
  allocates : String → Nat → Bool

-- The model of a rank, with the shapes that its buffers were cut to
structure LlamaMetalModel where
  modelMeta : ModelLoader.ModelMeta
  weights : Finmap fun _ : String => ShardedWeight

structure LlamaTensorParallelModel where
  modelMeta : ModelLoader.ModelMeta
  shards : List LlamaMetalModel
  tpDegree : Nat

def okOr (o : Option α) (text : String) : Except (Fault String) α :=
  match o with
  | none   => .error (.err text)
  | some a => .ok a

namespace LlamaTensorParallelModel

variable (modelMeta : ModelLoader.ModelMeta) (store : ModelLoader.WeightStore) (tpDegree rank : Nat)

def shardMeta : ModelLoader.ModelMeta :=
  { modelMeta with
    nHead := modelMeta.nHead / tpDegree
    nHeadKv := modelMeta.nHeadKv / tpDegree
    nFf := modelMeta.nFf / tpDegree }

def upload (device : Device) (weights : Finmap fun _ : String => ShardedWeight) (name : String) :
    Except (Fault String) (Finmap fun _ : String => ShardedWeight) := do
  let data ← okOr (store.get name) s!"Missing weight {name}"
  let shape ← okOr (store.shape name) s!"Missing shape {name}"
  let sharded ← shardWeight name data shape modelMeta.quantization tpDegree rank (getShardStrategy name)
  if device.allocates name sharded.data.length then
    pure (weights.insert name sharded)
  else
    .error (.err s!"Failed to allocate shard buffer for {name}")

def newShard (names : List String) (device : Device) : Except (Fault String) LlamaMetalModel :=
  if !device.queue then
    .error (.err s!"Failed to create queue for device {rank}")
  else
    match device.compileError with
    | some e => .error (.err s!"Failed to compile library for device {rank}: {e}")
    | none   => do
      let weights ← names.foldlM (upload modelMeta store tpDegree rank device) ∅
      pure ⟨shardMeta modelMeta tpDegree, weights⟩

def newShards (names : List String) (devices : List Device) : Except (Fault String) (List LlamaMetalModel) :=
  devices.zipIdx.mapM fun (device, rank) => newShard modelMeta store devices.length rank names device

def new (order : store.Names) (devices : List Device) : Except (Fault String) LlamaTensorParallelModel :=
  if devices.length = 0 then
    .error (.err "No Metal devices found")
  else do
    let shards ← newShards modelMeta store order.names devices
    pure ⟨modelMeta, shards, devices.length⟩

end LlamaTensorParallelModel

end TpModel
