import VeloCore.Objects.Gguf.ModelMeta
import VeloCore.Objects.Metal.TensorParallel

open List

-- The sizes that the shapes of the tensors are given by
def ModelMeta.ofLoaded (m : ModelLoader.ModelMeta) : ModelMeta where
  nVocab  := m.nVocab
  nEmbd   := m.nEmbd
  nLayer  := m.nLayer
  nHead   := m.nHead
  nHeadKv := m.nHeadKv
  headDim := m.headDim
  nFf     := m.nFf

namespace ModelLoader

-- The data starts with the data section of the file.
structure WeightStore where
  modelMeta : ModelMeta
  index : Finmap fun _ : String => TensorInfo
  data : List UInt8

namespace WeightStore

variable (store : WeightStore)

def dims :=
  ModelMeta.ofLoaded store.modelMeta

def get (name : String) : Option (List UInt8) := do
  let info ← store.index.lookup name
  let start := info.offset.toNat
  let stop := start + info.nbytes.toNat
  if stop ≤ store.data.length then some ((store.data.take stop).drop start) else none

def require (name : String) : Eff σ LoadError (List UInt8) :=
  Eff.okOr (store.get name) (.missingTensor name)

def dtype (name : String) : Option GgmlType :=
  (store.index.lookup name).map fun info => info.dtype

def check (name : String) (expected : List Nat) : Except LoadError Unit :=
  match store.index.lookup name with
  | none      => .error (.missingTensor name)
  | some info =>
    if info.shape.map UInt64.toNat = expected then
      .ok ()
    else
      .error (.invalidShape name info.shape (toString expected))

-- The tensors in the order in which they are checked
def checked : List TensorName :=
  .tokenEmbd :: ((range store.modelMeta.nLayer).flatMap fun l =>
    [.attentionNorm, .wq, .wk, .wv, .wo, .ffnNorm, .w1, .w2, .w3].map (.layer l)) ++ [.outputNorm, .output]

def validate : Except LoadError Unit :=
  store.checked.forM fun name => store.check name.text (store.dims.shape name)

end WeightStore

-- Where the tensors end in the data section
def ends (file : GgufFile) : Multiset Nat :=
  file.tensors.entries.map fun e => e.2.offset.toNat + e.2.nbytes.toNat

def seek (position : Nat) : Eff Reader ε Unit :=
  Eff.modify fun r => { r with position }

def readTensor (cap : Capacity) (file : GgufFile) (name : String) : Eff Reader GgufError (List UInt8) := do
  let info ← Eff.okOr (file.tensors.lookup name) (.malformed s!"tensor not found: {name}")
  let start ← Eff.checked (file.dataOffset.toNat + info.offset.toNat)
  seek start.toNat
  Eff.reserve info.nbytes cap.bytes
  Reader.readExact .io info.nbytes.toNat

def readAllTensors (cap : Capacity) (file : GgufFile) : Eff Reader GgufError (List UInt8) :=
  if ∀ n ∈ ends file, n < 2 ^ 64 then do
    seek file.dataOffset.toNat
    Eff.reserve (.ofNat (ends file).sup) cap.bytes
    Reader.readExact .io (ends file).sup
  else
    Eff.panic

def loadGguf (cap : Capacity) : Eff Reader LoadError WeightStore := do
  let file ← Eff.zoom id (fun r _ => r) .gguf (GgufFile.read cap)
  let modelMeta ← fromGguf file
  let data ← Eff.zoom id (fun r _ => r) .gguf (readAllTensors cap file)
  let store : WeightStore := { modelMeta, index := file.tensors, data }
  Eff.call fun r => (store.validate.map fun _ => store, r)

end ModelLoader
