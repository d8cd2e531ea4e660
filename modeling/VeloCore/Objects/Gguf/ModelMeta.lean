import VeloCore.Objects.Gguf.File

open List

inductive Quantization
  | q4_0
  | q4K
  | f32
  | f16
  | q8K
deriving DecidableEq, Repr

inductive LoadError
  | gguf (e : GgufError)
  | missingMeta (key : String)
  | missingTensor (name : String)
  | invalidShape (tensor : String) (got : List UInt64) (expected : String)
deriving DecidableEq, Repr

namespace ModelLoader

-- The sizes are of `usize`, and the last two numbers are the bits of an `f32`.
structure ModelMeta where
  arch : String
  nVocab : Nat
  nEmbd : Nat
  nLayer : Nat
  nHead : Nat
  nHeadKv : Nat
  nCtx : Nat
  nFf : Nat
  headDim : Nat
  ropeFreqBase : UInt32
  normEps : UInt32
  quantization : Quantization
deriving DecidableEq, Repr

section Fields

variable (file : GgufFile)

def arch : String :=
  ((file.metadata.lookup "general.architecture").bind GgufValue.asStr).getD "llama"

def fieldU32 (key : String) : Option UInt32 :=
  (file.metadata.lookup key).bind GgufValue.asU32

def fieldF32 (key : String) : Option UInt32 :=
  (file.metadata.lookup key).bind GgufValue.asF32

def require (key : String) : Eff σ LoadError UInt32 :=
  Eff.okOr (fieldU32 file key) (.missingMeta key)

-- The number of tokens, or else the size that is given
def vocabSize : Option Nat :=
  (((file.metadata.lookup "tokenizer.ggml.tokens").bind GgufValue.asArray).map length).or
    ((fieldU32 file s!"{arch file}.vocab_size").map UInt32.toNat)

-- The type of one tensor decides about the model.
def inferQuantization : Quantization :=
  let probe := (file.tensors.lookup "blk.0.attn_q.weight").or (file.tensors.lookup "token_embd.weight")
  match probe.map fun info : TensorInfo => info.dtype with
  | some .q4K => .q4K
  | _         => .q4_0

end Fields

-- `n_embd / n_head`
def divide (n d : Nat) : Eff σ ε Nat :=
  if d = 0 then Eff.panic else pure (n / d)

def fromGguf (file : GgufFile) : Eff σ LoadError ModelMeta := do
  let nVocab ← Eff.okOr (vocabSize file) (.missingMeta "vocab_size")
  let nEmbd ← require file s!"{arch file}.embedding_length"
  let nLayer ← require file s!"{arch file}.block_count"
  let nHead ← require file s!"{arch file}.attention.head_count"
  let nFf ← require file s!"{arch file}.feed_forward_length"
  let headDim ← divide nEmbd.toNat nHead.toNat
  pure {
    arch         := arch file
    nVocab
    nEmbd        := nEmbd.toNat
    nLayer       := nLayer.toNat
    nHead        := nHead.toNat
    nHeadKv      := ((fieldU32 file s!"{arch file}.attention.head_count_kv").getD nHead).toNat
    nCtx         := ((fieldU32 file s!"{arch file}.context_length").getD 4096).toNat
    nFf          := nFf.toNat
    headDim
    ropeFreqBase := (fieldF32 file s!"{arch file}.rope.freq_base").getD 0x461C4000
    normEps      := (fieldF32 file s!"{arch file}.attention.layer_norm_rms_epsilon").getD 0x3727C5AC
    quantization := inferQuantization file
  }

-- The first two steps of `load_gguf`
def loadMeta (cap : Capacity) : Eff Reader LoadError ModelMeta := do
  let file ← Eff.zoom id (fun r _ => r) .gguf (GgufFile.read cap)
  fromGguf file

end ModelLoader
