import VeloCore.Objects.Backend.LlamaCpu

open List

inductive LayerTensor
  | attentionNorm
  | wq
  | wk
  | wv
  | wo
  | ffnNorm
  | w1
  | w2
  | w3
deriving DecidableEq, Repr

inductive TensorName
  | tokenEmbd
  | layer (l : Nat) (t : LayerTensor)
  | outputNorm
  | output
deriving DecidableEq, Repr

namespace LayerTensor

def text : LayerTensor → String
  | attentionNorm => "attention_norm"
  | wq            => "attention.wq"
  | wk            => "attention.wk"
  | wv            => "attention.wv"
  | wo            => "attention.wo"
  | ffnNorm       => "ffn_norm"
  | w1            => "feed_forward.w1"
  | w2            => "feed_forward.w2"
  | w3            => "feed_forward.w3"

end LayerTensor

namespace TensorName

def text : TensorName → String
  | tokenEmbd  => "token_embd.weight"
  | layer l t  => s!"layers.{l}.{t.text}.weight"
  | outputNorm => "output_norm.weight"
  | output     => "output.weight"

end TensorName

-- The numeric primitives of a LLaMA model. `φ` is `f32`, and `τ` is a tensor.
structure LlamaOps (φ τ : Type) where
  embeddingRow : τ → TokenId → List φ
  rmsNorm : τ → List φ → List φ
  matvec : τ → List φ → List φ
  rope : Nat → List φ → List φ → List φ × List φ
  attention : List φ → List (List φ × List φ) → List φ
  silu : List φ → List φ
  vecMul : List φ → List φ → List φ
  vecAdd : List φ → List φ → List φ

-- The tensors that are loaded.
abbrev WeightStore (τ : Type) :=
  TensorName → Option τ

namespace WeightStore

variable {φ τ : Type} (ops : LlamaOps φ τ) (weights : WeightStore τ)

def require (name : TensorName) : Except String τ :=
  match weights name with
  | none        => .error s!"missing tensor: {name.text}"
  | some tensor => .ok tensor

-- The query, the key and the value of a position, before the rotation
def projectQkv (l : Nat) (x : List φ) : Except String (List φ × List φ × List φ) := do
  let normW ← weights.require (.layer l .attentionNorm)
  let xb := ops.rmsNorm normW x
  let wq ← weights.require (.layer l .wq)
  let wk ← weights.require (.layer l .wk)
  let wv ← weights.require (.layer l .wv)
  pure (ops.matvec wq xb, ops.matvec wk xb, ops.matvec wv xb)

def project (l : Nat) (x : List φ) (pos : Nat) : Except String (List φ × List φ) := do
  let (q, k, v) ← weights.projectQkv ops l x
  pure ((ops.rope pos q k).2, v)

def ffn (l : Nat) (x : List φ) : Except String (List φ) := do
  let ffnNormW ← weights.require (.layer l .ffnNorm)
  let xb2 := ops.rmsNorm ffnNormW x
  let w1 ← weights.require (.layer l .w1)
  let w3 ← weights.require (.layer l .w3)
  let gate := ops.vecMul (ops.silu (ops.matvec w1 xb2)) (ops.matvec w3 xb2)
  let w2 ← weights.require (.layer l .w2)
  pure (ops.vecAdd x (ops.matvec w2 gate))

def attend (l : Nat) (x : List φ) (pos : Nat) (rows : List (List φ × List φ)) : Except String (List φ) := do
  let (q, k, _) ← weights.projectQkv ops l x
  let xAttn := ops.attention (ops.rope pos q k).1 rows
  let wo ← weights.require (.layer l .wo)
  weights.ffn ops l (ops.vecAdd x (ops.matvec wo xAttn))

-- The head may be tied to the embedding.
def head (x : List φ) : Except String (List φ) := do
  let outNormW ← weights.require .outputNorm
  let xb := ops.rmsNorm outNormW x
  let lmHead ← weights.require (if (weights .output).isSome then .output else .tokenEmbd)
  pure (ops.matvec lmHead xb)

def embed (token : TokenId) : Except String (List φ) := do
  let embd ← weights.require .tokenEmbd
  pure (ops.embeddingRow embd token)

def toLlama (nLayer nCtx : Nat) : LlamaWeights φ (List φ) (List φ × List φ) where
  nLayer
  nCtx
  embed := weights.embed ops
  project := weights.project ops
  attend := weights.attend ops
  head := weights.head ops

end WeightStore
