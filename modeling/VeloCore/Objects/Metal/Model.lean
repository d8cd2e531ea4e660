import VeloCore.Objects.Backend.LlamaOps

open List

inductive Scratch
  | hiddenState
  | q
  | k
  | v
  | attnOut
  | attnOutProj
  | mlpIn
  | mlpGate
  | mlpUp
  | mlpOut
  | logits
deriving DecidableEq, Repr

-- What a model leaves in the memory of the device: the scratch buffers, the rows of its slot in the two pools, which all
-- layers share, and beside them the rows that were written there one after another.
structure MetalMemory (φ : Type) where
  scratch : Scratch → List φ
  rows : Nat → List φ × List φ
  written : List (Nat × List φ × List φ)

namespace MetalMemory

variable {φ τ : Type} (ops : LlamaOps φ τ) (mem : MetalMemory φ)

def set (buf : Scratch) (x : List φ) : MetalMemory φ :=
  { mem with scratch := Function.update mem.scratch buf x }

def dispatchRmsNorm (out input : Scratch) (w : τ) : MetalMemory φ :=
  mem.set out (ops.rmsNorm w (mem.scratch input))

def dispatchMatvec (out x : Scratch) (w : τ) : MetalMemory φ :=
  mem.set out (ops.matvec w (mem.scratch x))

def dispatchRope (pos : Nat) : MetalMemory φ :=
  let rotated := ops.rope pos (mem.scratch .q) (mem.scratch .k)
  (mem.set .q rotated.1).set .k rotated.2

def dispatchKvUpdate (pos : Nat) : MetalMemory φ :=
  let row := (mem.scratch .k, mem.scratch .v)
  { mem with rows := Function.update mem.rows pos row, written := mem.written ++ [(pos, row)] }

def dispatchPagedAttention (pos : Nat) : MetalMemory φ :=
  mem.set .attnOut (ops.attention (mem.scratch .q) ((range (pos + 1)).map mem.rows))

def dispatchVecAdd (x y : Scratch) : MetalMemory φ :=
  mem.set x (ops.vecAdd (mem.scratch x) (mem.scratch y))

def dispatchSiluMul (gate up : Scratch) : MetalMemory φ :=
  let mem := mem.set gate (ops.silu (mem.scratch gate))
  mem.set gate (ops.vecMul (mem.scratch gate) (mem.scratch up))

end MetalMemory

namespace LlamaMetalModel

variable {φ τ : Type} (ops : LlamaOps φ τ) (weights : WeightStore τ)

-- `if let Some(w) = self.weights.get(..)`
def whenLoaded (name : TensorName) (mem : MetalMemory φ) (dispatch : MetalMemory φ → τ → MetalMemory φ) : MetalMemory φ :=
  match weights name with
  | none   => mem
  | some w => dispatch mem w

-- The norm is written over the hidden state.
def attentionBlock (l pos : Nat) (mem : MetalMemory φ) : MetalMemory φ :=
  let mem := whenLoaded weights (.layer l .attentionNorm) mem (·.dispatchRmsNorm ops .hiddenState .hiddenState)
  let mem := whenLoaded weights (.layer l .wq) mem (·.dispatchMatvec ops .q .hiddenState)
  let mem := whenLoaded weights (.layer l .wk) mem (·.dispatchMatvec ops .k .hiddenState)
  let mem := whenLoaded weights (.layer l .wv) mem (·.dispatchMatvec ops .v .hiddenState)
  let mem := mem.dispatchRope ops pos
  let mem := mem.dispatchKvUpdate pos
  let mem := mem.dispatchPagedAttention ops pos
  whenLoaded weights (.layer l .wo) mem fun mem w =>
    let mem := mem.dispatchMatvec ops .attnOutProj .attnOut w
    mem.dispatchVecAdd ops .hiddenState .attnOutProj

def mlpBlock (l : Nat) (mem : MetalMemory φ) : MetalMemory φ :=
  whenLoaded weights (.layer l .ffnNorm) mem fun mem w =>
    let mem := mem.dispatchRmsNorm ops .mlpIn .hiddenState w
    let mem := whenLoaded weights (.layer l .w1) mem (·.dispatchMatvec ops .mlpGate .mlpIn)
    let mem := whenLoaded weights (.layer l .w3) mem (·.dispatchMatvec ops .mlpUp .mlpIn)
    let mem := mem.dispatchSiluMul ops .mlpGate .mlpUp
    whenLoaded weights (.layer l .w2) mem fun mem w =>
      let mem := mem.dispatchMatvec ops .mlpOut .mlpGate w
      mem.dispatchVecAdd ops .hiddenState .mlpOut

def layer (pos : Nat) (mem : MetalMemory φ) (l : Nat) : MetalMemory φ :=
  mlpBlock ops weights l (attentionBlock ops weights l pos mem)

def forward (nLayer : Nat) (token : TokenId) (pos : Nat) (mem : MetalMemory φ) : MetalMemory φ :=
  let mem := whenLoaded weights .tokenEmbd mem fun mem w => mem.set .hiddenState (ops.embeddingRow w token)
  let mem := (range nLayer).foldl (layer ops weights pos) mem
  let mem := whenLoaded weights .outputNorm mem (·.dispatchRmsNorm ops .hiddenState .hiddenState)
  whenLoaded weights .output mem (·.dispatchMatvec ops .logits .hiddenState)

-- The logits are copied from their buffer, whoever filled it.
def run (nLayer : Nat) (token : TokenId) (pos : Nat) (mem : MetalMemory φ) : List φ × MetalMemory φ :=
  let mem := forward ops weights nLayer token pos mem
  (mem.scratch .logits, mem)

end LlamaMetalModel
