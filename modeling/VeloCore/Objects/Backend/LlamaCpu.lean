import VeloCore.Objects.Backend.Basic

open List

variable {φ X K : Type}

-- What `forward_one` computes of the weights. A tensor that is missing is a `LoadError`, which is taken
-- as its text. `X` is the hidden state, `K` is a row of keys and values, and `φ` is `f32`.
structure LlamaWeights (φ X K : Type) where
  nLayer : Nat
  nCtx : Nat
  embed : TokenId → Except String X
  project : Nat → X → Nat → Except String K
  attend : Nat → X → Nat → List K → Except String X
  head : X → Except String (List φ)

-- `n_ctx` rows for each layer.
structure LlamaKvCache (K : Type) where
  rows : Nat → Nat → K
  pos : Nat

namespace LlamaKvCache

def new [Inhabited K] : LlamaKvCache K where
  rows _ _ := default
  pos := 0

def store (layer pos : Nat) (row : K) (kv : LlamaKvCache K) : LlamaKvCache K :=
  { kv with rows := Function.update kv.rows layer (Function.update (kv.rows layer) pos row) }

end LlamaKvCache

-- The weights of a model stay as they are, so its state is the cache.
namespace LlamaCpuModel

section Forward

variable (w : LlamaWeights φ X K) (pos : Nat)

def load (x : Except String α) : Eff (LlamaKvCache K) String α :=
  Eff.call fun kv => (x, kv)

-- Panics when there is no such row.
def storeKv (layer : Nat) (row : K) : Eff (LlamaKvCache K) String Unit :=
  if pos < w.nCtx then
    Eff.modify (LlamaKvCache.store layer pos row)
  else
    Eff.panic

-- A layer attends to the rows up to the one that it has just stored.
def forwardLayer (layer : Nat) (x : X) : Eff (LlamaKvCache K) String X := do
  let row ← load (w.project layer x pos)
  storeKv w pos layer row
  let kv ← Eff.get
  load (w.attend layer x pos ((range (pos + 1)).map (kv.rows layer)))

def forwardLayers : List Nat → X → Eff (LlamaKvCache K) String X
  | [], x => pure x
  | layer :: layers, x => do
    let x ← forwardLayer w pos layer x
    forwardLayers layers x

def forwardOne (token : TokenId) : Eff (LlamaKvCache K) String (List φ) := do
  let x ← load (w.embed token)
  let x ← forwardLayers w pos (range w.nLayer) x
  load (w.head x)

end Forward

variable (w : LlamaWeights φ X K)

def advance (n : Nat) : Eff (LlamaKvCache K) ε Unit :=
  Eff.modify fun kv => { kv with pos := kv.pos + n }

def forwardFrom (pos : Nat) (lastLogits : List φ) : List TokenId → Eff (LlamaKvCache K) String (List φ)
  | [] => pure lastLogits
  | token :: tokens => do
    let logits ← forwardOne w pos token
    forwardFrom (pos + 1) logits tokens

def forwardSequence (tokens : List TokenId) : Eff (LlamaKvCache K) String (List φ) := do
  let startPos := (← Eff.get).pos
  let lastLogits ← forwardFrom w startPos [] tokens
  advance tokens.length
  pure lastLogits

-- `map_err` and `?`
def forwardOne' (pos : Nat) (token : TokenId) : Eff (LlamaKvCache K) SpeculativeError (List φ) :=
  Eff.zoom id (fun kv _ => kv) .model (forwardOne w pos token)

def nextLogits (context : List TokenId) : Eff (LlamaKvCache K) SpeculativeError (TokenLogits φ) :=
  match context.getLast? with
  | none => Eff.throw (.model "next_logits called with empty context")
  | some last => do
    let pos := (← Eff.get).pos
    let logits ← forwardOne' w pos last
    advance 1
    Eff.call fun kv => (TokenLogits.new logits, kv)

def verifyFrom (pos : Nat) : List TokenId → Eff (LlamaKvCache K) SpeculativeError (List (TokenLogits φ))
  | [] => pure []
  | token :: drafted => do
    let logits ← forwardOne' w pos token
    let logits ← Eff.call fun kv => (TokenLogits.new logits, kv)
    let rest ← verifyFrom (pos + 1) drafted
    pure (logits :: rest)

-- The context is not looked at.
def verifyLogits (_context drafted : List TokenId) : Eff (LlamaKvCache K) SpeculativeError (List (TokenLogits φ)) := do
  let basePos := (← Eff.get).pos
  let result ← verifyFrom w basePos drafted
  advance drafted.length
  pure result

-- A call of the backend.
inductive Call
  | next (context : List TokenId)
  | verify (context drafted : List TokenId)

namespace Call

def run : Call → Eff (LlamaKvCache K) SpeculativeError (List (TokenLogits φ))
  | next context => do
    let logits ← nextLogits w context
    pure [logits]
  | verify context drafted => verifyLogits w context drafted

-- The tokens that the call runs the model on.
def fed : Call → List TokenId
  | next context     => context.getLast?.toList
  | verify _ drafted => drafted

end Call

-- The caches that calls leave behind, with the tokens that the model was fed before the position of the
-- cache. A call that fails does not move the position on, unless it fails for want of logits.
inductive Reached [Inhabited K] : List TokenId → LlamaKvCache K → Prop
  | new  : Reached [] .new
  | call : Reached fed kv → ∀ c : Call, Fault.Returned (c.run w kv).1 →
    Reached (if (c.run w kv).2.pos = kv.pos then fed else fed ++ c.fed) (c.run w kv).2

-- The logits of `forward_sequence` on a fresh model.
def FreshLogits [Inhabited K] (context : List TokenId) (logits : TokenLogits φ) : Prop :=
  (forwardSequence w context .new).1 = .ok logits.values

end LlamaCpuModel
