import VeloCore.Execution.Engine.Generate

open List

namespace VeloEngine

variable {R μ : Type} [MemoryRuntime R] [CfgMatcher μ]

-- What a program does to an engine: the calls that work with its memory, with any models, the slots
-- that it takes and gives back itself, and what it does to the cache by `cache_mut`. The parser factory
-- is a public field.
inductive Op (μ : Type) [CfgMatcher μ] : Type 1
  | prefill (prompt : List TokenId)
  | generate {δ τ : Type} [DraftModel μ δ] [TargetModel μ τ] (fuel : Nat) (prompt : List TokenId)
    (maxNewTokens : Nat) (models : Models δ τ)
  | generateBatch {δ τ : Type} [DraftModel μ δ] [TargetModel μ τ] (fuel : Nat) (requests : List BatchRequest)
    (models : Models δ τ)
  | allocateSlot
  | releaseSlot (slot : SlotId)
  | lookup (tokens : List TokenId)
  | setCapacityTokens (capacityTokens : Option Nat)
  | evictColdest (tokensToEvict : Nat)
  | setParserFactory (parserFactory : Option (Constraint → Option μ))

-- Runs a call of an engine that takes models as well.
def withModels {δ τ : Type} (x : Eff (Machine R μ δ τ) EngineError α) (models : Models δ τ) :
    Eff (VeloEngine R μ) EngineError α :=
  fun e => ((x ⟨e, models⟩).1, (x ⟨e, models⟩).2.engine)

namespace Op

def run : Op μ → Eff (VeloEngine R μ) EngineError Unit
  | prefill prompt => do
    let _ ← VeloEngine.prefill prompt
  | @generate _ _ _ _ _ _ fuel prompt maxNewTokens models => do
    let _ ← withModels (Machine.generate fuel prompt maxNewTokens) models
  | @generateBatch _ _ _ _ _ _ fuel requests models => do
    let _ ← withModels (Machine.generateBatch fuel requests) models
  | allocateSlot =>
    Eff.modify fun e => { e with slotPool := e.slotPool.alloc.2 }
  | releaseSlot slot =>
    VeloEngine.releaseSlot slot
  | lookup tokens => do
    let _ ← onCache (RadixCache.lookup tokens)
  | setCapacityTokens capacityTokens =>
    Eff.modify fun e => { e with prefixCache := e.prefixCache.setCapacityTokens capacityTokens }
  | evictColdest tokensToEvict =>
    Eff.modify fun e => { e with prefixCache := (e.prefixCache.evictColdest tokensToEvict).2 }
  | setParserFactory parserFactory =>
    Eff.modify fun e => { e with parserFactory }

-- The operation leaves the capacity and the entries of the cache to the engine.
def Uncapped : Op μ → Prop
  | setCapacityTokens _ | evictColdest _ => False
  | _ => True

-- One operation, up to its return.
def Step (P : Op μ → Prop) (e e' : VeloEngine R μ) : Prop :=
  ∃ op, P op ∧ Fault.Returned (op.run e).1 ∧ e' = (op.run e).2

end Op
end VeloEngine
