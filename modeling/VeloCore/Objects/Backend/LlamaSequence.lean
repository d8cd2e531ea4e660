import VeloCore.Objects.Backend.LlamaForward

open List

namespace ModelLoader

namespace KvCache

variable {φ : Type}

def advance (n : Nat) : Eff (KvCache φ) ε Unit :=
  Eff.modify fun kv => { kv with pos := kv.pos + n }

-- The caches hold the same keys and values at the positions before `n`.
def AgreeBelow (n : Nat) (kv kv' : KvCache φ) : Prop :=
  kv'.pos = kv.pos ∧
    (∀ l : Nat, kv'.k[l]?.map (take (n * (kv.nHeadKv * kv.headDim))) = kv.k[l]?.map (take (n * (kv.nHeadKv * kv.headDim)))) ∧
    ∀ l : Nat, kv'.v[l]?.map (take (n * (kv.nHeadKv * kv.headDim))) = kv.v[l]?.map (take (n * (kv.nHeadKv * kv.headDim)))

end KvCache

namespace WeightStore

variable {φ : Type} [F32 φ] (store : WeightStore)

def forwardFrom (pos : Nat) (lastLogits : List φ) : List TokenId → Eff (KvCache φ) LoadError (List φ)
  | []              => pure lastLogits
  | token :: tokens => do
    let lastLogits ← store.forwardOne token pos
    forwardFrom (pos + 1) lastLogits tokens

def forwardSequence (tokens : List TokenId) : Eff (KvCache φ) LoadError (List φ) := do
  let startPos := (← Eff.get).pos
  let lastLogits ← store.forwardFrom startPos [] tokens
  KvCache.advance tokens.length
  pure lastLogits

-- The methods of a model change its cache by passes, wherever they end, and by moving its position on.
inductive Reached : KvCache φ → Prop
  | new     : Reached (.new store.modelMeta.nLayer store.modelMeta.nHeadKv store.modelMeta.headDim store.modelMeta.nCtx)
  | pass    : Reached kv → ∀ token pos, Reached (store.forwardOne token pos kv).2
  | advance : Reached kv → ∀ n, Reached { kv with pos := kv.pos + n }

end WeightStore
end ModelLoader
