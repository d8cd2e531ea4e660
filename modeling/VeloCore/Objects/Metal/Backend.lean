import VeloCore.Objects.Metal.Runtime
import VeloCore.Objects.Backend.Basic
import VeloCore.Primitives.Eff

open List

-- The part of `MetalBackendConfig` that the calls read.
structure MetalBackendConfig where
  kvBytesPerToken : Nat
  pagedBlockSize : Nat
deriving DecidableEq, Repr

-- `wire` sets the allocator, the store and the page table to those of a runtime, which the backend shares
-- with the engine from then on. A model is known by its address.
structure MetalBackend where
  config : MetalBackendConfig
  boundPrefix : Option CacheLookup
  model : Option Nat
  allocator : Bool
  store : Bool
  slotId : Option SlotId
  slotMapping : Bool

-- What the GPU does: `run` takes a model, a token and a position, a slot and the page table, the number
-- and the size of the pages, and the contents `κ` of the two pools.
structure MetalDevice (κ φ : Type) where
  run : Nat → TokenId → Nat → SlotId → (Nat → UInt32) → Nat → Nat → κ → Except SpeculativeError (List φ) × κ

-- What a call of the backend works on.
structure MetalState (κ : Type) where
  backend : MetalBackend
  runtime : MetalMemoryRuntime
  pools : κ

namespace MetalBackend

variable {κ φ : Type}

def bindPrefixCache (cachedPrefix : CacheLookup) (b : MetalBackend) : Except SpeculativeError Unit × MetalBackend :=
  (.ok (), { b with boundPrefix := some cachedPrefix })

def bindSlot (slot : SlotId) (b : MetalBackend) : Except SpeculativeError Unit × MetalBackend :=
  (.ok (), { b with slotId := some slot })

def switchModel (name : String) (pool : ModelPool) (b : MetalBackend) : Except SpeculativeError Unit × MetalBackend :=
  match pool.lookup name with
  | none       => (.error (.model s!"Model {name} not found in pool"), b)
  | some model => (.ok (), { b with model := some model })

def notInitialized : SpeculativeError :=
  .model "Metal backend skeleton is not wired to model weights or kernels yet"

-- `ok_or_else` and `let .. else`
def expect (x : Option α) (error : SpeculativeError) : Eff σ SpeculativeError α :=
  Eff.call fun s => (x.elim (.error error) .ok, s)

def expectWired (x : Bool) (message : String) : Eff σ SpeculativeError Unit :=
  expect (if x then some () else none) (.model message)

-- `n / m` of two `usize`s
def divide (n m : Nat) : Eff σ ε Nat :=
  if m = 0 then Eff.panic else pure (n / m)

-- The blocks behind the pages of a span are looked up by the numbers of the pages. Only an error or a
-- panic comes of it: the indices are not used.
def blockIndices (store : MetalKvStore) (pageBytes : Nat) : List PageId → Eff σ SpeculativeError (List UInt32)
  | [] => pure []
  | page :: pages => do
    let block ← expect (store.getBlock { blockId := page, tokenLen := 0 })
      (.model s!"Block PageId({page}) not found in store")
    let index ← divide block.offset pageBytes
    let rest ← blockIndices store pageBytes pages
    pure (UInt32.ofNat index :: rest)

-- The prefix that is bound, as far as it has a handle.
def prefixHandle (b : MetalBackend) : Eff σ SpeculativeError KvCacheHandle := do
  let cachedPrefix ← expect b.boundPrefix (.model "No prefix bound")
  expect cachedPrefix.handle (.model "Prefix has no KV handle")

def materialize (handle : KvCacheHandle) : Eff (MetalState κ) SpeculativeError Unit := do
  let s ← Eff.get
  let span ← expect (s.runtime.allocator.materializeSpan handle)
    (.model s!"Could not materialize span for prefix KvCacheHandle \x7b block_id: {handle.blockId}, token_len: {handle.tokenLen} \x7d")
  let _ ← blockIndices s.runtime.store (s.backend.config.pagedBlockSize * s.backend.config.kvBytesPerToken) span.pages
  pure ()

variable (g : MetalDevice κ φ)

def run (model : Nat) (token : TokenId) (pos : Nat) (slot : SlotId) : Eff (MetalState κ) SpeculativeError (TokenLogits φ) := do
  let logits ← Eff.call fun s =>
    match g.run model token pos slot s.runtime.slotMapping s.runtime.allocator.config.totalPages
        s.backend.config.pagedBlockSize s.pools with
    | (res, pools) => (res, { s with pools })
  Eff.call fun s => (TokenLogits.new logits, s)

def nextLogits (context : List TokenId) : Eff (MetalState κ) SpeculativeError (TokenLogits φ) := do
  let b := (← Eff.get).backend
  let model ← expect b.model notInitialized
  expectWired b.allocator "Allocator not wired"
  expectWired b.store "Store not wired"
  let last ← expect context.getLast? (.model "next_logits called with empty context")
  let handle ← prefixHandle b
  materialize handle
  let slot ← expect b.slotId (.model "Slot not bound")
  expectWired b.slotMapping "Slot mapping not wired"
  run g model last (context.length - 1) slot

def verifyFrom (model : Nat) (slot : SlotId) (pos : Nat) : List TokenId → Eff (MetalState κ) SpeculativeError (List (TokenLogits φ))
  | [] => pure []
  | token :: drafted => do
    let logits ← run g model token pos slot
    let rest ← verifyFrom model slot (pos + 1) drafted
    pure (logits :: rest)

def verifyLogits (context drafted : List TokenId) : Eff (MetalState κ) SpeculativeError (List (TokenLogits φ)) := do
  let b := (← Eff.get).backend
  let model ← expect b.model notInitialized
  expectWired b.allocator "Allocator not wired"
  expectWired b.store "Store not wired"
  let handle ← prefixHandle b
  materialize handle
  let slot ← expect b.slotId (.model "Slot not bound")
  expectWired b.slotMapping "Slot mapping not wired"
  verifyFrom g model slot context.length drafted

end MetalBackend
