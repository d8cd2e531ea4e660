import VeloCore.Objects.Engine

open List

namespace VeloEngine

variable {R μ : Type} [MemoryRuntime R]

open MemoryRuntime

-- The parts of the engine that an operation works on

def onCache (x : Eff RadixCache Empty α) : Eff (VeloEngine R μ) EngineError α :=
  Eff.zoom prefixCache (fun c e => { e with prefixCache := c }) nofun x

def onStore (f : Store R → Except KvStoreError α × Store R) : Eff (VeloEngine R μ) EngineError α :=
  Eff.zoom (store ·.runtime) (fun s e => { e with runtime := setStore s e.runtime }) .kvStore (Eff.call f)

def onAllocator (f : PagedAttentionBlockManager → Except PageManagerError α × PagedAttentionBlockManager) :
    Eff (VeloEngine R μ) EngineError α :=
  Eff.zoom (allocator ·.runtime) (fun a e => { e with runtime := setAllocator a e.runtime })
    .pagedAttention (Eff.call f)

def bindSlot (slot : SlotId) (pages : List UInt32) : Eff (VeloEngine R μ) EngineError Unit :=
  Eff.zoom runtime (fun r e => { e with runtime := r }) .speculative
    (Eff.call (MemoryRuntime.bindSlot slot pages))

-- `ok_or_else` with the message of the caller.
def allocateSlot (message : String) : Eff (VeloEngine R μ) EngineError SlotId :=
  fun e =>
    match e.slotPool.alloc with
    | (some slot, pool) => (.ok slot, { e with slotPool := pool })
    | (none, pool)      => (.error (.err (.speculative (.model message))), { e with slotPool := pool })

def releaseSlot (slot : SlotId) : Eff (VeloEngine R μ) EngineError Unit :=
  fun e =>
    match e.slotPool.release slot with
    | some pool => (.ok (), { e with slotPool := pool })
    | none      => (.error .panic, e)

section Parts

variable {e : VeloEngine R μ}

omit [MemoryRuntime R] in
theorem onCache_ok {x : Eff RadixCache Empty α} (h : x e.prefixCache = (.ok a, c)) :
    onCache x e = (.ok a, { e with prefixCache := c }) :=
  Eff.zoom_ok h

theorem onStore_ok {f : Store R → Except KvStoreError α × Store R} (h : f (store e.runtime) = (.ok a, s)) :
    onStore f e = (.ok a, { e with runtime := setStore s e.runtime }) :=
  Eff.zoom_ok (Eff.call_ok h)

theorem onStore_error {f : Store R → Except KvStoreError α × Store R}
    (h : f (store e.runtime) = (.error err, s)) :
    onStore f e = (.error (.err (.kvStore err)), { e with runtime := setStore s e.runtime }) := by
  simp [onStore, Eff.zoom, Eff.call_error h]

variable {f : PagedAttentionBlockManager → Except PageManagerError α × PagedAttentionBlockManager}

theorem onAllocator_ok (h : f (allocator e.runtime) = (.ok a, m)) :
    onAllocator f e = (.ok a, { e with runtime := setAllocator m e.runtime }) :=
  Eff.zoom_ok (Eff.call_ok h)

theorem onAllocator_error (h : f (allocator e.runtime) = (.error err, m)) :
    onAllocator f e = (.error (.err (.pagedAttention err)), { e with runtime := setAllocator m e.runtime }) := by
  simp [onAllocator, Eff.zoom, Eff.call_error h]

end Parts

-- Saves a sequence of tokens. The block is given back when there are no pages for it; an entry that
-- was replaced is released in the store and in the allocator.
def cacheSequence (tokens : List TokenId) : Eff (VeloEngine R μ) EngineError KvCacheHandle := do
  let handle ← onStore (KvBlockStore.allocate tokens.length)
  match ← Eff.attempt (onAllocator (·.allocate handle tokens.length)) with
  | .error error => do
    onStore (KvBlockStore.release handle)
    Eff.throw error
  | .ok _ => do
    let inserted ← onCache (RadixCache.insert tokens handle)
    match inserted.replaced with
    | some replaced => do
      onStore (KvBlockStore.release replaced)
      onAllocator (·.release replaced)
      pure handle
    | none => pure handle

-- `if .. { Some(self.cache_sequence(..)?) } else { None }`
def cacheSequenceIf (p : Prop) [Decidable p] (tokens : List TokenId) :
    Eff (VeloEngine R μ) EngineError (Option KvCacheHandle) :=
  if p then do
    let handle ← cacheSequence tokens
    pure (some handle)
  else
    pure none

def prefill (prompt : List TokenId) : Eff (VeloEngine R μ) EngineError EnginePrefillOutput := do
  let cachedPrefix ← onCache (RadixCache.lookup prompt)
  let insertedHandle ← cacheSequenceIf (prompt ≠ [] ∧ cachedPrefix.matchedTokens < prompt.length) prompt
  let allocator := MemoryRuntime.allocator (← Eff.get).runtime
  pure {
    cachedPages := cachedPrefix.handle.bind allocator.materializeSpan
    insertedPages := insertedHandle.bind allocator.materializeSpan
    stats := {
      cacheHitTokens := cachedPrefix.matchedTokens
      cacheMissTokens := prompt.length - cachedPrefix.matchedTokens
      speculative := {} }
    cachedPrefix
    insertedHandle }

end VeloEngine
