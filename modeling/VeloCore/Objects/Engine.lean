import VeloCore.Objects.Runtime
import VeloCore.Objects.RadixCache.Basic
import VeloCore.Objects.Speculative.Decoder

structure EngineConfig where
  draftWindow : Nat
  memory : MemoryRuntimeConfig
deriving DecidableEq, Repr

inductive EngineError
  | kvStore (error : KvStoreError)
  | pagedAttention (error : PageManagerError)
  | speculative (error : SpeculativeError)
deriving DecidableEq, Repr

-- A JSON schema is taken as its text.
inductive Constraint
  | regex (r : String)
  | jsonSchema (j : String)
  | lark (l : String)
deriving DecidableEq, Repr

structure EngineStats where
  cacheHitTokens : Nat
  cacheMissTokens : Nat
  speculative : SpeculativeStats
deriving DecidableEq, Repr

structure EngineOutput where
  tokens : List TokenId
  cachedPrefix : CacheLookup
  cachedPages : Option PageSpan
  insertedHandle : Option KvCacheHandle
  insertedPages : Option PageSpan
  stats : EngineStats
deriving DecidableEq, Repr

structure BatchRequest where
  prompt : List TokenId
  maxNewTokens : Nat
  constraint : Option Constraint
deriving DecidableEq, Repr

structure EnginePrefillOutput where
  cachedPrefix : CacheLookup
  cachedPages : Option PageSpan
  insertedHandle : Option KvCacheHandle
  insertedPages : Option PageSpan
  stats : EngineStats
deriving DecidableEq, Repr

structure ActiveRequest (μ : Type) where
  session : SpeculativeSession
  slotId : SlotId
  maxNewTokens : Nat
  generated : List TokenId
  prefill : EnginePrefillOutput
  matcher : Option μ

-- The parser factory belongs to a library: it makes a matcher for a constraint, or fails to.
structure VeloEngine (R μ : Type) where
  decoder : SpeculativeDecoder
  prefixCache : RadixCache
  runtime : R
  slotPool : SlotPool
  parserFactory : Option (Constraint → Option μ)

namespace VeloEngine

def withRuntime (config : EngineConfig) (runtime : R) : Except EngineError (VeloEngine R μ) :=
  match SpeculativeDecoder.new config.draftWindow with
  | .error error => .error (.speculative error)
  | .ok decoder =>
    .ok {
      decoder
      prefixCache := .new
      runtime
      slotPool := .new config.memory.maxSlots
      parserFactory := none }

def new (config : EngineConfig) : Except EngineError (VeloEngine CpuMemoryRuntime μ) :=
  match CpuMemoryRuntime.new config.memory with
  | .error error => .error (.pagedAttention error)
  | .ok runtime  => withRuntime config runtime

end VeloEngine
