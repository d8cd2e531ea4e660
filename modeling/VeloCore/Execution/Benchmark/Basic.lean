import VeloCore.Execution.Engine.Generate
import VeloCore.Objects.Backend.Mock

open List

inductive BenchmarkMode
  | promptProcessing
  | generation
  | promptPlusGeneration
deriving DecidableEq, Repr

-- What the runs of a benchmark read of its configuration.
structure BenchmarkConfig where
  mode : BenchmarkMode
  promptLen : Nat
  genLen : Nat
  cachedDepth : Nat
deriving DecidableEq, Repr

-- The measured energy is always `None`, and the estimates of bandwidth and throughput are left out.
structure BenchmarkSample where
  elapsedNs : Nat
  ttftNs : Option Nat
  tokens : Nat
  cacheHitTokens : Nat
  cacheMissTokens : Nat
  speculative : SpeculativeStats
deriving DecidableEq, Repr

-- What the clocks show: the one of the sample at its end, and that of the generation when so many tokens are there.
structure BenchmarkClock where
  sample : Nat
  generation : Nat → Nat

structure GenerationTrace where
  ttftNs : Option Nat
  output : EngineOutput

namespace BenchmarkConfig

-- The lengths are narrowed by `as TokenId`.
def promptTokens (config : BenchmarkConfig) : List TokenId :=
  (range (config.promptLen % 2 ^ 32)).map UInt32.ofNat

def scriptTokens (config : BenchmarkConfig) : List TokenId :=
  (range ((config.promptLen + config.genLen + 16) % 2 ^ 32)).map UInt32.ofNat

end BenchmarkConfig

namespace Benchmark

section Generation

variable {R μ δ τ : Type} [MemoryRuntime R] [DraftModel μ δ] [TargetModel μ τ]

-- One iteration of the `while` loop, over the session, the tokens generated so far and the time to the first of them.
def iteration (elapsed : Nat → Nat) (maxNewTokens : Nat) (v : SpeculativeSession × List TokenId × Option Nat) :
    Eff (Models δ τ) SpeculativeError
      ((SpeculativeSession × List TokenId × Option Nat) ⊕ (SpeculativeSession × List TokenId × Option Nat)) :=
  let (session, generated, ttftNs) := v
  if generated.length < maxNewTokens then
    fun m =>
      match session.draft (maxNewTokens - generated.length) m with
      | (.error e, _, m) => (.error (.err e), m)
      | (.ok drafted, session, m) =>
        if drafted.isEmpty && !session.hasPendingRejection then
          (.ok (.inr (session, generated, ttftNs)), m)
        else
          let ttftNs := if ttftNs.isNone && !drafted.isEmpty then some (elapsed generated.length) else ttftNs
          let generated := generated ++ drafted
          if !session.hasPendingRejection then
            (.ok (.inl (session, generated, ttftNs)), m)
          else
            match session.takeRejectedToken with
            | (some token, session) =>
              let ttftNs := if ttftNs.isNone then some (elapsed generated.length) else ttftNs
              (.ok (.inl (session, generated ++ [token], ttftNs)), m)
            | (none, session) => (.ok (.inl (session, generated, ttftNs)), m)
  else
    pure (.inr (session, generated, ttftNs))

def runGenerationWithTtft (elapsed : Nat → Nat) (fuel : Nat) (prompt : List TokenId) (maxNewTokens : Nat) :
    Eff (Machine R μ δ τ) EngineError GenerationTrace := do
  let cachedPrefix ← Machine.onEngine (VeloEngine.prefill prompt)
  Machine.onModels (Models.onDraft (DraftModel.bindPrefixCache cachedPrefix.cachedPrefix))
  Machine.onModels (Models.onTarget (TargetModel.bindPrefixCache cachedPrefix.cachedPrefix))
  let session := (← Eff.get).engine.decoder.begin prompt
  let (session, generated, ttftNs) ← Machine.onModels (Eff.loop (iteration elapsed maxNewTokens) fuel (session, [], none))
  pure {
    ttftNs
    output := {
      tokens := generated
      cachedPrefix := cachedPrefix.cachedPrefix
      cachedPages := cachedPrefix.cachedPages
      insertedHandle := none
      insertedPages := none
      stats := {
        cacheHitTokens := cachedPrefix.stats.cacheHitTokens
        cacheMissTokens := cachedPrefix.stats.cacheMissTokens
        speculative := session.stats } } }

end Generation

variable {φ μ : Type} [Logit φ] [Zero φ] [One φ] [CfgMatcher μ]

abbrev MockMachine (φ μ : Type) : Type :=
  Machine CpuMemoryRuntime μ (GreedyDraftModel μ (MockBackend φ)) (GreedyTargetModel μ (MockBackend φ))

def promptSlice (config : BenchmarkConfig) : List TokenId :=
  if 0 < config.cachedDepth then
    config.promptTokens.take (min config.cachedDepth config.promptTokens.length)
  else
    []

-- The prompt is put into the cache as far as it shall be found there.
def cachePromptSlice (config : BenchmarkConfig) : Eff (MockMachine φ μ) EngineError Unit :=
  if promptSlice config ≠ [] then do
    let _ ← Machine.onEngine (VeloEngine.prefill (promptSlice config))
    pure ()
  else
    pure ()

-- `run_single_case` after the engine is made. The models of the modes that generate are made before that.
def measure (clock : BenchmarkClock) (fuel : Nat) (config : BenchmarkConfig) :
    Eff (MockMachine φ μ) EngineError BenchmarkSample := do
  cachePromptSlice config
  if config.mode = .promptProcessing then
    let prefill ← Machine.onEngine (VeloEngine.prefill config.promptTokens)
    pure {
      elapsedNs := clock.sample
      ttftNs := none
      tokens := config.promptLen
      cacheHitTokens := prefill.stats.cacheHitTokens
      cacheMissTokens := prefill.stats.cacheMissTokens
      speculative := prefill.stats.speculative }
  else
    let trace ← runGenerationWithTtft clock.generation fuel config.promptTokens config.genLen
    pure {
      elapsedNs := clock.sample
      ttftNs := trace.ttftNs
      tokens := if config.mode = .generation then config.genLen else config.promptLen + config.genLen
      cacheHitTokens := trace.output.stats.cacheHitTokens
      cacheMissTokens := trace.output.stats.cacheMissTokens
      speculative := trace.output.stats.speculative }

def runSingleCase (φ μ : Type) [Logit φ] [Zero φ] [One φ] [CfgMatcher μ] (clock : BenchmarkClock) (fuel : Nat)
    (engineConfig : EngineConfig) (config : BenchmarkConfig) : Except (Fault EngineError) BenchmarkSample :=
  match VeloEngine.new engineConfig with
  | .error e   => .error (.err e)
  | .ok engine =>
    (measure clock fuel config (⟨engine, ⟨⟨MockBackend.new config.scriptTokens⟩, ⟨MockBackend.new config.scriptTokens⟩⟩⟩ :
      MockMachine φ μ)).1

end Benchmark
