import Mathlib
import VeloCore.Execution.Benchmark.Basic
import VeloCore.Execution.Engine.Theorems.Phases

open List

namespace Eff

variable {σ ε α α' β β' : Type}

-- A loop that does the same to what `f` and `g` keep of its variables and results.
theorem loop_map {body : α → Eff σ ε (α ⊕ β)} {body' : α' → Eff σ ε (α' ⊕ β')} {f : α → α'} {g : β → β'}
    (h : ∀ a s, body' (f a) s = ((body a s).1.map (Sum.map f g), (body a s).2)) (n : Nat) (a : α) (s : σ) :
    loop body' n (f a) s = ((loop body n a s).1.map g, (loop body n a s).2) := by
  induction n generalizing a s
  case zero => rfl
  case succ n hi =>
    have hbody := h a s
    rcases hres : body a s with ⟨e | a' | b, s'⟩
    case error  => rw [hres] at hbody; rw [loop_succ_error hres, loop_succ_error hbody]; rfl
    case ok.inl => rw [hres] at hbody; rw [loop_succ_next hres, loop_succ_next hbody, hi]
    case ok.inr => rw [hres] at hbody; rw [loop_succ_exit hres, loop_succ_exit hbody]; rfl

-- Two calls that do the same to the state, with results of which `f` and `g` keep the same.
def Same (f : α → γ) (g : β → γ) (x : Eff σ ε α) (y : Eff σ ε β) : Prop :=
  ∀ s, ((x s).1.map f, (x s).2) = ((y s).1.map g, (y s).2)

theorem Same.bind {f : α → γ} {g : β → γ} {x : Eff σ ε α'} {k : α' → Eff σ ε α} {k' : α' → Eff σ ε β}
    (h : ∀ a, Same f g (k a) (k' a)) : Same f g (x >>= k) (x >>= k') := by
  intro s
  rcases hx : x s with ⟨e | a, s'⟩
  case error => rw [bind_error hx, bind_error hx]; rfl
  case ok    => rw [bind_ok hx, bind_ok hx]; exact h a s'

end Eff

namespace Benchmark

section Loop

variable {μ δ τ : Type} [DraftModel μ δ] [TargetModel μ τ] {elapsed : Nat → Nat} {n : Nat}

-- The loop of the decoder does not look at the clock.
def unclocked (v : SpeculativeSession × List TokenId × Option Nat) : SpeculativeSession × List TokenId :=
  (v.1, v.2.1)

theorem iteration_unclocked (elapsed : Nat → Nat) (n : Nat) (v : SpeculativeSession × List TokenId × Option Nat) (m : Models δ τ) :
    SpeculativeDecoder.iteration n (unclocked v) m =
      ((iteration elapsed n v m).1.map (Sum.map unclocked unclocked), (iteration elapsed n v m).2) := by
  obtain ⟨session, generated, ttftNs⟩ := v
  by_cases hn : generated.length < n
  case neg =>
    simp only [SpeculativeDecoder.iteration, unclocked, iteration, hn, ↓reduceIte]
    rfl
  case pos =>
    simp only [SpeculativeDecoder.iteration, unclocked, iteration, hn, ↓reduceIte]
    rcases session.draft (n - generated.length) m with ⟨e | drafted, session', m'⟩
    case error => rfl
    case ok =>
      obtain ⟨_, _, _, _, _, rejectedToken⟩ := session'
      dsimp only [SpeculativeSession.hasPendingRejection, SpeculativeSession.takeRejectedToken]
      cases rejectedToken
      case none => cases drafted <;> rfl
      case some => cases drafted <;> rfl

-- The time of the first token is there as soon as there is a token.
theorem iteration_clocked {v : SpeculativeSession × List TokenId × Option Nat} (h : v.2.2.isSome = true ↔ v.2.1 ≠ [])
    (m : Models δ τ) : Eff.Step (fun v _ => v.2.2.isSome = true ↔ v.2.1 ≠ [])
      (fun r _ => ∀ v, r = .ok v → (v.2.2.isSome = true ↔ v.2.1 ≠ [])) (iteration elapsed n v m) := by
  obtain ⟨session, generated, ttftNs⟩ := v
  by_cases hn : generated.length < n
  case neg =>
    simp only [iteration, hn, ↓reduceIte]
    rintro _ ⟨⟩
    exact h
  case pos =>
    simp only [iteration, hn, ↓reduceIte]
    rcases session.draft (n - generated.length) m with ⟨e | drafted, session', m'⟩
    case error => exact nofun
    case ok =>
      obtain ⟨_, _, _, _, _, rejectedToken⟩ := session'
      dsimp only [SpeculativeSession.hasPendingRejection, SpeculativeSession.takeRejectedToken]
      cases rejectedToken <;> cases drafted <;> cases ttftNs <;> simp_all [Eff.Step]

theorem loop_unclocked (elapsed : Nat → Nat) (n fuel : Nat) (v : SpeculativeSession × List TokenId × Option Nat)
    (m : Models δ τ) : Eff.loop (SpeculativeDecoder.iteration n) fuel (unclocked v) m =
      ((Eff.loop (iteration elapsed n) fuel v m).1.map unclocked, (Eff.loop (iteration elapsed n) fuel v m).2) :=
  Eff.loop_map (iteration_unclocked elapsed n) fuel v m

theorem loop_clocked {v v' : SpeculativeSession × List TokenId × Option Nat} {m m' : Models δ τ}
    (h : v.2.2.isSome = true ↔ v.2.1 ≠ []) (hl : Eff.loop (iteration elapsed n) fuel v m = (.ok v', m')) :
    v'.2.2.isSome = true ↔ v'.2.1 ≠ [] := by
  let I (v : SpeculativeSession × List TokenId × Option Nat) (_ : Models δ τ) := v.2.2.isSome = true ↔ v.2.1 ≠ []
  have hstep (v m) (hv : I v m) : Eff.Step I (fun r m => ∀ v, r = .ok v → I v m) (iteration elapsed n v m) :=
    iteration_clocked hv m
  have hinv := Eff.loop_invariant (n := fuel) (s := m) hstep (fun _ _ _ _ => nofun) h
  rw [hl] at hinv
  exact hinv v' rfl

end Loop

section Generation

variable {R μ δ τ : Type} [MemoryRuntime R] [DraftModel μ δ] [TargetModel μ τ]

-- The same calls with the loop of the decoder.
def generation (fuel : Nat) (prompt : List TokenId) (maxNewTokens : Nat) :
    Eff (Machine R μ δ τ) EngineError (EnginePrefillOutput × SpeculativeOutput) := do
  let cachedPrefix ← Machine.onEngine (VeloEngine.prefill prompt)
  Machine.onModels (Models.onDraft (DraftModel.bindPrefixCache cachedPrefix.cachedPrefix))
  Machine.onModels (Models.onTarget (TargetModel.bindPrefixCache cachedPrefix.cachedPrefix))
  let output ← Machine.onModels ((← Eff.get).engine.decoder.generate fuel prompt maxNewTokens)
  pure (cachedPrefix, output)

-- What a trace says, but for the time.
def reported (trace : GenerationTrace) : List TokenId × CacheLookup × Option PageSpan × EngineStats :=
  (trace.output.tokens, trace.output.cachedPrefix, trace.output.cachedPages, trace.output.stats)

def expected (res : EnginePrefillOutput × SpeculativeOutput) : List TokenId × CacheLookup × Option PageSpan × EngineStats :=
  (res.2.tokens, res.1.cachedPrefix, res.1.cachedPages,
    ⟨res.1.stats.cacheHitTokens, res.1.stats.cacheMissTokens, res.2.stats⟩)

-- The measured generation is the one of the decoder: it fails where that one fails, returns the same tokens and
-- statistics and leaves the same engine and models. The time to the first token is there just when there is a token.
theorem runGenerationWithTtft_measures (elapsed : Nat → Nat) (fuel : Nat) (prompt : List TokenId) (n : Nat)
    (m : Machine R μ δ τ) :
    ((runGenerationWithTtft elapsed fuel prompt n m).1.map reported, (runGenerationWithTtft elapsed fuel prompt n m).2) =
      ((generation fuel prompt n m).1.map expected, (generation fuel prompt n m).2) ∧
    ∀ trace m', runGenerationWithTtft elapsed fuel prompt n m = (.ok trace, m') →
      (trace.ttftNs.isSome = true ↔ trace.output.tokens ≠ []) := by
  refine ⟨?_, fun trace m' h => ?_⟩
  case refine_1 =>
    refine Eff.Same.bind (fun cachedPrefix => Eff.Same.bind fun _ => Eff.Same.bind fun _ => Eff.Same.bind fun e => ?_) m
    intro m
    have hloop := loop_unclocked elapsed n fuel (e.engine.decoder.begin prompt, [], none) m.models
    rcases hl : Eff.loop (iteration elapsed n) fuel (e.engine.decoder.begin prompt, [], none) m.models with ⟨fault | v, models⟩
    all_goals
      rw [hl] at hloop
    case error =>
      have hgenerate : e.engine.decoder.generate fuel prompt n m.models = (.error fault, models) := Eff.bind_error hloop
      simp only [Eff.bind_apply, Machine.onModels, Eff.zoom, hl, hgenerate]
      cases fault <;> rfl
    case ok =>
      have hgenerate : e.engine.decoder.generate fuel prompt n m.models = (.ok ⟨v.2.1, v.1.stats⟩, models) := Eff.bind_ok hloop
      have hl' : Machine.onModels (R := R) (Eff.loop (iteration elapsed n) fuel (e.engine.decoder.begin prompt, [], none)) m =
          (.ok v, { m with models }) := Eff.zoom_ok hl
      have hgenerate' : Machine.onModels (R := R) (e.engine.decoder.generate fuel prompt n) m =
          (.ok ⟨v.2.1, v.1.stats⟩, { m with models }) := Eff.zoom_ok hgenerate
      rw [Eff.bind_ok hl', Eff.bind_ok hgenerate']
      rfl
  case refine_2 =>
    obtain ⟨cachedPrefix, _, _, h⟩ := Eff.bind_eq_ok_iff.mp h
    obtain ⟨_, _, _, h⟩ := Eff.bind_eq_ok_iff.mp h
    obtain ⟨_, _, _, h⟩ := Eff.bind_eq_ok_iff.mp h
    obtain ⟨_, _, _, h⟩ := Eff.bind_eq_ok_iff.mp h
    obtain ⟨v, _, hl, h⟩ := Eff.bind_eq_ok_iff.mp h
    obtain ⟨_, hloop, _⟩ := Eff.zoom_eq_ok_iff.mp hl
    cases h
    exact loop_clocked (by simp) hloop

end Generation
end Benchmark
