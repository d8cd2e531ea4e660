import VeloCore.Execution.Engine.Calls

open List MemoryRuntime

namespace VeloEngine

variable {R μ : Type} [MemoryRuntime R] {e e' : VeloEngine R μ}

omit [MemoryRuntime R] in
theorem allocateSlot_ok (h : e.slotPool.alloc = (some slot, pool)) :
    allocateSlot message e = (.ok slot, { e with slotPool := pool }) := by
  simp [allocateSlot, h]

omit [MemoryRuntime R] in
theorem allocateSlot_eq_ok (h : allocateSlot message e = (.ok slot, e')) :
    ∃ pool, e.slotPool.alloc = (some slot, pool) ∧ e' = { e with slotPool := pool } := by
  unfold allocateSlot at h
  split at h <;> simp_all

omit [MemoryRuntime R] in
theorem releaseSlot_eq_ok (h : releaseSlot slot e = (.ok (), e')) :
    ∃ pool, e.slotPool.release slot = some pool ∧ e' = { e with slotPool := pool } := by
  unfold releaseSlot at h
  split at h <;> simp_all

section Prepare

variable [CfgMatcher μ] {req : BatchRequest} {active : ActiveRequest μ}

-- What the preparation of a request did.
structure Prepared (req : BatchRequest) (e : VeloEngine R μ) (active : ActiveRequest μ) (e' : VeloEngine R μ) :
    Prop where
  steps : ∃ pool e₁ pages, e.slotPool.alloc = (some active.slotId, pool) ∧
    VeloEngine.prefill req.prompt { e with slotPool := pool } = (.ok active.prefill, e₁) ∧
    active.prefill.insertedPages.or active.prefill.cachedPages = some pages ∧
    bindSlot active.slotId (pages.pages.map UInt32.ofNat) e₁ = (.ok (), e')
  session      : active.session = e'.decoder.begin req.prompt
  maxNewTokens : active.maxNewTokens = req.maxNewTokens
  generated    : active.generated = []
  matcher      : req.constraint = none → active.matcher = none

theorem prepare_eq_ok (h : prepare req e = (.ok active, e')) : Prepared req e active e' := by
  have ⟨slot, e₁, ha, h⟩ := Eff.bind_eq_ok_iff.mp h
  have ⟨pool, halloc, he₁⟩ := allocateSlot_eq_ok ha
  have ⟨out, e₂, hp, h⟩ := Eff.bind_eq_ok_iff.mp h
  cases hpages : out.insertedPages.or out.cachedPages <;> simp only [hpages] at h
  case none => cases h
  case some pages =>
    have ⟨_, e₃, hb, h⟩ := Eff.bind_eq_ok_iff.mp h
    cases h
    exact ⟨⟨pool, e₂, pages, halloc, he₁ ▸ hp, hpages, hb⟩, rfl, rfl, rfl, fun hc => by simp [hc]⟩

theorem prepareAll_cons_eq_ok {reqs : List BatchRequest} {actives : List (ActiveRequest μ)}
    (h : prepareAll (req :: reqs) e = (.ok actives, e')) : ∃ active rest e₁,
    prepare req e = (.ok active, e₁) ∧ prepareAll reqs e₁ = (.ok rest, e') ∧ actives = active :: rest := by
  have ⟨active, e₁, hp, h⟩ := Eff.bind_eq_ok_iff.mp h
  have ⟨rest, e₂, hr, h⟩ := Eff.bind_eq_ok_iff.mp h
  cases h
  exact ⟨active, rest, e₁, hp, hr, rfl⟩

theorem prepareAll_fresh {reqs : List BatchRequest} {active₀ : List (ActiveRequest μ)}
    (h : prepareAll reqs e = (.ok active₀, e')) :
    active₀.map (·.maxNewTokens) = reqs.map (·.maxNewTokens) ∧ ∀ active ∈ active₀, active.generated = [] := by
  induction reqs generalizing e active₀
  case nil => cases h; simp
  case cons req reqs hi =>
    have ⟨active, rest, e₁, hp, hrest, ha⟩ := prepareAll_cons_eq_ok h
    have p := prepare_eq_ok hp
    have ⟨hmax, hgenerated⟩ := hi hrest
    subst ha
    exact ⟨by simp [p.maxNewTokens, hmax], by simpa [p.generated] using hgenerated⟩

end Prepare

section Finish

variable {req : ActiveRequest μ} {out : EngineOutput}

theorem finish_eq_ok (h : finish req e = (.ok out, e')) : out.tokens = req.generated ∧
    ∃ pool, e.slotPool.release req.slotId = some pool ∧
      (req.fullSequence = [] ∧ e' = { e with slotPool := pool } ∨
        req.fullSequence ≠ [] ∧ ∃ handle, cacheSequence req.fullSequence { e with slotPool := pool } = (.ok handle, e')) := by
  have ⟨_, e₁, hr, h⟩ := Eff.bind_eq_ok_iff.mp h
  have ⟨pool, hrel, he₁⟩ := releaseSlot_eq_ok hr
  have ⟨inserted, e₂, hi, h⟩ := Eff.bind_eq_ok_iff.mp h
  cases h
  refine ⟨rfl, pool, hrel, ?_⟩
  unfold cacheSequenceIf at hi
  split at hi
  case isTrue hne =>
    have ⟨handle, _, hc, hi⟩ := Eff.bind_eq_ok_iff.mp hi
    cases hi
    exact .inr ⟨hne, handle, he₁ ▸ hc⟩
  case isFalse hne =>
    cases hi
    exact .inl ⟨not_not.mp hne, he₁⟩

theorem wrapUp_cons_eq_ok {reqs : List (ActiveRequest μ)} {outs : List EngineOutput}
    (h : wrapUp (req :: reqs) e = (.ok outs, e')) : ∃ out rest e₁,
    finish req e = (.ok out, e₁) ∧ wrapUp reqs e₁ = (.ok rest, e') ∧ outs = out :: rest := by
  have ⟨out, e₁, hf, h⟩ := Eff.bind_eq_ok_iff.mp h
  have ⟨rest, e₂, hr, h⟩ := Eff.bind_eq_ok_iff.mp h
  cases h
  exact ⟨out, rest, e₁, hf, hr, rfl⟩

end Finish
end VeloEngine

namespace Machine

variable {R μ δ τ : Type} {m m' : Machine R μ δ τ}

theorem onEngine_eq_ok {x : Eff (VeloEngine R μ) EngineError α} (h : onEngine x m = (.ok a, m')) :
    x m.engine = (.ok a, m'.engine) ∧ m'.models = m.models := by
  have ⟨e, hx, he⟩ := Eff.zoom_eq_ok_iff.mp h
  exact he ▸ ⟨hx, rfl⟩

theorem onModels_eq_ok {x : Eff (Models δ τ) SpeculativeError α} (h : onModels x m = (.ok a, m')) :
    x m.models = (.ok a, m'.models) ∧ m'.engine = m.engine := by
  have ⟨e, hx, he⟩ := Eff.zoom_eq_ok_iff.mp h
  exact he ▸ ⟨hx, rfl⟩

variable [MemoryRuntime R] [CfgMatcher μ] [DraftModel μ δ] [TargetModel μ τ]

-- Only the preparation touches the engine.
theorem decode_eq_ok {active : List (ActiveRequest μ)} (h : decode fuel reqs m = (.ok active, m')) :
    ∃ active₀ models, VeloEngine.prepareAll reqs m.engine = (.ok active₀, m'.engine) ∧
      VeloEngine.bindAll active₀ m.models = (.ok (), models) ∧
      Eff.loop (VeloEngine.round m'.engine.decoder.draftWindow) fuel active₀ models = (.ok active, m'.models) := by
  have ⟨active₀, m₁, hp, h⟩ := Eff.bind_eq_ok_iff.mp h
  have ⟨hp, hm₁⟩ := onEngine_eq_ok hp
  have ⟨_, m₂, hb, h⟩ := Eff.bind_eq_ok_iff.mp h
  have ⟨hb, he₂⟩ := onModels_eq_ok hb
  have ⟨hl, he'⟩ := onModels_eq_ok h
  exact ⟨active₀, m₂.models, he'.trans he₂ ▸ hp, hm₁ ▸ hb, he' ▸ hl⟩

theorem generateBatch_eq_ok {outs : List EngineOutput} (h : generateBatch fuel reqs m = (.ok outs, m')) :
    ∃ active m₁, decode fuel reqs m = (.ok active, m₁) ∧ VeloEngine.wrapUp active m₁.engine = (.ok outs, m'.engine) := by
  have ⟨active, m₁, hd, h⟩ := Eff.bind_eq_ok_iff.mp h
  exact ⟨active, m₁, hd, (onEngine_eq_ok h).left⟩

theorem generate_eq_ok {out : EngineOutput} (h : generate fuel prompt n m = (.ok out, m')) :
    ∃ outs, generateBatch fuel [{ prompt, maxNewTokens := n, constraint := none }] m = (.ok outs, m') := by
  have ⟨outs, m₁, hb, hi⟩ := Eff.bind_eq_ok_iff.mp h
  have hm := Eff.index_snd (ε := EngineError) outs 0 m₁
  rw [hi] at hm
  exact ⟨outs, hb.trans (by rw [← hm])⟩

omit [MemoryRuntime R] [CfgMatcher μ] [DraftModel μ δ] [TargetModel μ τ] in
theorem withModels_eq_ok {x : Eff (Machine R μ δ τ) EngineError α} {e e' : VeloEngine R μ} {models : Models δ τ}
    (h : VeloEngine.withModels x models e = (.ok a, e')) : ∃ models', x ⟨e, models⟩ = (.ok a, ⟨e', models'⟩) := by
  have ⟨hr, (he : (x ⟨e, models⟩).2.engine = e')⟩ := Prod.ext_iff.mp h
  exact ⟨(x ⟨e, models⟩).2.models, Prod.ext hr (by rw [← he])⟩

end Machine
