import VeloCore.Execution.Engine.Theorems.Coherent
import VeloCore.Execution.Engine.Theorems.Phases
import VeloCore.Execution.Engine.Theorems.Prefill

open List Relation MemoryRuntime

namespace VeloEngine

section Fits

variable {R μ : Type} [MemoryRuntime R]

-- No insertion of the call takes the cache over its capacity.

def PrefillFits (prompt : List TokenId) (e : VeloEngine R μ) : Prop :=
  prompt ≠ [] → e.prefixCache.entries prompt = none → e.prefixCache.Fits prompt

def WrapUpFits : List (ActiveRequest μ) → VeloEngine R μ → Prop
  | [], _          => True
  | req :: reqs, e =>
    (req.fullSequence ≠ [] → e.prefixCache.Fits req.fullSequence) ∧ WrapUpFits reqs (finish req e).2

variable [CfgMatcher μ]

def PrepareAllFits : List BatchRequest → VeloEngine R μ → Prop
  | [], _          => True
  | req :: reqs, e => PrefillFits req.prompt e ∧ PrepareAllFits reqs (prepare req e).2

def GenerateBatchFits [DraftModel μ δ] [TargetModel μ τ] (fuel : Nat) (requests : List BatchRequest)
    (m : Machine R μ δ τ) : Prop :=
  PrepareAllFits requests m.engine ∧
    ∀ active m', Machine.decode fuel requests m = (.ok active, m') → WrapUpFits active m'.engine

-- The operation evicts nothing.
def Op.Fits (e : VeloEngine R μ) : Op μ → Prop
  | prefill prompt => PrefillFits prompt e
  | @generate _ _ _ _ _ _ fuel prompt maxNewTokens models =>
    GenerateBatchFits fuel [{ prompt, maxNewTokens, constraint := none }] ⟨e, models⟩
  | @generateBatch _ _ _ _ _ _ fuel requests models => GenerateBatchFits fuel requests ⟨e, models⟩
  | setCapacityTokens capacityTokens => ∀ capacity ∈ capacityTokens, e.prefixCache.residentTokens ≤ capacity
  | evictColdest tokensToEvict => tokensToEvict = 0 ∨ e.prefixCache.handles = []
  | _ => True

end Fits

variable {R μ : Type} [MemoryRuntime R] [LawfulMemoryRuntime R] {e e' : VeloEngine R μ} {tokens : List TokenId}
  {h : KvCacheHandle}

-- The memory is exactly what the cache holds.
structure Settled (e : VeloEngine R μ) : Prop where
  coherent : Coherent e
  exact    : e.memory.Exact

namespace Settled

theorem withPool (w : Settled e) : Settled { e with slotPool := p, parserFactory := f } :=
  ⟨w.coherent.withPool, w.exact⟩

theorem withCache (w : Settled e) (hr : ∃ path, c.Rep path) (he : c.entries = e.prefixCache.entries) :
    Settled { e with prefixCache := c } := by
  have hm : memory { e with prefixCache := c } = e.memory := by rw [memory, he, memory]
  exact ⟨⟨hr, w.coherent.runtime, hm ▸ w.coherent.consistent⟩, hm ▸ w.exact⟩

theorem unchanged (w : Settled e) (u : Unchanged e e') : Settled e' :=
  ⟨u.coherent, u.memory ▸ w.exact⟩

theorem saved (w : Settled e) (hf : e.prefixCache.Fits tokens) (s : Saved tokens h e e') : Settled e' :=
  ⟨s.coherent, s.fits hf ▸ w.exact.save s.new⟩

theorem prefill (w : Settled e) (hf : PrefillFits prompt e) : Settled (prefill prompt e).2 := by
  rcases prefill_cases w.coherent prompt with ⟨out, e', hp, h⟩ | ⟨_, e', hp, u, _⟩ <;> rw [hp]
  case inr => exact w.unchanged u
  case inl =>
    cases h
    case empty _ u                => exact w.unchanged u
    case hit _ _ _ u _ _ _        => exact w.unchanged u
    case miss _ hne hnone saved _ => exact w.saved (hf hne hnone) saved

theorem finish {req : ActiveRequest μ} {out : EngineOutput} (w : Settled e) (h : finish req e = (.ok out, e'))
    (hf : req.fullSequence ≠ [] → e.prefixCache.Fits req.fullSequence) : Settled e' := by
  have ⟨_, pool, _, h⟩ := finish_eq_ok h
  rcases h with ⟨_, rfl⟩ | ⟨hne, handle, hc⟩
  case inl => exact w.withPool
  case inr =>
    have w' : Settled { e with slotPool := pool } := w.withPool
    rcases cacheSequence_cases w'.coherent req.fullSequence with ⟨_, _, hc', s⟩ | ⟨_, _, hc', _⟩
    case inl =>
      obtain ⟨-, rfl⟩ := Prod.ext_iff.mp (hc.symm.trans hc')
      exact w'.saved (hf hne) s
    case inr => simp [hc] at hc'

theorem wrapUp {active : List (ActiveRequest μ)} {outs : List EngineOutput} (w : Settled e)
    (h : wrapUp active e = (.ok outs, e')) (hf : WrapUpFits active e) : Settled e' := by
  induction active generalizing e outs
  case nil => cases h; exact w
  case cons req reqs hi =>
    have ⟨out, rest, e₁, hfin, hwrap, _⟩ := wrapUp_cons_eq_ok h
    have ⟨hfits, hf⟩ := hf
    rw [hfin] at hf
    exact hi (w.finish hfin hfits) hwrap hf

variable [CfgMatcher μ]

theorem prepare {req : BatchRequest} {active : ActiveRequest μ} (w : Settled e)
    (h : prepare req e = (.ok active, e')) (hf : PrefillFits req.prompt e) : Settled e' := by
  have ⟨pool, e₁, pages, _, hp, _, hb⟩ := (prepare_eq_ok h).steps
  have w₁ := w.withPool (p := pool) (f := e.parserFactory) |>.prefill hf
  rw [hp] at w₁
  have u := bindSlot_unchanged w₁.coherent active.slotId (pages.pages.map UInt32.ofNat)
  rw [hb] at u
  exact w₁.unchanged u

theorem prepareAll {reqs : List BatchRequest} {active : List (ActiveRequest μ)} (w : Settled e)
    (h : prepareAll reqs e = (.ok active, e')) (hf : PrepareAllFits reqs e) : Settled e' := by
  induction reqs generalizing e active
  case nil => cases h; exact w
  case cons req reqs hi =>
    have ⟨_, _, e₁, hp, hr, _⟩ := prepareAll_cons_eq_ok h
    have ⟨hfits, hf⟩ := hf
    rw [hp] at hf
    exact hi (w.prepare hp hfits) hr hf

theorem generateBatch [DraftModel μ δ] [TargetModel μ τ] {models models' : Models δ τ} (w : Settled e)
    (h : Machine.generateBatch fuel reqs ⟨e, models⟩ = (.ok outs, ⟨e', models'⟩))
    (hf : GenerateBatchFits fuel reqs ⟨e, models⟩) : Settled e' := by
  have ⟨active, m₁, hd, hw⟩ := Machine.generateBatch_eq_ok h
  have ⟨_, _, hp, _⟩ := Machine.decode_eq_ok hd
  exact (w.prepareAll hp hf.left).wrapUp hw (hf.right active m₁ hd)

theorem op {op : Op μ} (w : Settled e) (h : op.run e = (.ok (), e')) (hf : op.Fits e) : Settled e' := by
  cases op
  case prefill prompt =>
    have ⟨_, _, hp, h⟩ := Eff.bind_eq_ok_iff.mp h
    cases h
    have w' := w.prefill hf
    rw [hp] at w'
    exact w'
  case generate fuel prompt n models =>
    have ⟨_, _, hg, h⟩ := Eff.bind_eq_ok_iff.mp h
    cases h
    have ⟨_, hg⟩ := Machine.withModels_eq_ok hg
    have ⟨_, hb⟩ := Machine.generate_eq_ok hg
    exact w.generateBatch hb hf
  case generateBatch fuel reqs models =>
    have ⟨_, _, hg, h⟩ := Eff.bind_eq_ok_iff.mp h
    cases h
    have ⟨_, hb⟩ := Machine.withModels_eq_ok hg
    exact w.generateBatch hb hf
  case setCapacityTokens capacity =>
    cases h
    have ⟨path, r⟩ := w.coherent.cache
    have ⟨r', he⟩ := r.same (d := { e.prefixCache with capacityTokens := capacity }) rfl rfl rfl
    have hsame := RadixCache.setCapacityTokens_eq (c := e.prefixCache) hf
    exact w.withCache (hsame ▸ ⟨path, r'⟩) (hsame ▸ he)
  case evictColdest n =>
    cases h
    have hsame : (e.prefixCache.evictColdest n).2 = e.prefixCache := by
      rcases hf with rfl | hf
      case inl => exact RadixCache.evictColdest_zero
      case inr => exact RadixCache.evictColdest_empty hf
    exact w.withCache (hsame.symm ▸ w.coherent.cache) (by rw [hsame])
  case allocateSlot => cases h; exact w.withPool (f := e.parserFactory)
  case releaseSlot =>
    have ⟨_, _, he⟩ := releaseSlot_eq_ok h
    exact he ▸ w.withPool (f := e.parserFactory)
  case lookup tokens =>
    have ⟨_, _, hl, h⟩ := Eff.bind_eq_ok_iff.mp h
    cases h
    have ⟨_, _, hl', u, _⟩ := lookup_unchanged w.coherent tokens
    cases hl.symm.trans hl'
    exact w.unchanged u
  case setParserFactory => cases h; exact w.withPool

end Settled

section Cpu

variable {e e' : VeloEngine CpuMemoryRuntime μ} [CfgMatcher μ]

-- The blocks of the store and the mappings of the allocator belong to entries of the cache.
structure Reclaimed (e : VeloEngine CpuMemoryRuntime μ) : Prop where
  blocks   : e.runtime.store.blocks.lookup k = some block → block.handle ∈ e.prefixCache.handles
  mappings : e.runtime.allocator.mappings.lookup k = some mapping → mapping.handle ∈ e.prefixCache.handles

omit [CfgMatcher μ] in
theorem Settled.reclaimed (w : Settled e) : Reclaimed e := by
  have ⟨path, r⟩ := w.coherent.cache
  have hheld {h} (hl : e.runtime.store.Live h) : h ∈ e.prefixCache.handles := r.mem_handles_iff.mpr (w.exact.held hl)
  have hs : e.runtime.store.Wf := w.coherent.runtime.store
  have ha : e.runtime.allocator.Wf := w.coherent.runtime.allocator
  refine ⟨fun {k block} hk => hheld ?_, fun {k mapping} hk => hheld ?_⟩
  case refine_1 => exact InMemoryKvStore.live_iff.mpr ⟨block, hs.id hk ▸ hk, rfl⟩
  case refine_2 => exact (w.coherent.runtime.mapped _).mp ⟨mapping, ha.id hk ▸ hk, rfl⟩

-- Memory is given back as long as nothing is evicted.
theorem reclaimed_of_fits (config : EngineConfig) (hnew : new config = .ok e)
    (h : ReflTransGen (fun e e' => ∃ op : Op μ, op.Fits e ∧ op.run e = (.ok (), e')) e e') : Reclaimed e' := by
  have ⟨_, u, _⟩ := uncapped_new hnew
  have w : Settled e' := by
    induction h
    case refl => exact ⟨u.coherent, u.exact⟩
    case tail _ hstep hi =>
      have ⟨op, hf, hr⟩ := hstep
      exact hi.op hr hf
  exact w.reclaimed

theorem run_eq_ok {op : Op μ} (h : (op.run e).1 = .ok ()) : op.run e = (.ok (), (op.run e).2) :=
  Prod.ext h rfl

-- A capacity of four tokens is enough for two prompts of two tokens.
theorem reclaimed_of_fits_prefill : ∃ e e₁ e₂ e₃ : VeloEngine CpuMemoryRuntime Empty, new ⟨2, ⟨1, 4, 8, 2⟩⟩ = .ok e ∧
    (Op.setCapacityTokens (some 4)).run e = (.ok (), e₁) ∧ (Op.prefill [1, 2]).run e₁ = (.ok (), e₂) ∧
    (Op.prefill [3, 4]).run e₂ = (.ok (), e₃) ∧ Reclaimed e₃ := by
  have fits (prompt : List TokenId) (e : VeloEngine CpuMemoryRuntime Empty)
      (h : e.prefixCache.residentTokens + prompt.length ≤ 4 ∧ e.prefixCache.capacityTokens = some 4) :
      (Op.prefill prompt).Fits e := by
    intro _ _ capacity hc
    rw [h.right, Option.mem_some_iff] at hc
    omega
  have ok (op : Op Empty) (e : VeloEngine CpuMemoryRuntime Empty) (h : (op.run e).1 = .ok ()) := run_eq_ok h
  refine ⟨_, _, _, _, rfl, ok _ _ ?_, ok _ _ ?_, ok _ _ ?_,
    reclaimed_of_fits ⟨2, ⟨1, 4, 8, 2⟩⟩ rfl (.tail (.tail (.single ⟨.setCapacityTokens (some 4), ?_, ok _ _ ?_⟩)
      ⟨.prefill [1, 2], fits _ _ ?_, ok _ _ ?_⟩) ⟨.prefill [3, 4], fits _ _ ?_, ok _ _ ?_⟩)⟩
  case refine_4 => exact fun capacity _ => Nat.zero_le capacity
  all_goals decide +kernel

-- The second prompt takes the place of the first one in the cache, but the first one keeps its memory.
theorem not_reclaimed_prefill : ∃ e e₁ e₂ e₃ : VeloEngine CpuMemoryRuntime Empty, new ⟨2, ⟨1, 4, 8, 2⟩⟩ = .ok e ∧
    (Op.setCapacityTokens (some 2)).run e = (.ok (), e₁) ∧ (Op.prefill [1, 2]).run e₁ = (.ok (), e₂) ∧
    (Op.prefill [3, 4]).run e₂ = (.ok (), e₃) ∧ ¬Reclaimed e₃ := by
  have ok (op : Op Empty) (e : VeloEngine CpuMemoryRuntime Empty) (h : (op.run e).1 = .ok ()) := run_eq_ok h
  refine ⟨_, _, _, _, rfl, ok _ _ ?_, ok _ _ ?_, ok _ _ ?_, fun h => ?_⟩
  case refine_4 =>
    have hb := @h.blocks 1 ⟨⟨1, 2⟩, 2⟩ (by decide +kernel)
    revert hb
    decide +kernel
  all_goals decide +kernel

end Cpu
end VeloEngine
