import VeloCore.Execution.Engine.Calls

open List Relation

namespace VeloEngine

variable {R μ : Type} [MemoryRuntime R]

-- What every outcome of looking up and saving a sequence keeps.
structure Steady (I : VeloEngine R μ → Prop) : Prop where
  cacheSequence tokens : tokens ≠ [] → Eff.Keeps I (cacheSequence tokens)
  lookup tokens        : Eff.Keeps I (onCache (RadixCache.lookup tokens))

-- What every outcome of the operations on the memory keeps.
structure Stable (I : VeloEngine R μ → Prop) : Prop extends Steady I where
  bindSlot slot pages  : Eff.Keeps I (bindSlot slot pages)

namespace Steady

variable {I : VeloEngine R μ → Prop}

-- These touch the cache, the store and the allocator only.
theorem of_parts (hs : ∀ e s, I e → I { e with runtime := MemoryRuntime.setStore s e.runtime })
    (ha : ∀ e a, I e → I { e with runtime := MemoryRuntime.setAllocator a e.runtime })
    (hc : ∀ e c, I e → I { e with prefixCache := c }) : Steady I := by
  have store {α} (f) : Eff.Keeps I (onStore f : Eff _ _ α) :=
    .zoom (J := fun _ => True) (fun _ _ => trivial) (fun _ _ => trivial) fun e _ he _ => hs e _ he
  have allocator {α} (f) : Eff.Keeps I (onAllocator f : Eff _ _ α) :=
    .zoom (J := fun _ => True) (fun _ _ => trivial) (fun _ _ => trivial) fun e _ he _ => ha e _ he
  have cache {α} (x) : Eff.Keeps I (onCache x : Eff _ _ α) :=
    .zoom (J := fun _ => True) (fun _ _ => trivial) (fun _ _ => trivial) fun e _ he _ => hc e _ he
  refine ⟨fun tokens _ => .bind (store _) fun handle => .bind (.attempt (allocator _)) fun res => ?_, fun _ => cache _⟩
  cases res
  case error => exact .bind (store _) fun _ => .throw _
  case ok =>
    refine .bind (cache _) fun inserted => ?_
    cases inserted.replaced
    case none => exact .pure _
    case some => exact .bind (store _) fun _ => .bind (allocator _) fun _ => .pure _

theorem cacheSequenceIf (st : Steady I) {p : Prop} [Decidable p] {tokens : List TokenId} (hp : p → tokens ≠ []) :
    Eff.Keeps I (cacheSequenceIf p tokens) := by
  unfold VeloEngine.cacheSequenceIf
  split
  case isTrue h => exact .bind (st.cacheSequence _ (hp h)) fun _ => .pure _
  case isFalse  => exact .pure _

theorem prefill (st : Steady I) (prompt : List TokenId) : Eff.Keeps I (prefill prompt) :=
  .bind (st.lookup _) fun _ => .bind (st.cacheSequenceIf And.left) fun _ => .bind .get fun _ => .pure _

end Steady

namespace Stable

variable {I : VeloEngine R μ → Prop}

-- The operations on the memory touch the cache and the runtime only.
theorem of_frame (h : ∀ e r c, I e → I { e with runtime := r, prefixCache := c }) : Stable I where
  toSteady := .of_parts (fun e _ he => h e _ e.prefixCache he) (fun e _ he => h e _ e.prefixCache he) fun e c he => h e e.runtime c he
  bindSlot _ _ := .zoom (J := fun _ => True) (fun _ _ => trivial) (fun _ _ => trivial) fun e r he _ => h e r e.prefixCache he

section Calls

variable (st : Stable I) (hpool : ∀ e p f, I e → I { e with slotPool := p, parserFactory := f })

omit [MemoryRuntime R] in
include hpool in
theorem allocateSlot (message : String) : Eff.Keeps I (allocateSlot message) := by
  intro e he
  unfold VeloEngine.allocateSlot
  split
  case h_1 pool _ => exact hpool e pool e.parserFactory he
  case h_2 pool _ => exact hpool e pool e.parserFactory he

omit [MemoryRuntime R] in
include hpool in
theorem releaseSlot (slot : SlotId) : Eff.Keeps I (releaseSlot slot) := by
  intro e he
  unfold VeloEngine.releaseSlot
  split
  case h_1 pool _ => exact hpool e pool e.parserFactory he
  case h_2        => exact he

include st hpool

variable [CfgMatcher μ]

theorem prepare (req : BatchRequest) : Eff.Keeps I (prepare req) := by
  refine .bind (allocateSlot hpool _) fun _ => .bind (st.prefill _) fun prefill => ?_
  split
  case h_1 => exact .throw _
  case h_2 => exact .bind (st.bindSlot _ _) fun _ => .bind .get fun _ => .pure _

theorem prepareAll (reqs : List BatchRequest) : Eff.Keeps I (prepareAll reqs) := by
  induction reqs
  case nil          => exact .pure _
  case cons _ _ hi  => exact .bind (st.prepare hpool _) fun _ => .bind hi fun _ => .pure _

omit [CfgMatcher μ] in
theorem finish (req : ActiveRequest μ) : Eff.Keeps I (finish req) :=
  .bind (releaseSlot hpool _) fun _ => .bind (st.cacheSequenceIf id) fun _ => .bind .get fun _ => .pure _

omit [CfgMatcher μ] in
theorem wrapUp (active : List (ActiveRequest μ)) : Eff.Keeps I (wrapUp active) := by
  induction active
  case nil          => exact .pure _
  case cons _ _ hi  => exact .bind (st.finish hpool _) fun _ => .bind hi fun _ => .pure _

variable {δ τ : Type} [DraftModel μ δ] [TargetModel μ τ]

theorem decode (fuel : Nat) (reqs : List BatchRequest) :
    Eff.Keeps (I ·.engine) (Machine.decode fuel reqs : Eff (Machine R μ δ τ) _ _) := by
  have engine {α} {x : Eff (VeloEngine R μ) _ α} (hx : Eff.Keeps I x) :
      Eff.Keeps (I ·.engine) (Machine.onEngine x : Eff (Machine R μ δ τ) _ _) :=
    .zoom hx (fun _ => id) fun _ _ _ => id
  have models {α} (x : Eff (Models δ τ) _ α) :
      Eff.Keeps (I ·.engine) (Machine.onModels x : Eff (Machine R μ δ τ) _ _) :=
    .zoom (J := fun _ => True) (fun _ _ => trivial) (fun _ _ => trivial) fun _ _ he _ => he
  exact .bind (engine (st.prepareAll hpool reqs)) fun _ => .bind (models _) fun _ => .bind .get fun _ => models _

theorem generateBatch (fuel : Nat) (reqs : List BatchRequest) :
    Eff.Keeps (I ·.engine) (Machine.generateBatch fuel reqs : Eff (Machine R μ δ τ) _ _) :=
  .bind (st.decode hpool fuel reqs) fun _ => .zoom (st.wrapUp hpool _) (fun _ => id) fun _ _ _ => id

theorem generate (fuel : Nat) (prompt : List TokenId) (maxNewTokens : Nat) :
    Eff.Keeps (I ·.engine) (Machine.generate fuel prompt maxNewTokens : Eff (Machine R μ δ τ) _ _) :=
  .bind (st.generateBatch hpool fuel _) fun _ => .index _ _

omit [DraftModel μ δ] [TargetModel μ τ] in
theorem op {op : Op μ} (h : op.Uncapped) : Eff.Keeps I op.run := by
  have models {δ τ α} {x : Eff (Machine R μ δ τ) _ α} {ms : Models δ τ} (hx : Eff.Keeps (I ·.engine) x) :
      Eff.Keeps I (withModels x ms) := fun e he => hx ⟨e, ms⟩ he
  cases op
  case prefill prompt                 => exact .bind (st.prefill prompt) fun _ => .pure _
  case generate fuel prompt n _       => exact .bind (models (st.generate hpool fuel prompt n)) fun _ => .pure _
  case generateBatch fuel reqs _      => exact .bind (models (st.generateBatch hpool fuel reqs)) fun _ => .pure _
  case allocateSlot                   => exact fun e he => hpool e _ e.parserFactory he
  case releaseSlot slot               => exact releaseSlot hpool slot
  case lookup tokens                  => exact .bind (st.lookup tokens) fun _ => .pure _
  case setCapacityTokens              => exact h.elim
  case evictColdest                   => exact h.elim
  case setParserFactory f             => exact fun e he => hpool e e.slotPool f he

omit [DraftModel μ δ] [TargetModel μ τ] in
theorem steps {e e' : VeloEngine R μ} (he : I e) (h : ReflTransGen (Op.Step Op.Uncapped) e e') : I e' := by
  induction h
  case refl => exact he
  case tail _ h hi =>
    have ⟨_, hu, _, he'⟩ := h
    exact he' ▸ st.op hpool hu _ hi

end Calls
end Stable
end VeloEngine
