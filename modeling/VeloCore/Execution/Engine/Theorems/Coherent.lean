import Mathlib
import VeloCore.Execution.Engine.Calls
import VeloCore.Execution.Engine.Theorems.Memory
import VeloCore.Execution.Engine.Theorems.Stable
import VeloCore.Objects.Speculative.Theorems.Batch

open List Relation MemoryRuntime

namespace VeloEngine

variable {R μ : Type} [MemoryRuntime R] [LawfulMemoryRuntime R]

-- Operations on the memory save sequences, or leave what it stands for alone.
theorem Stable.of_saved {I : VeloEngine R μ → Prop} (coherent : ∀ e, I e → Coherent e)
    (saved : ∀ tokens h e e', tokens ≠ [] → I e → Saved tokens h e e' → I e')
    (unchanged : ∀ e e', I e → Unchanged e e' → I e') : Stable I where
  cacheSequence tokens hne e he := by
    rcases cacheSequence_cases (coherent e he) tokens with ⟨h, e', heq, hs⟩ | ⟨_, e', heq, hu⟩
    case inl => exact heq ▸ saved tokens h e e' hne he hs
    case inr => exact heq ▸ unchanged e e' he hu
  lookup tokens e he := by
    have ⟨_, e', heq, hu, _⟩ := lookup_unchanged (coherent e he) tokens
    exact heq ▸ unchanged e e' he hu
  bindSlot slot pages e he := unchanged e _ he (bindSlot_unchanged (coherent e he) slot pages)

theorem stable_coherent : Stable (Coherent : VeloEngine R μ → Prop) :=
  .of_saved (fun _ => id) (fun _ _ _ _ _ _ hs => hs.coherent) fun _ _ _ hu => hu.coherent

-- Nothing is ever evicted from a cache without a capacity, and the memory is exactly what it holds.
structure Uncapped (config : PagedAttentionConfig) (e : VeloEngine R μ) : Prop where
  coherent : Coherent e
  exact    : e.memory.Exact
  capacity : e.prefixCache.capacityTokens = none
  config   : (allocator e.runtime).config = config

theorem Coherent.withPool {e : VeloEngine R μ} (c : Coherent e) :
    Coherent { e with slotPool := p, parserFactory := f } :=
  ⟨c.cache, c.runtime, c.consistent⟩

-- Entries may leave the cache, and their memory stays taken.
theorem Coherent.withCache {e : VeloEngine R μ} {d : RadixCache} {keys : List (List TokenId)} (c : Coherent e)
    (hr : ∃ path, d.Rep path) (h : ∀ key, d.entries key = if key ∈ keys then none else e.prefixCache.entries key) :
    Coherent { e with prefixCache := d } := by
  have hm : memory { e with prefixCache := d } = e.memory.forget keys := by
    simp only [memory, Memory.forget, Memory.mk.injEq, and_true]
    exact funext h
  exact ⟨hr, c.runtime, hm ▸ c.consistent.forget⟩

theorem coherent_op [CfgMatcher μ] (op : Op μ) : Eff.Keeps Coherent (op.run : Eff (VeloEngine R μ) _ _) := by
  by_cases hu : op.Uncapped
  case pos => exact stable_coherent.op (fun _ _ _ => Coherent.withPool) hu
  case neg =>
    intro e c
    have ⟨path, r⟩ := c.cache
    cases op <;> try exact absurd trivial hu
    case setCapacityTokens capacity =>
      have ⟨r', he⟩ := r.same (d := { e.prefixCache with capacityTokens := capacity }) rfl rfl rfl
      have ⟨r'', _, _, h⟩ := RadixCache.evictToCapacity_removed r'
      exact c.withCache ⟨path, r''⟩ (he ▸ h.entries)
    case evictColdest n =>
      have ⟨r', _, h⟩ := RadixCache.evictColdest_removed (n := n) r
      exact c.withCache ⟨path, r'⟩ h.entries

theorem Uncapped.withPool {e : VeloEngine R μ} (u : Uncapped c e) :
    Uncapped c { e with slotPool := p, parserFactory := f } :=
  ⟨u.coherent.withPool, u.exact, u.capacity, u.config⟩

theorem stable_uncapped {config : PagedAttentionConfig} :
    Stable (Uncapped config : VeloEngine R μ → Prop) := by
  refine .of_saved (fun _ u => u.coherent) (fun tokens h e e' _ u hs => ?_) fun e e' u hu => ?_
  case refine_1 =>
    have hm := hs.fits (RadixCache.fits_of_uncapped u.capacity)
    exact ⟨hs.coherent, hm ▸ u.exact.save hs.new, hs.frame.capacity.trans u.capacity, hs.frame.config.trans u.config⟩
  case refine_2 =>
    exact ⟨hu.coherent, hu.memory ▸ u.exact, hu.frame.capacity.trans u.capacity, hu.frame.config.trans u.config⟩

-- An engine starts with an empty cache, on a runtime that holds nothing.
theorem uncapped_withRuntime {e : VeloEngine R μ} {r : R} {config : EngineConfig} (he : withRuntime config r = .ok e)
    (hr : Sound r) (hnew : ∀ h, ¬LawfulKvBlockStore.Live (store r) h) : Uncapped (allocator r).config e := by
  unfold withRuntime at he
  split at he
  case h_1 => contradiction
  case h_2 =>
    cases he
    have hx : Memory.Exact ⟨fun _ => none, { h | LawfulKvBlockStore.Live (store r) h }⟩ := {
      live      := nofun
      injective := nofun
      held h    := absurd h (hnew _) }
    rw [← RadixCache.entries_new] at hx
    exact ⟨⟨⟨_, RadixCache.rep_new⟩, hr, hx.toConsistent⟩, hx, rfl, rfl⟩

-- The engines that a program can come to.
inductive Reachable [CfgMatcher μ] : VeloEngine R μ → Prop
  | new  : withRuntime config r = .ok e → Sound r → (∀ h, ¬LawfulKvBlockStore.Live (store r) h) → Reachable e
  | step : Reachable e → ∀ op : Op μ, Fault.Returned (op.run e).1 → Reachable (op.run e).2

theorem Reachable.coherent [CfgMatcher μ] {e : VeloEngine R μ} (h : Reachable e) : Coherent e := by
  induction h
  case new he hr hnew     => exact (uncapped_withRuntime he hr hnew).coherent
  case step op _ hi       => exact coherent_op op _ hi

section Cpu

variable [CfgMatcher μ] {e e' : VeloEngine CpuMemoryRuntime μ} {config : EngineConfig}

omit [CfgMatcher μ] in
theorem uncapped_new (h : new config = .ok e) : ∃ c : PagedAttentionConfig, Uncapped c e ∧
    c.totalPages = config.memory.pagedTotalPages ∧ c.blockSize = config.memory.pagedBlockSize := by
  unfold new at h
  split at h
  case h_1 => contradiction
  case h_2 r hr =>
    have ⟨hs, hlive, hn, hb⟩ := CpuMemoryRuntime.new_eq_ok hr
    exact ⟨_, uncapped_withRuntime h hs hlive, hn, hb⟩

theorem reachable_new (config : EngineConfig) (h : new config = .ok e) : Reachable e := by
  unfold new at h
  split at h
  case h_1 => contradiction
  case h_2 r hr =>
    have ⟨hs, hlive, _⟩ := CpuMemoryRuntime.new_eq_ok hr
    exact .new h hs hlive

-- The cache, the store and the allocator hold the same handles. Each of them sits on one node of the
-- tree, and each page is free or belongs to one mapping.
structure Exclusive (config : MemoryRuntimeConfig) (e : VeloEngine CpuMemoryRuntime μ) : Prop where
  blocks h  : (∃ k block, e.runtime.store.blocks.lookup k = some block ∧ block.handle = h) ↔
    h ∈ e.prefixCache.handles
  mapped h  : (∃ k mapping, e.runtime.allocator.mappings.lookup k = some mapping ∧ mapping.handle = h) ↔
    h ∈ e.prefixCache.handles
  tokenLen  : e.runtime.allocator.mappings.lookup k = some mapping → mapping.tokenLen = mapping.handle.tokenLen
  node      : h ∈ e.prefixCache.handles → ∃! i, e.prefixCache.handle? i = some h
  rootPath  : e.prefixCache.handle? i = some h → ∃ path, e.prefixCache.RootPath i path ∧ path.length = h.tokenLen
  partition : (e.runtime.allocator.freePages : Multiset PageId) + e.runtime.allocator.mappedPages =
    Multiset.range config.pagedTotalPages
  pages     : e.runtime.allocator.mappings.lookup k = some mapping →
    mapping.pages.length = mapping.tokenLen ⌈/⌉ config.pagedBlockSize

omit [CfgMatcher μ] in
theorem Uncapped.exclusive {c : PagedAttentionConfig} (u : Uncapped c e) (hn : c.totalPages = config.memory.pagedTotalPages)
    (hb : c.blockSize = config.memory.pagedBlockSize) : Exclusive config.memory e := by
  obtain ⟨path, r⟩ := u.coherent.cache
  have hconfig : e.runtime.allocator.config = c := u.config
  have hw : e.runtime.allocator.Wf := u.coherent.runtime.allocator
  have hs : e.runtime.store.Wf := u.coherent.runtime.store
  have hlive h : e.runtime.store.Live h ↔ h ∈ e.prefixCache.handles := by
    rw [r.mem_handles_iff]
    exact ⟨fun hl => u.exact.held hl, fun hk => u.exact.live hk.choose_spec⟩
  have hmapped h : e.runtime.allocator.Mapped h ↔ h ∈ e.prefixCache.handles :=
    (u.coherent.runtime.mapped h).trans (hlive h)
  refine ⟨fun h => ?_, fun h => ?_, hw.tokenLen, fun {h} hh => ?_, fun {i h} hi => ?_, ?_,
    fun hm => ?_⟩
  case refine_1 =>
    rw [← hlive, InMemoryKvStore.live_iff]
    constructor
    case mp =>
      rintro ⟨k, b, hb, hh⟩
      exact ⟨b, by rwa [← hh, hs.id hb], hh⟩
    case mpr =>
      rintro ⟨b, hb, hh⟩
      exact ⟨_, b, hb, hh⟩
  case refine_2 =>
    rw [← hmapped, PagedAttentionBlockManager.Mapped]
    constructor
    case mp =>
      rintro ⟨k, b, hb, hh⟩
      exact ⟨b, by rwa [← hh, hw.id hb], hh⟩
    case mpr =>
      rintro ⟨b, hb, hh⟩
      exact ⟨_, b, hb, hh⟩
  case refine_3 =>
    obtain ⟨i, hi⟩ := RadixCache.mem_handles_iff.mp hh
    refine ⟨i, hi, fun j (hj : _ = _) => ?_⟩
    have hi' := RadixCache.edge?_isSome_of_handle? hi
    have hj' := RadixCache.edge?_isSome_of_handle? hj
    exact r.injective hj' hi' <| u.exact.injective ((r.entries_path hj').trans hj) ((r.entries_path hi').trans hi)
  case refine_4 => exact ⟨path i, r.rootPath (RadixCache.edge?_isSome_of_handle? hi), (r.handle hi).symm⟩
  case refine_5 => rw [← hn, ← hconfig, hw.partition]
  case refine_6 => rw [Nat.ceilDiv_eq_add_pred_div, ← hb, ← hconfig, hw.pages hm, PagedAttentionBlockManager.pagesForTokens]

-- Whatever the calls do and however they end, no memory is leaked and none is shared.
theorem steps_exclusive (config : EngineConfig) (hnew : new config = .ok e)
    (h : ReflTransGen (Op.Step Op.Uncapped) e e') : Exclusive config.memory e' :=
  have ⟨_, u, hn, hb⟩ := uncapped_new hnew
  (stable_uncapped.steps (fun _ _ _ => Uncapped.withPool) u h).exclusive hn hb

-- The second call fails.
theorem steps_exclusive_generate : ∃ e : VeloEngine CpuMemoryRuntime Empty, new ⟨2, ⟨1, 4, 8, 2⟩⟩ = .ok e ∧
    Exclusive ⟨1, 4, 8, 2⟩ ((Op.generate 3 [1, 2, 3] 2 ⟨(⟨⟩ : Guesser List.sum), (⟨0⟩ : Oracle List.sum)⟩).run
      ((Op.generate 3 [] 2 ⟨(⟨⟩ : Guesser List.sum), (⟨0⟩ : Oracle List.sum)⟩).run e).2).2 := by
  refine ⟨_, rfl, steps_exclusive ⟨2, ⟨1, 4, 8, 2⟩⟩ rfl (.tail (.single ⟨_, ?_, ?_, rfl⟩) ⟨_, ?_, ?_, rfl⟩)⟩
  case refine_1 | refine_3 => trivial
  case refine_2 | refine_4 => decide +kernel

end Cpu
end VeloEngine
