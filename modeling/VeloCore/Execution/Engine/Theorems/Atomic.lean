import VeloCore.Execution.Engine.Theorems.Pages

open List MemoryRuntime

namespace InMemoryKvStore

-- A block that is released right after its allocation leaves no trace but its id.
theorem Wf.release_allocate {store s s' : InMemoryKvStore} (w : store.Wf) (hs : store.allocate n = (.ok h, s))
    (hs' : s.release h = (.ok (), s')) : s'.blocks = store.blocks := by
  unfold allocate at hs
  split at hs
  case isTrue => cases hs
  case isFalse =>
    cases hs
    simp only [release, Finmap.lookup_insert, ne_eq, not_true_eq_false, ↓reduceIte] at hs'
    cases hs'
    refine Finmap.ext_lookup fun k => ?_
    rw [Finmap.lookup_erase_eq_ite, Finmap.lookup_insert_eq_ite]
    split
    case isTrue heq => rw [heq, w.lookup_next]
    case isFalse    => rfl

end InMemoryKvStore

namespace VeloEngine

-- A failed call leaves the allocator alone, and gives back the block that it took.
theorem cacheSequence_error {R μ : Type} [MemoryRuntime R] [LawfulMemoryRuntime R] {e e' : VeloEngine R μ}
    (c : Coherent e) (hc : cacheSequence tokens e = (.error fault, e')) :
    allocator e'.runtime = allocator e.runtime ∧ (store e'.runtime = store e.runtime ∨
      ∃ h s, KvBlockStore.allocate tokens.length (store e.runtime) = (.ok h, s) ∧
        KvBlockStore.release h s = (.ok (), store e'.runtime)) := by
  rcases hs : KvBlockStore.allocate tokens.length (store e.runtime) with ⟨error | h, s⟩
  case error =>
    rw [cacheSequence, Eff.bind_error (onStore_error hs)] at hc
    cases hc
    simp [LawfulKvBlockStore.allocate_error hs]
  case ok =>
    rcases ha : (allocator e.runtime).allocate h tokens.length with ⟨error | mapping, a⟩
    case ok =>
      obtain ⟨_, he, _⟩ := cacheSequence_saved c hs ha
      cases hc.symm.trans he
    case error =>
      obtain ⟨s', hs', _, ha', _⟩ := c.runtime.rollback hs ha
      cases hc.symm.trans (cacheSequence_rollback hs ha hs')
      exact ⟨by simp [ha'], .inr ⟨h, s, rfl, by simpa using hs'⟩⟩

variable {μ : Type} {e e' e₁ : VeloEngine CpuMemoryRuntime μ} {tokens prompt : List TokenId} {handle : KvCacheHandle} {span : PageSpan}

-- At most the entry of the prompt is new, what was live has its pages, and new pages were free.
structure Extended (prompt : List TokenId) (e e' : VeloEngine CpuMemoryRuntime μ) : Prop where
  entries : e'.prefixCache.entries = e.prefixCache.entries ∨ e.prefixCache.entries prompt = none ∧
    ∃ handle, e'.prefixCache.entries = Function.update e.prefixCache.entries prompt (some handle)
  live    : ∀ h, e.runtime.store.Live h → e'.runtime.store.Live h ∧
    e'.runtime.allocator.materializeSpan h = e.runtime.allocator.materializeSpan h
  pages   : ∀ k mapping, e'.runtime.allocator.mappings.lookup k = some mapping →
    e.runtime.allocator.mappings.lookup k = some mapping ∨ mapping.pages ⊆ e.runtime.allocator.freePages

-- Nothing that was saved has changed.
structure Untouched (e e' : VeloEngine CpuMemoryRuntime μ) : Prop where
  entries   : e'.prefixCache.entries = e.prefixCache.entries
  blocks    : e'.runtime.store.blocks = e.runtime.store.blocks
  mappings  : e'.runtime.allocator.mappings = e.runtime.allocator.mappings
  freePages : e'.runtime.allocator.freePages.length = e.runtime.allocator.freePages.length

theorem Unchanged.extended (u : Unchanged e e') (hr : e'.runtime = e.runtime) : Extended prompt e e' where
  entries           := .inl (congrArg Memory.entries u.memory)
  live _ hl         := ⟨hr ▸ hl, by rw [hr]⟩
  pages _ _ hk      := .inl (hr ▸ hk)

theorem Extended.of_lookup (x : Extended prompt e₁ e') (u : Unchanged e e₁) (hr : e₁.runtime = e.runtime) :
    Extended prompt e e' where
  entries := by
    have he : e₁.prefixCache.entries = e.prefixCache.entries := congrArg Memory.entries u.memory
    exact he ▸ x.entries
  live    := hr ▸ x.live
  pages   := hr ▸ x.pages

theorem cacheSequence_untouched (c : Coherent e) (hc : cacheSequence tokens e = (.error fault, e')) : Untouched e e' := by
  have ⟨ha, hs⟩ := cacheSequence_error c hc
  have ha : e'.runtime.allocator = e.runtime.allocator := ha
  have hentries : e'.prefixCache.entries = e.prefixCache.entries := by
    rcases cacheSequence_cases c tokens with ⟨_, _, hc', _⟩ | ⟨_, _, hc', u⟩ <;> cases hc.symm.trans hc'
    exact congrArg Memory.entries u.memory
  refine ⟨hentries, ?_, by rw [ha], by rw [ha]⟩
  rcases hs with hs | ⟨h, s, hs, hs'⟩
  case inl => exact congrArg InMemoryKvStore.blocks hs
  case inr => exact InMemoryKvStore.Wf.release_allocate c.runtime.store hs hs'

theorem cacheSequence_extended (hu : Unlimited e)
    (hnone : e.prefixCache.entries tokens = none) (hc : cacheSequence tokens e = (.ok handle, e')) : Extended tokens e e' := by
  have s : Saved tokens handle e e' := .of_cacheSequence hu.coherent hc
  have x := s.extends hu.coherent hnone hc
  refine ⟨.inr ⟨hnone, handle, congrArg Memory.entries (s.memory_eq hu)⟩,
    fun h hl => ⟨x.live hl, x.span hl⟩, fun k mapping hk => ?_⟩
  have ⟨new, ha⟩ := cacheSequence_allocate hu.coherent hnone hc
  by_cases hid : k = handle.blockId
  case neg => exact .inl ((cacheSequence_lookup hu.coherent hnone hc hid).symm.trans hk)
  case pos =>
    have ha : e.runtime.allocator.allocate handle tokens.length = (.ok new, e'.runtime.allocator) := ha
    simp only [PagedAttentionBlockManager.allocate] at ha
    split at ha
    case isTrue => cases ha
    case isFalse =>
      have ha := (Prod.mk.inj ha).right
      rw [← ha, hid, Finmap.lookup_insert] at hk
      cases hk
      exact .inr (take_subset _ _)

-- The pages of a live handle.
def Maps (e : VeloEngine CpuMemoryRuntime μ) (span : PageSpan) : Prop :=
  ∃ h, e.runtime.store.Live h ∧ e.runtime.allocator.materializeSpan h = some span

-- A prefill that returns extends the memory by the prompt, and one that fails leaves it as it was.
theorem prefill_atomic (hu : Unlimited e) (prompt : List TokenId) :
    (∃ out e', prefill prompt e = (.ok out, e') ∧ Extended prompt e e' ∧
      ∀ span, out.insertedPages = some span ∨ out.cachedPages = some span → e'.Maps span) ∨
    ∃ error e', prefill prompt e = (.error (.err error), e') ∧ Untouched e e' := by
  obtain ⟨res, e₁, hl, u, hr, hres, hmatched, hhandle⟩ := lookup_unchanged hu.coherent prompt
  have hentries : e₁.prefixCache.entries = e.prefixCache.entries := congrArg Memory.entries u.memory
  -- The matched handle is that of an entry, which is still live.
  have hcached {e' span} (x : Extended prompt e e') (hs : res.handle.bind e'.runtime.allocator.materializeSpan = some span) :
      e'.Maps span := by
    rw [hhandle] at hs
    obtain ⟨h, hh, hspan⟩ := Option.bind_eq_some_iff.mp hs
    obtain ⟨⟨k, h⟩, hk, (heq : h = _)⟩ := Option.map_eq_some_iff.mp hh
    subst heq
    obtain ⟨_, hentry, _⟩ := longestPrefix_eq_some_iff.mp hk
    exact ⟨h, (x.live h (hu.coherent.consistent.live hentry)).left, hspan⟩
  rw [prefill, Eff.bind_ok hl]
  unfold cacheSequenceIf
  split
  case isFalse =>
    have x : Extended prompt e e₁ := u.extended hr
    exact .inl ⟨_, e₁, rfl, x, fun span hs => hs.elim (by simp) (hcached x)⟩
  case isTrue hmiss =>
    have hnone : e₁.prefixCache.entries prompt = none :=
      hentries ▸ (longestPrefix_lt_iff hmiss.left).mp (hmatched ▸ hmiss.right)
    rw [bind_assoc]
    rcases hc : cacheSequence prompt e₁ with ⟨fault | handle, e'⟩
    case ok =>
      rw [Eff.bind_ok hc]
      have hu₁ : Unlimited e₁ := ⟨u.coherent, u.frame.capacity.trans hu.capacity⟩
      have x := (cacheSequence_extended hu₁ hnone hc).of_lookup u hr
      refine .inl ⟨_, e', rfl, x, fun span hs => hs.elim (fun hs => ⟨handle, ?_, hs⟩) (hcached x)⟩
      exact (Saved.of_cacheSequence u.coherent hc).live
    case error =>
      rw [Eff.bind_error hc]
      have h := cacheSequence_untouched u.coherent hc
      rcases cacheSequence_cases u.coherent prompt with ⟨_, _, hc', _⟩ | ⟨error, _, hc', _⟩ <;> cases hc.symm.trans hc'
      exact .inr ⟨error, e', rfl, h.entries.trans hentries, hr ▸ h.blocks, hr ▸ h.mappings, hr ▸ h.freePages⟩

theorem Extended.maps (x : Extended prompt e e') (h : e.Maps span) : e'.Maps span :=
  have ⟨handle, hl, hs⟩ := h
  have ⟨hl', hs'⟩ := x.live handle hl
  ⟨handle, hl', hs'.trans hs⟩

theorem Untouched.maps (u : Untouched e e') (h : e.Maps span) : e'.Maps span := by
  have ⟨handle, hl, hs⟩ := h
  refine ⟨handle, ?_, ?_⟩
  case refine_1 => rwa [InMemoryKvStore.live_iff, u.blocks, ← InMemoryKvStore.live_iff]
  case refine_2 => rwa [PagedAttentionBlockManager.materializeSpan, u.mappings]

-- What is mapped in an engine whose cache has no capacity.
structure Holds (spans : PageSpan → Prop) (e : VeloEngine CpuMemoryRuntime μ) : Prop extends Unlimited e where
  maps : ∀ span, spans span → e.Maps span

theorem Holds.withPool (h : Holds spans e) : Holds spans { e with slotPool := p, parserFactory := q } :=
  ⟨h.toUnlimited.withPool, h.maps⟩

theorem prefill_holds (spans : PageSpan → Prop) (prompt : List TokenId) :
    Eff.Keeps (Holds spans) (prefill prompt : Eff (VeloEngine CpuMemoryRuntime μ) _ _) := by
  intro e h
  refine ⟨stable_unlimited.prefill prompt e h.toUnlimited, fun span hspan => ?_⟩
  rcases prefill_atomic h.toUnlimited prompt with ⟨_, _, hp, x, _⟩ | ⟨_, _, hp, u⟩
  case inl => exact hp ▸ x.maps (h.maps span hspan)
  case inr => exact hp ▸ u.maps (h.maps span hspan)

end VeloEngine
