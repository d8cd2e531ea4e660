import VeloCore.Execution.Engine.Basic
import VeloCore.Objects.Memory
import VeloCore.Objects.RadixCache.Theorems.Refinement

open List MemoryRuntime

namespace VeloEngine

variable {R μ : Type} [MemoryRuntime R] [LawfulMemoryRuntime R]

noncomputable def memory (e : VeloEngine R μ) : Memory where
  entries := e.prefixCache.entries
  live := { h | LawfulKvBlockStore.Live (store e.runtime) h }

-- The cache is a tree, the store and the allocator agree on what is live, and what the cache holds
-- is live.
structure Coherent (e : VeloEngine R μ) : Prop where
  cache      : ∃ path, e.prefixCache.Rep path
  runtime    : Sound e.runtime
  consistent : e.memory.Consistent

def freePages (e : VeloEngine R μ) : Nat :=
  (allocator e.runtime).freePages.length

def pagesFor (e : VeloEngine R μ) (tokenLen : Nat) : Nat :=
  (allocator e.runtime).pagesForTokens tokenLen

-- The store can take `k` more blocks.
def Room (k : Nat) (e : VeloEngine R μ) : Prop :=
  LawfulKvBlockStore.Room k (store e.runtime)

-- The parts of an engine that saving a sequence does not touch.
structure Frame (e e' : VeloEngine R μ) : Prop where
  decoder       : e'.decoder = e.decoder
  slotPool      : e'.slotPool = e.slotPool
  parserFactory : e'.parserFactory = e.parserFactory
  config        : (allocator e'.runtime).config = (allocator e.runtime).config
  capacity      : e'.prefixCache.capacityTokens = e.prefixCache.capacityTokens

variable {e e' e'' : VeloEngine R μ} {tokens : List TokenId} {h h' : KvCacheHandle}

omit [LawfulMemoryRuntime R] in
theorem pagesFor_congr (h : (allocator e'.runtime).config = (allocator e.runtime).config) : e'.pagesFor = e.pagesFor := by
  funext n
  rw [pagesFor, pagesFor, PagedAttentionBlockManager.pagesForTokens, PagedAttentionBlockManager.pagesForTokens, h]

omit [LawfulMemoryRuntime R] in
theorem Frame.refl : Frame e e :=
  ⟨rfl, rfl, rfl, rfl, rfl⟩

omit [LawfulMemoryRuntime R] in
theorem Frame.trans (f : Frame e e') (g : Frame e' e'') : Frame e e'' where
  decoder       := g.decoder.trans f.decoder
  slotPool      := g.slotPool.trans f.slotPool
  parserFactory := g.parserFactory.trans f.parserFactory
  config        := g.config.trans f.config
  capacity      := g.capacity.trans f.capacity

-- The memory stands for what it stood for.
structure Unchanged (e e' : VeloEngine R μ) : Prop where
  frame    : Frame e e'
  coherent : Coherent e'
  memory   : e'.memory = e.memory

-- The sequence was saved under `h`; then entries may have been evicted, whose memory stays taken.
-- An insertion that fits evicts nothing.
structure Saved (tokens : List TokenId) (h : KvCacheHandle) (e e' : VeloEngine R μ) : Prop where
  frame     : Frame e e'
  coherent  : Coherent e'
  new       : h ∉ e.memory.live
  tokenLen  : h.tokenLen = tokens.length
  memory    : ∃ keys, e'.memory = (e.memory.save tokens h).forget keys
  fits      : e.prefixCache.Fits tokens → e'.memory = e.memory.save tokens h
  freePages : e.freePages ≤ e'.freePages + e.pagesFor tokens.length
  room k    : Room (k + 1) e → Room k e'

section CacheSequence

open LawfulKvBlockStore

variable {keys : List (List TokenId)} {handles : List KvCacheHandle}

theorem mem_save_live : h' ∈ (e.memory.save tokens h).live ↔
    Live (store e.runtime) h' ∧ e.memory.entries tokens ≠ some h' ∨ h' = h :=
  Iff.rfl

theorem Saved.of_insert (c : Coherent e) {r : R} (hr : Sound r)
    (hconfig : (allocator r).config = (allocator e.runtime).config)
    (hlive : ∀ h', Live (store r) h' ↔ h' ∈ (e.memory.save tokens h).live)
    (hnew : h ∉ e.memory.live) (hlen : h.tokenLen = tokens.length)
    (hfree : e.freePages ≤ (allocator r).freePages.length + e.pagesFor tokens.length)
    (hroom : ∀ k, Room (k + 1) e → LawfulKvBlockStore.Room k (store r))
    (hrep : ∃ path, cache.evictToCapacity.Rep path)
    (he : cache.entries = Function.update e.prefixCache.entries tokens (some h))
    (hrem : RadixCache.Removed cache cache.evictToCapacity keys handles)
    (hcap : cache.capacityTokens = e.prefixCache.capacityTokens)
    (hres : cache.residentTokens = e.prefixCache.residentTokens -
      ((e.prefixCache.entries tokens).map (·.tokenLen)).getD 0 + h.tokenLen) :
    Saved tokens h e { e with runtime := r, prefixCache := cache.evictToCapacity } := by
  have hm : VeloEngine.memory { e with runtime := r, prefixCache := cache.evictToCapacity } =
      (e.memory.save tokens h).forget keys := by
    simp only [VeloEngine.memory, Memory.forget, Memory.mk.injEq]
    exact ⟨funext fun key => by rw [hrem.entries, he]; rfl, Set.ext hlive⟩
  exact {
    frame := ⟨rfl, rfl, rfl, hconfig, hrem.capacity.trans hcap⟩
    coherent := ⟨hrep, hr, hm ▸ (c.consistent.save hnew).forget⟩
    new := hnew
    tokenLen := hlen
    memory := ⟨keys, hm⟩
    fits := fun hfits => by
      have hsame := RadixCache.evictToCapacity_eq_self (c := cache) (by rwa [hcap, hres, hlen])
      simp only [VeloEngine.memory, hsame, Memory.save, Memory.mk.injEq]
      exact ⟨he, Set.ext hlive⟩
    freePages := hfree
    room := hroom }

-- There is room for the block and there are pages for it.
theorem cacheSequence_saved (c : Coherent e)
    (hs : KvBlockStore.allocate tokens.length (store e.runtime) = (.ok h, s))
    (ha : (allocator e.runtime).allocate h tokens.length = (.ok mapping, a)) :
    ∃ e', cacheSequence tokens e = (.ok h, e') ∧ Saved tokens h e e' := by
  have ⟨hr, hlen, hnew, hlive, hconfig, hfree, hroom⟩ := c.runtime.reserve hs ha
  have ⟨path, rep⟩ := c.cache
  obtain ⟨inserted, _, hi, cache, keys, handles, -, rfl, hrep, hreplaced, he, hrem, hcap, hres⟩ :=
    RadixCache.insert_returns (ε := Empty) rep hlen.symm
  have hstore : onStore (KvBlockStore.allocate tokens.length) e =
      (.ok h, { e with runtime := setStore s e.runtime }) := onStore_ok hs
  have hpages := Eff.attempt_ok <| onAllocator_ok (f := (·.allocate h tokens.length))
    (e := { e with runtime := setStore s e.runtime }) (by simpa using ha)
  have hinsert := onCache_ok (e := { e with runtime := setAllocator a (setStore s e.runtime) }) hi
  rw [cacheSequence, Eff.bind_ok hstore, Eff.bind_ok hpages]
  dsimp only
  rw [Eff.bind_ok hinsert]
  have hentry : e.memory.entries tokens = inserted.replaced := hreplaced.symm
  cases hrepl : inserted.replaced
  case none =>
    refine ⟨_, rfl, .of_insert c hr (by simpa using hconfig) (fun h' => ?_) hnew hlen ?_ ?_ hrep he hrem hcap
      (hreplaced ▸ hres)⟩
    case refine_1 => simp [mem_save_live, hentry, hrepl, hlive]
    case refine_2 => simpa [freePages, pagesFor] using hfree.le
    case refine_3 => simpa [Room] using hroom
  case some replaced =>
    have hl := c.consistent.live (hentry.trans hrepl)
    have ⟨s', a', hs', ha', hr', hlive', hconfig', hfree', hroom'⟩ :=
      hr.release (h := replaced) (by simpa [hlive] using .inl hl)
    have hrelease := onStore_ok (f := KvBlockStore.release replaced) (e := { e with
      runtime := setAllocator a (setStore s e.runtime), prefixCache := cache.evictToCapacity }) hs'
    have hunmap := onAllocator_ok (f := (·.release replaced)) (e := { e with
      runtime := setStore s' (setAllocator a (setStore s e.runtime))
      prefixCache := cache.evictToCapacity }) (by simpa using ha')
    dsimp only
    rw [Eff.bind_ok hrelease, Eff.bind_ok hunmap]
    refine ⟨_, rfl, .of_insert c (r := setAllocator a' (setStore s' _)) hr' ?_ (fun h' => ?_) hnew hlen ?_ ?_
      hrep he hrem hcap (hreplaced ▸ hres)⟩
    case refine_1 => simpa using hconfig'.trans (by simpa using hconfig)
    case refine_2 =>
      have hne (heq : h' = h) : h' ≠ replaced := by
        rintro rfl
        exact hnew (heq ▸ hl)
      simp [mem_save_live, hentry, hrepl, hlive, hlive']
      rw [or_and_right, and_iff_left_of_imp hne, eq_comm (a := replaced)]
    case refine_3 =>
      simp [freePages, pagesFor] at hfree hfree' ⊢
      omega
    case refine_4 =>
      intro k hk
      simpa using hroom' k (by simpa using hroom k hk)

-- A failed call leaves another runtime behind, but one with the same memory.
theorem Unchanged.of_runtime (c : Coherent e) {r : R} (hr : Sound r)
    (hconfig : (allocator r).config = (allocator e.runtime).config)
    (hlive : ∀ h, Live (store r) h ↔ Live (store e.runtime) h) :
    Unchanged e { e with runtime := r } := by
  have hm : VeloEngine.memory { e with runtime := r } = e.memory := by
    simp only [VeloEngine.memory, Memory.mk.injEq, true_and]
    exact Set.ext hlive
  exact ⟨⟨rfl, rfl, rfl, hconfig, rfl⟩, ⟨c.cache, hr, hm ▸ c.consistent⟩, hm⟩

-- There are no pages for the block, and it is given back.
theorem cacheSequence_rollback (hs : KvBlockStore.allocate tokens.length (store e.runtime) = (.ok h, s))
    (ha : (allocator e.runtime).allocate h tokens.length = (.error error, a)) (hs' : KvBlockStore.release h s = (.ok (), s')) :
    cacheSequence tokens e = (.error (.err (.pagedAttention error)),
      { e with runtime := setStore s' (setAllocator a (setStore s e.runtime)) }) := by
  have hstore : onStore (KvBlockStore.allocate tokens.length) e =
      (.ok h, { e with runtime := setStore s e.runtime }) := onStore_ok hs
  have hpages := Eff.attempt_error <| onAllocator_error (f := (·.allocate h tokens.length))
    (e := { e with runtime := setStore s e.runtime }) (by simpa using ha)
  have hrelease := onStore_ok (f := KvBlockStore.release h)
    (e := { e with runtime := setAllocator a (setStore s e.runtime) }) (by simpa using hs')
  rw [cacheSequence, Eff.bind_ok hstore, Eff.bind_ok hpages]
  dsimp only
  rw [Eff.bind_ok hrelease]
  rfl

theorem cacheSequence_cases (c : Coherent e) (tokens : List TokenId) :
    (∃ h e', cacheSequence tokens e = (.ok h, e') ∧ Saved tokens h e e') ∨
      ∃ error e', cacheSequence tokens e = (.error (.err error), e') ∧ Unchanged e e' := by
  match hs : KvBlockStore.allocate tokens.length (store e.runtime) with
  | (.error error, s) =>
    refine .inr ⟨_, _, Eff.bind_error (onStore_error hs), ?_⟩
    rw [allocate_error hs]
    have hr : Sound (setStore (store e.runtime) e.runtime) := {
      runtime   := LawfulMemoryRuntime.wf_setStore c.runtime.runtime
      store     := by simpa using c.runtime.store
      allocator := by simpa using c.runtime.allocator
      mapped    := by simpa using c.runtime.mapped }
    exact .of_runtime c hr (by simp) (by simp)
  | (.ok h, s) =>
    match ha : (allocator e.runtime).allocate h tokens.length with
    | (.ok mapping, a) =>
      have ⟨e', he, hsaved⟩ := cacheSequence_saved c hs ha
      exact .inl ⟨h, e', he, hsaved⟩
    | (.error error, a) =>
      have ⟨s', hs', hr, ha', hlive⟩ := c.runtime.rollback hs ha
      exact .inr ⟨.pagedAttention error, _, cacheSequence_rollback hs ha hs', .of_runtime c hr (by simp [ha']) (by simpa using hlive)⟩

theorem cacheSequence_isOk (c : Coherent e) (hpos : 0 < tokens.length) (hroom : Room (k + 1) e)
    (hfree : e.pagesFor tokens.length ≤ e.freePages) :
    ∃ h e', cacheSequence tokens e = (.ok h, e') ∧ Saved tokens h e e' := by
  have ⟨h, s, hs⟩ := allocate_isOk hpos hroom
  have ⟨_, _, (ha : (allocator e.runtime).allocate h tokens.length = _)⟩ :=
    PagedAttentionBlockManager.allocate_isOk hfree
  exact ⟨h, cacheSequence_saved c hs ha⟩

end CacheSequence

theorem lookup_unchanged (c : Coherent e) (tokens : List TokenId) :
    ∃ res e', onCache (RadixCache.lookup tokens) e = (.ok res, e') ∧ Unchanged e e' ∧
      e'.runtime = e.runtime ∧ e'.prefixCache.residentTokens = e.prefixCache.residentTokens ∧
      res.matchedTokens = ((longestPrefix e.prefixCache.entries tokens).map (·.1)).getD 0 ∧
      res.handle = (longestPrefix e.prefixCache.entries tokens).map (·.2) := by
  have ⟨path, rep⟩ := c.cache
  have ⟨res, cache, hl, rep', he, hcap, hres, hmatched, hhandle⟩ :=
    RadixCache.lookup_returns (ε := Empty) tokens rep
  have hm : memory { e with prefixCache := cache } = e.memory := by rw [memory, he, memory]
  exact ⟨res, _, onCache_ok hl, ⟨⟨rfl, rfl, rfl, rfl, hcap⟩, ⟨⟨path, rep'⟩, c.runtime, hm ▸ c.consistent⟩, hm⟩,
    rfl, hres, hmatched, hhandle⟩

theorem bindSlot_unchanged (c : Coherent e) (slot : SlotId) (pages : List UInt32) :
    Unchanged e (bindSlot slot pages e).2 := by
  rw [bindSlot, Eff.zoom_snd, Eff.call_snd]
  have ⟨hw, hs, ha⟩ := LawfulMemoryRuntime.bindSlot_frame c.runtime.runtime
    (Prod.mk.eta (p := MemoryRuntime.bindSlot slot pages e.runtime)).symm
  have hr : Sound (MemoryRuntime.bindSlot slot pages e.runtime).2 := {
    runtime   := hw
    store     := hs ▸ c.runtime.store
    allocator := ha ▸ c.runtime.allocator
    mapped    := hs ▸ ha ▸ c.runtime.mapped }
  exact .of_runtime c hr (by rw [ha]) (by simp [hs])

theorem bindSlot_isOk (c : Coherent e) {pages : List UInt32}
    (h : pages.length ≤ (allocator e.runtime).config.totalPages) :
    ∃ e', bindSlot slot pages e = (.ok (), e') ∧ Unchanged e e' ∧ store e'.runtime = store e.runtime ∧
      allocator e'.runtime = allocator e.runtime := by
  have ⟨r, (hr : MemoryRuntime.bindSlot slot pages e.runtime = _)⟩ :=
    LawfulMemoryRuntime.bindSlot_isOk c.runtime.runtime h
  have hb : bindSlot slot pages e = (.ok (), { e with runtime := r }) := Eff.zoom_ok (Eff.call_ok hr)
  have hu := bindSlot_unchanged c slot pages
  rw [hb] at hu
  exact ⟨_, hb, hu, (LawfulMemoryRuntime.bindSlot_frame c.runtime.runtime hr).right⟩

end VeloEngine
