import VeloCore.Execution.Engine.Theorems.Coherent
import VeloCore.Execution.Engine.Theorems.Phases
import VeloCore.Execution.Engine.Theorems.Prefill

open List MemoryRuntime

namespace PagedAttentionBlockManager

variable {a a' : PagedAttentionBlockManager} {h h' : KvCacheHandle} {span span' : PageSpan}

theorem Mapped.span_eq (hm : a.Mapped h) (hs : a.materializeSpan h = some span) : ∃ mapping,
    a.mappings.lookup h.blockId = some mapping ∧ mapping.handle = h ∧ span.pages = mapping.pages := by
  have ⟨mapping, hl, hh⟩ := hm
  rw [PagedAttentionBlockManager.materializeSpan, hl] at hs
  cases hs
  exact ⟨mapping, hl, hh, rfl⟩

theorem Mapped.length_span (w : a.Wf) (hm : a.Mapped h) (hs : a.materializeSpan h = some span) :
    span.pages.length = a.pagesForTokens h.tokenLen := by
  have ⟨mapping, hl, hh, hp⟩ := hm.span_eq hs
  rw [hp, w.pages hl, w.tokenLen hl, hh]

theorem Mapped.nodup_span (w : a.Wf) (hm : a.Mapped h) (hs : a.materializeSpan h = some span) : span.pages.Nodup := by
  have ⟨mapping, hl, _, hp⟩ := hm.span_eq hs
  have hn := w.partition ▸ Multiset.nodup_range a.config.totalPages
  rw [mappedPages, Finmap.bindValues_erase hl] at hn
  have hn := (Multiset.nodup_add.mp hn).right.left
  exact hp ▸ (Multiset.nodup_add.mp hn).left

-- No page belongs to two handles.
theorem Mapped.disjoint_span (w : a.Wf) (hm : a.Mapped h) (hm' : a.Mapped h') (hne : h ≠ h')
    (hs : a.materializeSpan h = some span) (hs' : a.materializeSpan h' = some span') : span.pages.Disjoint span'.pages := by
  have ⟨mapping, hl, hh, hp⟩ := hm.span_eq hs
  have ⟨mapping', hl', hh', hp'⟩ := hm'.span_eq hs'
  have hid : h'.blockId ≠ h.blockId := by
    intro heq
    have hmap : mapping = mapping' := Option.some.inj <| hl.symm.trans <| heq ▸ hl'
    exact hne (hh ▸ hh' ▸ congrArg (·.handle) hmap)
  have hn := w.partition ▸ Multiset.nodup_range a.config.totalPages
  rw [mappedPages, Finmap.bindValues_erase hl,
    Finmap.bindValues_erase (a := h'.blockId) (b := mapping') (by rwa [Finmap.lookup_erase_ne hid])] at hn
  have hn := (Multiset.nodup_add.mp (Multiset.nodup_add.mp hn).right.left).right.right
  rw [Multiset.disjoint_add_right] at hn
  exact hp ▸ hp' ▸ (Multiset.coe_disjoint ..).mp hn.left

theorem allocate_lookup (he : a.allocate h n = (.ok mapping, a')) (hk : k ≠ h.blockId) :
    a'.mappings.lookup k = a.mappings.lookup k := by
  simp only [allocate] at he
  split at he <;> cases he
  exact Finmap.lookup_insert_of_ne _ hk

theorem release_lookup (he : a.release h = (.ok (), a')) (hk : k ≠ h.blockId) : a'.mappings.lookup k = a.mappings.lookup k := by
  unfold release at he
  split at he <;> cases he
  exact Finmap.lookup_erase_ne hk

end PagedAttentionBlockManager

namespace VeloEngine

variable {R μ : Type} [MemoryRuntime R] [LawfulMemoryRuntime R] {e e' e'' e₁ : VeloEngine R μ}

section Filled

-- No memory is taken for a sequence of no tokens.
structure Filled (e : VeloEngine R μ) : Prop where
  coherent : Coherent e
  tokenLen : h ∈ e.memory.live → 0 < h.tokenLen

theorem stable_filled : Stable (Filled : VeloEngine R μ → Prop) := by
  refine .of_saved (fun _ f => f.coherent) (fun tokens h e e' hne f hs => ⟨hs.coherent, fun {h'} hl => ?_⟩)
    fun e e' f hu => ⟨hu.coherent, fun hl => f.tokenLen (hu.memory ▸ hl)⟩
  have ⟨keys, hm⟩ := hs.memory
  rw [hm] at hl
  rcases hl with ⟨hl, _⟩ | rfl
  case inl => exact f.tokenLen hl
  case inr => exact hs.tokenLen ▸ length_pos_of_ne_nil hne

theorem Filled.withPool (f : Filled e) : Filled { e with slotPool := p, parserFactory := q } :=
  ⟨f.coherent.withPool, f.tokenLen⟩

theorem Filled.entries_nil (f : Filled e) : e.memory.entries [] = none := by
  rw [Option.eq_none_iff_forall_ne_some]
  intro h hh
  have ⟨_, rep⟩ := f.coherent.cache
  have hlen := f.tokenLen (f.coherent.consistent.live hh)
  rw [rep.tokenLen_eq hh] at hlen
  exact Nat.lt_irrefl 0 hlen

variable [CfgMatcher μ]

theorem filled_op (op : Op μ) : Eff.Keeps Filled (op.run : Eff (VeloEngine R μ) _ _) := by
  by_cases hu : op.Uncapped
  case pos => exact stable_filled.op (fun _ _ _ => Filled.withPool) hu
  case neg =>
    intro e f
    refine ⟨coherent_op op e f.coherent, ?_⟩
    cases op <;> first | exact absurd trivial hu | exact f.tokenLen

theorem Reachable.filled (h : Reachable e) : Filled e := by
  induction h
  case new he hr hnew =>
    refine ⟨(Reachable.new he hr hnew).coherent, fun {h} hm => ?_⟩
    unfold withRuntime at he
    split at he <;> cases he
    exact absurd hm (hnew h)
  case step op _ hi => exact filled_op op _ hi

end Filled

-- The cache evicts nothing.
structure Unlimited (e : VeloEngine R μ) : Prop where
  coherent : Coherent e
  capacity : e.prefixCache.capacityTokens = none

theorem stable_unlimited : Stable (Unlimited : VeloEngine R μ → Prop) :=
  .of_saved (fun _ u => u.coherent) (fun _ _ _ _ _ u s => ⟨s.coherent, s.frame.capacity.trans u.capacity⟩)
    fun _ _ u h => ⟨h.coherent, h.frame.capacity.trans u.capacity⟩

theorem Unlimited.withPool (u : Unlimited e) : Unlimited { e with slotPool := p, parserFactory := q } :=
  ⟨u.coherent.withPool, u.capacity⟩

theorem Saved.memory_eq (s : Saved tokens h e e') (u : Unlimited e) : e'.memory = e.memory.save tokens h :=
  s.fits (RadixCache.fits_of_uncapped u.capacity)

-- Memory is only added, and the entries may lose what they hold.
structure Extends (e e' : VeloEngine R μ) : Prop where
  coherent : Coherent e'
  live     : h ∈ e.memory.live → h ∈ e'.memory.live
  span     : h ∈ e.memory.live → (allocator e'.runtime).materializeSpan h = (allocator e.runtime).materializeSpan h
  entries  : h ∈ e.memory.live → e'.memory.entries key = some h → e.memory.entries key = some h
  config   : (allocator e'.runtime).config = (allocator e.runtime).config

theorem Extends.trans (x : Extends e e') (x' : Extends e' e'') : Extends e e'' where
  coherent      := x'.coherent
  live h        := x'.live (x.live h)
  span h        := (x'.span (x.live h)).trans (x.span h)
  entries h hk  := x.entries h (x'.entries (x.live h) hk)
  config        := x'.config.trans x.config

theorem Unchanged.extends (u : Unchanged e e') (ha : allocator e'.runtime = allocator e.runtime) : Extends e e' where
  coherent     := u.coherent
  live h       := u.memory ▸ h
  span _       := by rw [ha]
  entries _ hk := u.memory ▸ hk
  config       := by rw [ha]

section CacheSequence

variable {tokens : List TokenId} {handle h : KvCacheHandle}

-- The pages that a sequence gets were free, and only those of the entry that it replaces are given back.
theorem cacheSequence_allocator (c : Coherent e) (hc : cacheSequence tokens e = (.ok handle, e')) :
    ∃ mapping a, (allocator e.runtime).allocate handle tokens.length = (.ok mapping, a) ∧
      (e.memory.entries tokens = none ∧ allocator e'.runtime = a ∨
        ∃ replaced, e.memory.entries tokens = some replaced ∧ a.release replaced = (.ok (), allocator e'.runtime)) := by
  have ⟨handle', e₁, hs, hc⟩ := Eff.bind_eq_ok_iff.mp hc
  have ⟨s, hs, he₁⟩ := Eff.zoom_eq_ok_iff.mp hs
  have ⟨res, e₂, ha, hc⟩ := Eff.bind_eq_ok_iff.mp hc
  cases res
  case error =>
    have ⟨_, _, _, hc⟩ := Eff.bind_eq_ok_iff.mp hc
    cases hc
  case ok mapping =>
    have ⟨a, ha, he₂⟩ := Eff.zoom_eq_ok_iff.mp (Eff.attempt_eq_ok_iff.mp ha)
    have ⟨inserted, e₃, hi, hc⟩ := Eff.bind_eq_ok_iff.mp hc
    have ⟨cache, hi, he₃⟩ := Eff.zoom_eq_ok_iff.mp hi
    have ⟨_, hlen, _⟩ := LawfulKvBlockStore.allocate_ok c.runtime.store (Eff.call_eq_ok_iff.mp hs)
    have ⟨path, rep⟩ := c.cache
    have ⟨inserted', cache', hi', _, _, _, _, _, _, hreplaced, _⟩ :=
      RadixCache.insert_returns (ε := Empty) rep hlen.symm
    have hcache : e₂.prefixCache = e.prefixCache := by rw [he₂, he₁]
    rw [hcache, hi'] at hi
    cases hi
    have hentry : e.memory.entries tokens = inserted.replaced := hreplaced.symm
    have ha := Eff.call_eq_ok_iff.mp ha
    rw [he₁, LawfulMemoryRuntime.allocator_setStore] at ha
    have ha₃ : allocator e₃.runtime = a := by rw [he₃, he₂, LawfulMemoryRuntime.allocator_setAllocator]
    cases hr : inserted.replaced <;> simp only [hr] at hc
    case none =>
      cases hc
      exact ⟨mapping, a, ha, .inl ⟨hentry.trans hr, ha₃⟩⟩
    case some replaced =>
      have ⟨_, e₄, hs₄, hc⟩ := Eff.bind_eq_ok_iff.mp hc
      have ⟨_, _, he₄⟩ := Eff.zoom_eq_ok_iff.mp hs₄
      have ⟨_, e₅, ha₅, hc⟩ := Eff.bind_eq_ok_iff.mp hc
      have ⟨a', ha', he₅⟩ := Eff.zoom_eq_ok_iff.mp ha₅
      cases hc
      have ha' := Eff.call_eq_ok_iff.mp ha'
      rw [he₄, LawfulMemoryRuntime.allocator_setStore, ha₃] at ha'
      refine ⟨mapping, a, ha, .inr ⟨replaced, hentry.trans hr, ?_⟩⟩
      rw [he₅, LawfulMemoryRuntime.allocator_setAllocator]
      exact ha'

theorem cacheSequence_allocate (c : Coherent e) (hnone : e.memory.entries tokens = none)
    (hc : cacheSequence tokens e = (.ok handle, e')) :
    ∃ mapping, (allocator e.runtime).allocate handle tokens.length = (.ok mapping, allocator e'.runtime) := by
  have ⟨mapping, a, ha, h⟩ := cacheSequence_allocator c hc
  rcases h with ⟨_, he⟩ | ⟨_, hentry, _⟩
  case inl => exact ⟨mapping, he ▸ ha⟩
  case inr => cases hnone.symm.trans hentry

-- A sequence that is new to the cache gets pages, and no others are given back.
theorem cacheSequence_lookup (c : Coherent e) (hnone : e.memory.entries tokens = none)
    (hc : cacheSequence tokens e = (.ok handle, e')) (hk : k ≠ handle.blockId) :
    (allocator e'.runtime).mappings.lookup k = (allocator e.runtime).mappings.lookup k :=
  have ⟨_, ha⟩ := cacheSequence_allocate c hnone hc
  PagedAttentionBlockManager.allocate_lookup ha hk

theorem Saved.of_cacheSequence (c : Coherent e) (hc : cacheSequence tokens e = (.ok handle, e')) : Saved tokens handle e e' := by
  rcases cacheSequence_cases c tokens with ⟨_, _, hc', s⟩ | ⟨_, _, hc', _⟩ <;> cases hc.symm.trans hc'
  exact s

theorem Saved.live (s : Saved tokens handle e e') : handle ∈ e'.memory.live :=
  have ⟨_, hm⟩ := s.memory
  hm ▸ .inr rfl

theorem Saved.extends (s : Saved tokens handle e e') (c : Coherent e) (hnone : e.memory.entries tokens = none)
    (hc : cacheSequence tokens e = (.ok handle, e')) : Extends e e' := by
  obtain ⟨keys, hm⟩ := s.memory
  have hlive {h} : h ∈ e.memory.live → h ∈ e'.memory.live := by
    rw [hm]
    exact fun hl => .inl ⟨hl, by simp [hnone]⟩
  have hnew : handle ∈ e'.memory.live := hm ▸ .inr rfl
  refine ⟨s.coherent, hlive, fun {h} hl => ?_, fun {h key} hl hk => ?_, s.frame.config⟩
  case refine_1 =>
    have hne : h.blockId ≠ handle.blockId := by
      intro heq
      have hsame := LawfulKvBlockStore.live_injective s.coherent.runtime.store (hlive hl) hnew heq
      exact s.new (hsame ▸ hl)
    rw [PagedAttentionBlockManager.materializeSpan, cacheSequence_lookup c hnone hc hne]
    rfl
  case refine_2 =>
    rw [hm] at hk
    obtain ⟨_, hk⟩ := Option.ite_none_left_eq_some.mp hk
    simp only [Memory.save, Function.update_apply] at hk
    split at hk
    case isTrue  => cases hk; exact absurd hl s.new
    case isFalse => exact hk

end CacheSequence

variable {prompt : List TokenId} {handle : KvCacheHandle} {span : PageSpan} {out : EnginePrefillOutput}

-- A prompt has pages: those of its entry, or new ones.
structure Supplied (prompt : List TokenId) (handle : KvCacheHandle) (span : PageSpan) (e e' : VeloEngine R μ) : Prop where
  toExtends : Extends e e'
  live      : handle ∈ e'.memory.live
  tokenLen  : handle.tokenLen = prompt.length
  span      : (allocator e'.runtime).materializeSpan handle = some span
  found     : e.memory.entries prompt = some handle ∨ e.memory.entries prompt = none ∧ handle ∉ e.memory.live
  saved     : e'.memory.entries prompt = some handle ∨ e'.memory.entries prompt = none
  own       : e'.memory.entries key = some handle → key = prompt
  kept      : e.memory.entries key = some h → e'.memory.entries key = some h ∨ e'.memory.entries key = none

theorem Supplied.unchanged (s : Supplied prompt handle span e e₁) (u : Unchanged e₁ e')
    (ha : allocator e'.runtime = allocator e₁.runtime) : Supplied prompt handle span e e' where
  toExtends := s.toExtends.trans (u.extends ha)
  live      := u.memory ▸ s.live
  tokenLen  := s.tokenLen
  span      := ha ▸ s.span
  found     := s.found
  saved     := u.memory ▸ s.saved
  own hk    := s.own (u.memory ▸ hk)
  kept hk   := u.memory ▸ s.kept hk

theorem Supplied.withPool (s : Supplied prompt handle span { e with slotPool := pool } e') :
    Supplied prompt handle span e e' :=
  have x := s.toExtends
  ⟨⟨x.coherent, x.live, x.span, x.entries, x.config⟩, s.live, s.tokenLen, s.span, s.found, s.saved, s.own, s.kept⟩

theorem Unchanged.supplied (u : Unchanged e e') (hr : e'.runtime = e.runtime) (he : e.memory.entries prompt = some handle)
    (hs : (allocator e'.runtime).materializeSpan handle = some span) : Supplied prompt handle span e e' where
  toExtends := u.extends (by rw [hr])
  live      := u.coherent.consistent.live (u.memory ▸ he)
  tokenLen  :=
    have ⟨_, rep⟩ := u.coherent.cache
    rep.tokenLen_eq (show e'.memory.entries prompt = _ from u.memory ▸ he)
  span      := hs
  found     := .inl he
  saved     := .inl (u.memory ▸ he)
  own hk    := u.coherent.consistent.injective hk (u.memory ▸ he)
  kept hk   := .inl (u.memory ▸ hk)

theorem Saved.supplied (c : Coherent e) (s : Saved prompt handle e e') (x : Extends e e') (hnone : e.memory.entries prompt = none)
    (hs : (allocator e'.runtime).materializeSpan handle = some span) : Supplied prompt handle span e e' := by
  obtain ⟨keys, hm⟩ := s.memory
  refine ⟨x, hm ▸ .inr rfl, s.tokenLen, hs, .inr ⟨hnone, s.new⟩, ?_, fun {key} hk => ?_, fun {key h} hk => ?_⟩
  case refine_1 =>
    simp only [hm, Memory.forget, Memory.save, Function.update_self]
    split <;> simp
  case refine_2 =>
    by_contra hne
    rw [hm] at hk
    obtain ⟨_, hk⟩ := Option.ite_none_left_eq_some.mp hk
    simp only [Memory.save, Function.update_of_ne hne] at hk
    exact s.new (c.consistent.live hk)
  case refine_3 =>
    have hne : key ≠ prompt := by
      rintro rfl
      simp [hnone] at hk
    simp only [hm, Memory.forget, Memory.save, Function.update_of_ne hne, hk]
    split <;> simp

theorem prefill_supplied (f : Filled e) (hp : prefill prompt e = (.ok out, e'))
    (hpages : out.insertedPages.or out.cachedPages = some span) : ∃ handle, Supplied prompt handle span e e' := by
  obtain ⟨res, e₁, hl, u, hr, hres, hmatched, hhandle⟩ := lookup_unchanged f.coherent prompt
  rw [prefill, Eff.bind_ok hl] at hp
  obtain ⟨inserted, e₂, hc, hp⟩ := Eff.bind_eq_ok_iff.mp hp
  cases hp
  unfold cacheSequenceIf at hc
  split at hc
  case isTrue hmiss =>
    obtain ⟨hne, hlt⟩ := hmiss
    have hnone : e.memory.entries prompt = none := (longestPrefix_lt_iff hne).mp (hmatched ▸ hlt)
    have hnone₁ : e₁.memory.entries prompt = none := u.memory ▸ hnone
    obtain ⟨handle, _, hc, hpure⟩ := Eff.bind_eq_ok_iff.mp hc
    cases hpure
    have s : Saved prompt handle e₁ e' := .of_cacheSequence u.coherent hc
    obtain ⟨span', hs', _⟩ := PagedAttentionBlockManager.Mapped.materializeSpan s.coherent.runtime.allocator
      ((s.coherent.runtime.mapped handle).mpr s.live)
    have hs : (allocator e'.runtime).materializeSpan handle = some span := by
      rw [← hpages, Option.bind_some, hs']
      rfl
    have x := (u.extends (by rw [hr])).trans (s.extends u.coherent hnone₁ hc)
    exact ⟨handle, (u.saved hr hres s).supplied f.coherent x hnone hs⟩
  case isFalse hhit =>
    cases hc
    simp only [Option.bind_none, Option.none_or, hhandle] at hpages
    by_cases hne : prompt = []
    case pos =>
      have hnone : e.prefixCache.entries [] = none := f.entries_nil
      simp [hne, longestPrefix, longestPrefixUpTo, hnone] at hpages
    case neg =>
      obtain ⟨h, he⟩ : ∃ h, e.prefixCache.entries prompt = some h := by
        rw [← Option.ne_none_iff_exists']
        exact fun hn => hhit ⟨hne, hmatched ▸ (longestPrefix_lt_iff hne).mpr hn⟩
      rw [longestPrefix_eq_self_iff.mpr he] at hpages
      exact ⟨h, u.supplied hr he hpages⟩

theorem Supplied.pages (s : Supplied prompt handle span e e') :
    span.pages.length = e.pagesFor prompt.length ∧ span.pages.Nodup := by
  have c := s.toExtends.coherent
  have hm := (c.runtime.mapped handle).mpr s.live
  refine ⟨?_, hm.nodup_span c.runtime.allocator s.span⟩
  rw [hm.length_span c.runtime.allocator s.span, s.tokenLen, ← pagesFor_congr s.toExtends.config]
  rfl

theorem Supplied.prompt_ne_nil (s : Supplied prompt handle span e e') (f : Filled e') : prompt ≠ [] := by
  have h := f.tokenLen s.live
  rw [s.tokenLen] at h
  exact ne_nil_of_length_pos h

variable [CfgMatcher μ] {req : BatchRequest} {active : ActiveRequest μ}

-- A prepared request is on the pages that are bound to its slot.
theorem prepare_supplied (f : Filled e) (hp : prepare req e = (.ok active, e')) : Filled e' ∧ ∃ handle span,
    active.prefill.insertedPages.or active.prefill.cachedPages = some span ∧ Supplied req.prompt handle span e e' := by
  have ⟨pool, e₁, span, _, hpre, hpages, hb⟩ := (prepare_eq_ok hp).steps
  have f₀ : Filled { e with slotPool := pool, parserFactory := e.parserFactory } := f.withPool
  have ⟨handle, s⟩ := prefill_supplied f₀ hpre hpages
  have hf := stable_filled.prepare (fun _ _ _ => Filled.withPool) req e f
  rw [hp] at hf
  have u := bindSlot_unchanged s.toExtends.coherent active.slotId (span.pages.map UInt32.ofNat)
  have ⟨r, hr, he'⟩ := Eff.zoom_eq_ok_iff.mp hb
  have ⟨_, _, ha⟩ := LawfulMemoryRuntime.bindSlot_frame s.toExtends.coherent.runtime.runtime (Eff.call_eq_ok_iff.mp hr)
  have ha : allocator e'.runtime = allocator e₁.runtime := by rw [he', ha]
  rw [hb] at u
  exact ⟨hf, handle, span, hpages, (s.unchanged u ha).withPool⟩

-- The engine between two preparations of a batch.
def prepared (reqs : List BatchRequest) (e : VeloEngine R μ) (k : Nat) : VeloEngine R μ :=
  (prepareAll (reqs.take k) e).2

variable {reqs : List BatchRequest} {actives : List (ActiveRequest μ)}

omit [LawfulMemoryRuntime R] in
theorem prepared_cons (h : prepare req e = (.ok active, e₁)) : prepared (req :: reqs) e (k + 1) = prepared reqs e₁ k := by
  rw [prepared, take_succ_cons, prepareAll, Eff.bind_ok h, Eff.bind_pure_snd, prepared]

omit [LawfulMemoryRuntime R] in
theorem prepared_length (h : prepareAll reqs e = (.ok actives, e')) : prepared reqs e reqs.length = e' := by
  rw [prepared, take_length, h]

omit [LawfulMemoryRuntime R] in
theorem prepare_prepared (hp : prepareAll reqs e = (.ok actives, e')) (hk : reqs[k]? = some req) : ∃ active,
    prepare req (prepared reqs e k) = (.ok active, prepared reqs e (k + 1)) ∧ actives[k]? = some active := by
  induction reqs generalizing e k actives
  case nil => simp at hk
  case cons first reqs hi =>
    have ⟨active, rest, e₁, hr, hrest, ha⟩ := prepareAll_cons_eq_ok hp
    subst ha
    cases k
    case zero =>
      cases hk
      exact ⟨active, by rw [prepared_cons hr]; exact hr, rfl⟩
    case succ k =>
      have ⟨active', hprep, hget⟩ := hi hrest hk
      exact ⟨active', by rwa [prepared_cons hr, prepared_cons hr], by simpa using hget⟩

-- The prompt has lost its entry on the way from the preparation of one request to that of another.
def Dropped (reqs : List BatchRequest) (e : VeloEngine R μ) (i j : Nat) (prompt : List TokenId) : Prop :=
  ∃ k, i < k ∧ k ≤ j ∧ (prepared reqs e k).memory.entries prompt = none

section Batch

variable {i j k : Nat} {reqᵢ reqⱼ : BatchRequest}

theorem prepared_filled (f : Filled e) : Filled (prepared reqs e k) :=
  stable_filled.prepareAll (fun _ _ _ => Filled.withPool) _ e f

theorem prepared_supplied (f : Filled e) (hp : prepareAll reqs e = (.ok actives, e')) (hk : reqs[k]? = some req) :
    ∃ active handle span, actives[k]? = some active ∧ active.prefill.insertedPages.or active.prefill.cachedPages = some span ∧
      Supplied req.prompt handle span (prepared reqs e k) (prepared reqs e (k + 1)) := by
  have ⟨active, hprep, hget⟩ := prepare_prepared hp hk
  have ⟨_, handle, span, hpages, s⟩ := prepare_supplied (prepared_filled f) hprep
  exact ⟨active, handle, span, hget, hpages, s⟩

theorem prepared_extends (f : Filled e) (hp : prepareAll reqs e = (.ok actives, e')) (hij : i ≤ j) (hj : j ≤ reqs.length) :
    Extends (prepared reqs e i) (prepared reqs e j) := by
  induction j, hij using Nat.le_induction
  case base => exact ⟨(prepared_filled f).coherent, id, fun _ => rfl, fun _ => id, rfl⟩
  case succ j hij hi =>
    have ⟨_, _, _, _, _, s⟩ := prepared_supplied f hp (getElem?_eq_getElem hj)
    exact (hi (by omega)).trans s.toExtends

variable {handleᵢ handleⱼ : KvCacheHandle} {spanᵢ spanⱼ : PageSpan}

-- A request finds the handle of an earlier one if that has been in the cache all the time.
theorem handle_eq_iff (f : Filled e) (hp : prepareAll reqs e = (.ok actives, e')) (hij : i < j) (hj : j < reqs.length)
    (sᵢ : Supplied reqᵢ.prompt handleᵢ spanᵢ (prepared reqs e i) (prepared reqs e (i + 1)))
    (sⱼ : Supplied reqⱼ.prompt handleⱼ spanⱼ (prepared reqs e j) (prepared reqs e (j + 1))) :
    handleᵢ = handleⱼ ↔ reqᵢ.prompt = reqⱼ.prompt ∧ ¬Dropped reqs e i j reqᵢ.prompt := by
  have hlive {k} (hik : i < k) (hkj : k ≤ j) : handleᵢ ∈ (prepared reqs e k).memory.live :=
    (prepared_extends f hp hik (by omega)).live sᵢ.live
  constructor
  case mp =>
    rintro rfl
    have hentry := sⱼ.found.resolve_right fun h => h.right (hlive hij le_rfl)
    have hprompt := sᵢ.own <| (prepared_extends f hp hij hj.le).entries sᵢ.live hentry
    refine ⟨hprompt.symm, fun ⟨k, hik, hkj, hnone⟩ => ?_⟩
    have hk := (prepared_extends f hp hkj hj.le).entries (hlive hik hkj) hentry
    simp [← hprompt, hk] at hnone
  case mpr =>
    intro ⟨hprompt, hkept⟩
    have hentry : ∀ k, i + 1 ≤ k → k ≤ j → (prepared reqs e k).memory.entries reqᵢ.prompt = some handleᵢ := by
      intro k hik hkj
      induction k, hik using Nat.le_induction
      case base => exact sᵢ.saved.resolve_right fun h => hkept ⟨_, Nat.lt_succ_self i, hkj, h⟩
      case succ k hik hi =>
        have ⟨_, _, _, _, _, s⟩ := prepared_supplied f hp (getElem?_eq_getElem (show k < reqs.length by omega))
        exact (s.kept (hi (by omega))).resolve_right fun h => hkept ⟨_, by omega, hkj, h⟩
    have hentry := hentry j hij le_rfl
    rw [hprompt] at hentry
    rcases sⱼ.found with h | ⟨h, _⟩
    case inl => exact Option.some.inj (hentry.symm.trans h)
    case inr => simp [hentry] at h

-- The requests have no entry in common.
def Apart (reqs : List BatchRequest) (e : VeloEngine R μ) (i j : Nat) (reqᵢ reqⱼ : BatchRequest) : Prop :=
  reqᵢ.prompt ≠ reqⱼ.prompt ∨ Dropped reqs e (min i j) (max i j) reqᵢ.prompt

theorem Apart.comm : Apart reqs e i j reqᵢ reqⱼ ↔ Apart reqs e j i reqⱼ reqᵢ := by
  by_cases h : reqᵢ.prompt = reqⱼ.prompt
  case pos => rw [Apart, Apart, h, min_comm, max_comm]
  case neg => exact iff_of_true (.inl h) (.inl (Ne.symm h))

-- The pages of two requests of a batch are either the same or have none in common.
theorem span_cases (f : Filled e) (hp : prepareAll reqs e = (.ok actives, e')) (hij : i ≠ j)
    (hi : i < reqs.length) (hj : j < reqs.length)
    (sᵢ : Supplied reqᵢ.prompt handleᵢ spanᵢ (prepared reqs e i) (prepared reqs e (i + 1)))
    (sⱼ : Supplied reqⱼ.prompt handleⱼ spanⱼ (prepared reqs e j) (prepared reqs e (j + 1))) :
    reqᵢ.prompt = reqⱼ.prompt ∧ ¬Apart reqs e i j reqᵢ reqⱼ ∧ spanᵢ = spanⱼ ∨
      Apart reqs e i j reqᵢ reqⱼ ∧ spanᵢ.pages.Disjoint spanⱼ.pages := by
  wlog hlt : i < j generalizing i j reqᵢ reqⱼ handleᵢ handleⱼ spanᵢ spanⱼ
  case inr =>
    rcases this hij.symm hj hi sⱼ sᵢ (by omega) with ⟨hprompt, happ, hspan⟩ | ⟨happ, hspan⟩
    case inl => exact .inl ⟨hprompt.symm, fun h => happ (Apart.comm.mp h), hspan.symm⟩
    case inr => exact .inr ⟨Apart.comm.mp happ, hspan.symm⟩
  have xᵢ := prepared_extends f hp (show i + 1 ≤ j + 1 by omega) hj
  have hspanᵢ := (xᵢ.span sᵢ.live).trans sᵢ.span
  have hiff := handle_eq_iff f hp hlt hj sᵢ sⱼ
  have happ : Apart reqs e i j reqᵢ reqⱼ ↔ handleᵢ ≠ handleⱼ := by
    rw [Apart, min_eq_left hlt.le, max_eq_right hlt.le]
    exact (hiff.not.trans <| not_and_or.trans <| or_congr_right not_not).symm
  by_cases heq : handleᵢ = handleⱼ
  case pos =>
    have ⟨hprompt, _⟩ := hiff.mp heq
    exact .inl ⟨hprompt, fun h => happ.mp h heq, Option.some.inj (hspanᵢ.symm.trans (heq ▸ sⱼ.span))⟩
  case neg =>
    have c := sⱼ.toExtends.coherent
    exact .inr ⟨happ.mpr heq, PagedAttentionBlockManager.Mapped.disjoint_span c.runtime.allocator
      ((c.runtime.mapped _).mpr (xᵢ.live sᵢ.live)) ((c.runtime.mapped _).mpr sⱼ.live) heq hspanᵢ sⱼ.span⟩

end Batch
end VeloEngine
