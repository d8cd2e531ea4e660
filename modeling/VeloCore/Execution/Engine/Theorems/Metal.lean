import VeloCore.Execution.Engine.Theorems.Isolation
import VeloCore.Execution.Engine.Theorems.Slots
import VeloCore.Objects.Metal.Theorems.Backend

open List MemoryRuntime MetalMemoryRuntime

namespace VeloEngine

section Metal

variable {μ : Type} {e e' : VeloEngine MetalMemoryRuntime μ} {b : MetalBackend}

-- The block behind a page is asked for with no tokens, and there is no such block.
theorem Filled.not_ready (f : Filled e) : ¬b.Ready e.runtime model slot := by
  intro w
  have ⟨_, handle, span, _, _, hspan, hblocks⟩ := w.prefixSpan
  have hw : e.runtime.allocator.Wf := f.coherent.runtime.allocator
  have ⟨mapping, hm, hpages⟩ := Option.map_eq_some_iff.mp hspan
  have hid := hw.id hm
  have hlive : mapping.handle ∈ e.memory.live := (f.coherent.runtime.mapped _).mp ⟨mapping, hid ▸ hm, rfl⟩
  have hpos : 0 < mapping.pages.length := by
    rw [hw.pages hm, hw.tokenLen hm]
    exact Nat.div_pos (by have := f.tokenLen hlive; omega) e.runtime.allocator.config.blockSize_pos
  have ⟨page, hpage⟩ := exists_mem_of_length_pos hpos
  have ⟨hblock, _⟩ := hblocks page (hpages ▸ hpage)
  exact Nat.lt_irrefl 0 (f.tokenLen (h := ⟨page, 0⟩) hblock)

variable [CfgMatcher μ] {reqs : List BatchRequest} {active : ActiveRequest μ} {actives : List (ActiveRequest μ)}

theorem prepareAll_filled (h : Filled e) (hp : prepareAll reqs e = (.ok actives, e')) : Filled e' := by
  have hf := stable_filled.prepareAll (fun _ _ _ => Filled.withPool) reqs e h
  rwa [hp] at hf

-- A backend after the preparation of a request has bound it.
def bound (active : ActiveRequest μ) (b : MetalBackend) : MetalBackend :=
  (MetalBackend.bindPrefixCache active.prefill.cachedPrefix (MetalBackend.bindSlot active.slotId b).2).2

-- Whatever was cached before, no prepared request gets as far as the model.
theorem prepared_not_reaches (h : Reachable e) (hp : prepareAll reqs e = (.ok actives, e')) (b : MetalBackend) :
    ∀ active ∈ actives, active.session.prompt ≠ [] → ¬(bound active b).Reaches e'.runtime active.session.context := by
  intro active _ _ hr
  have ⟨_, _, w⟩ := hr.ready
  exact (prepareAll_filled h.filled hp).not_ready w

theorem reachable_metal {r : MetalMemoryRuntime} (config : EngineConfig) (hr : MetalMemoryRuntime.new config.memory = .ok r)
    (he : withRuntime config r = .ok e) : Reachable e :=
  have ⟨hs, hlive, _⟩ := MetalMemoryRuntime.new_eq_ok hr
  .new he hs hlive

-- An engine on eight pages of four tokens, with two slots.
def metalEngine : VeloEngine MetalMemoryRuntime Empty where
  decoder := ⟨2, 4, by decide⟩
  prefixCache := .new
  runtime := ⟨⟨1, 4, 8, 2⟩, .new 1 8 4, .new ⟨4, 8, by decide⟩, fun _ => 0⟩
  slotPool := .new 2
  parserFactory := none

theorem reachable_metalEngine : Reachable metalEngine :=
  reachable_metal ⟨2, ⟨1, 4, 8, 2⟩⟩ rfl rfl

-- The same prompt twice: nothing is cached for the first one, and all of it for the second one.
def metalRequests : List BatchRequest :=
  [⟨[1, 2, 3], 1, none⟩, ⟨[1, 2, 3], 1, none⟩]

def wiredBackend : MetalBackend :=
  ⟨⟨1, 4⟩, none, some 7, true, true, none, true⟩

theorem prepareAll_metalRequests : ∃ actives e', prepareAll metalRequests metalEngine = (.ok actives, e') ∧
    actives.map (·.session.prompt) = [[1, 2, 3], [1, 2, 3]] := by
  have h : (prepareAll metalRequests metalEngine).1.toOption.map (fun actives => actives.map (·.session.prompt)) =
      some [[1, 2, 3], [1, 2, 3]] := by
    decide +kernel
  match hp : prepareAll metalRequests metalEngine with
  | (.ok actives, e') => exact ⟨actives, e', rfl, by simpa [hp, Except.toOption] using h⟩
  | (.error _, _)     => simp [hp, Except.toOption] at h

theorem prepared_not_reaches_twice : ∃ actives e', prepareAll metalRequests metalEngine = (.ok actives, e') ∧
    actives.map (·.session.prompt) = [[1, 2, 3], [1, 2, 3]] ∧ ∀ active ∈ actives, active.session.prompt ≠ [] →
      ¬(bound active wiredBackend).Reaches e'.runtime active.session.context :=
  have ⟨actives, e', hp, hprompts⟩ := prepareAll_metalRequests
  ⟨actives, e', hp, hprompts, prepared_not_reaches reachable_metalEngine hp wiredBackend⟩

theorem exists_prepared_not_reaches : ∃ actives e', prepareAll metalRequests metalEngine = (.ok actives, e') ∧
    ∃ active ∈ actives, active.session.prompt ≠ [] ∧
      ¬(bound active wiredBackend).Reaches e'.runtime active.session.context := by
  have ⟨actives, e', hp, hprompts⟩ := prepareAll_metalRequests
  have ⟨active, hreq, hprompt⟩ := mem_map.mp (hprompts ▸ mem_cons_self : [1, 2, 3] ∈ actives.map (·.session.prompt))
  refine ⟨actives, e', hp, active, hreq, by simp [hprompt], fun hr => ?_⟩
  have ⟨_, _, w⟩ := hr.ready
  exact (prepareAll_filled reachable_metalEngine.filled hp).not_ready w

section Rows

variable {req : BatchRequest} {k : Nat} {slot : SlotId} {table : Nat → UInt32} {memory : MemoryRuntimeConfig}

-- Saving a prompt leaves the page table alone.
omit [CfgMatcher μ] in
theorem steady_table : Steady fun e : VeloEngine MetalMemoryRuntime μ => e.runtime.memory = memory ∧ e.runtime.slotMapping = table :=
  .of_parts (fun _ _ => id) (fun _ _ => id) fun _ _ => id

theorem prepare_table (hp : prepare req e = (.ok active, e')) : ∃ span,
    active.prefill.insertedPages.or active.prefill.cachedPages = some span ∧
    span.pages.length ≤ e'.runtime.memory.pagedTotalPages ∧
    e'.runtime.row active.slotId = e'.runtime.paddedRow (span.pages.map UInt32.ofNat) ∧
    e'.runtime.memory = e.runtime.memory ∧
    ∀ k, k < active.slotId.toNat * e'.runtime.memory.pagedTotalPages ∨
        (active.slotId.toNat + 1) * e'.runtime.memory.pagedTotalPages ≤ k →
      e'.runtime.slotMapping k =
        if Overruns e'.runtime.memory.pagedTotalPages active.slotId span.pages.length k then 0 else e.runtime.slotMapping k := by
  have ⟨pool, e₁, span, _, hpre, hpages, hb⟩ := (prepare_eq_ok hp).steps
  have hsame := steady_table.prefill req.prompt { e with slotPool := pool } ⟨rfl, rfl⟩
  rw [hpre] at hsame
  have ⟨(hm : e₁.runtime.memory = e.runtime.memory), (ht : e₁.runtime.slotMapping = e.runtime.slotMapping)⟩ := hsame
  have ⟨r, hr, he'⟩ := Eff.zoom_eq_ok_iff.mp hb
  have ⟨hle, hm', _, _, hrow, htable⟩ := bindSlot_eq_ok (Eff.call_eq_ok_iff.mp hr)
  subst he'
  refine ⟨span, hpages, by simpa [hm'] using hle, ?_, hm'.trans hm, fun k hk => ?_⟩
  case refine_1 => rw [hrow, paddedRow, paddedRow, hm']
  case refine_2 =>
    dsimp only at hk ⊢
    rw [hm'] at hk ⊢
    rw [htable k hk, length_map, ht]

-- The preparation of a request clears this entry behind the row of its slot.
def Clears (maxPages : Nat) (active : ActiveRequest μ) (k : Nat) : Prop :=
  ∃ span, active.prefill.insertedPages.or active.prefill.cachedPages = some span ∧
    Overruns maxPages active.slotId span.pages.length k

-- Outside the rows of its slots, a preparation only clears entries.
theorem prepareAll_table (hp : prepareAll reqs e = (.ok actives, e')) : e'.runtime.memory = e.runtime.memory ∧
    ∀ k, (∀ active ∈ actives, k < active.slotId.toNat * e'.runtime.memory.pagedTotalPages ∨
        (active.slotId.toNat + 1) * e'.runtime.memory.pagedTotalPages ≤ k) →
      ((∃ active ∈ actives, Clears e'.runtime.memory.pagedTotalPages active k) → e'.runtime.slotMapping k = 0) ∧
      ((∀ active ∈ actives, ¬Clears e'.runtime.memory.pagedTotalPages active k) →
        e'.runtime.slotMapping k = e.runtime.slotMapping k) := by
  induction reqs generalizing e actives
  case nil => cases hp; exact ⟨rfl, by simp⟩
  case cons req reqs hi =>
    have ⟨active, rest, e₁, hprep, hrest, ha⟩ := prepareAll_cons_eq_ok hp
    subst ha
    have ⟨span, hpages, _, _, hm₁, htable₁⟩ := prepare_table hprep
    have ⟨hm, htable⟩ := hi hrest
    refine ⟨hm.trans hm₁, fun k hk => ?_⟩
    have ⟨hfirst, hrows⟩ := forall_mem_cons.mp hk
    rw [← hm] at htable₁
    have ⟨hcleared, hkept⟩ := htable k hrows
    have hentry := htable₁ k hfirst
    have hclears : Clears e'.runtime.memory.pagedTotalPages active k ↔
        Overruns e'.runtime.memory.pagedTotalPages active.slotId span.pages.length k := by
      simp [Clears, hpages]
    refine ⟨fun hex => ?_, fun hno => ?_⟩
    case refine_1 =>
      by_cases hlater : ∃ active ∈ rest, Clears e'.runtime.memory.pagedTotalPages active k
      case pos => exact hcleared hlater
      case neg =>
        have hnone : ∀ active ∈ rest, ¬Clears e'.runtime.memory.pagedTotalPages active k :=
          fun active ha hc => hlater ⟨active, ha, hc⟩
        obtain ⟨active', ha, hc⟩ := hex
        rcases mem_cons.mp ha with rfl | ha
        case inl => rw [hkept hnone, hentry, if_pos (hclears.mp hc)]
        case inr => exact absurd hc (hnone active' ha)
    case refine_2 =>
      have ⟨hfirst, hnone⟩ := forall_mem_cons.mp hno
      rw [hkept hnone, hentry, if_neg (hclears.not.mp hfirst)]

-- No two requests of a batch have the same slot, so that each one finds its own pages in the end, less what the later
-- ones clear.
theorem prepared_lists (hslots : e.freeSlots.Nodup) (hp : prepareAll reqs e = (.ok actives, e'))
    (hk : actives[k]? = some active) : ∃ span, active.prefill.insertedPages.or active.prefill.cachedPages = some span ∧
      e'.runtime.Lists active.slotId span.pages fun i => ∃ later ∈ actives.drop (k + 1),
        Clears e'.runtime.memory.pagedTotalPages later (active.slotId.toNat * e'.runtime.memory.pagedTotalPages + i) := by
  have hnodup := slotId_nodup hslots hp
  clear hslots
  induction reqs generalizing e actives k
  case nil => cases hp; simp at hk
  case cons req reqs hi =>
    have ⟨first, rest, e₁, hprep, hrest, ha⟩ := prepareAll_cons_eq_ok hp
    subst ha
    rw [map_cons, nodup_cons] at hnodup
    cases k
    case succ k =>
      rw [getElem?_cons_succ] at hk
      simpa using hi hrest hk hnodup.right
    case zero =>
      cases hk
      have ⟨span, hpages, hle, hrow, _⟩ := prepare_table hprep
      have ⟨hm, htable⟩ := prepareAll_table hrest
      rw [← hm] at hle
      have hentry {i page} (hi : span.pages[i]? = some page) := entry_of_row hrow (hm ▸ hle) hi
      have hout {i page} (hi : span.pages[i]? = some page) := htable (active.slotId.toNat * e'.runtime.memory.pagedTotalPages + i)
        fun later hlater => index_lt_or_le (fun heq => hnodup.left (heq ▸ mem_map_of_mem hlater))
          ((List.getElem?_eq_some_iff.mp hi).choose.trans_le hle)
      refine ⟨span, hpages, fun hi hc => (hout hi).left hc, fun hi hc => ?_⟩
      rw [(hout hi).right fun later hlater hclears => hc ⟨later, hlater, hclears⟩, ← hentry hi, hm]

theorem prepareAll_length (hp : prepareAll reqs e = (.ok actives, e')) : actives.length = reqs.length := by
  induction reqs generalizing e actives
  case nil => cases hp; rfl
  case cons req reqs hi =>
    have ⟨first, rest, e₁, _, hrest, ha⟩ := prepareAll_cons_eq_ok hp
    rw [ha, length_cons, length_cons, hi hrest]

theorem slotId_eq (hp : prepareAll reqs e = (.ok actives, e')) (hk : actives[k]? = some active) :
    e.freeSlots[k]? = some active.slotId := by
  have ⟨taken, hfree, _, _, hok⟩ := prepareAll_slots reqs e
  have ⟨hlt, _⟩ := List.getElem?_eq_some_iff.mp hk
  rw [hfree, ← hok actives (by rw [hp]), getElem?_append_left (by rwa [length_map]), getElem?_map, hk, Option.map_some]

-- An entry of the row of a request that a later one of the batch clears, one with less pages than a row has
def ClearedLater (e : VeloEngine MetalMemoryRuntime μ) (reqs : List BatchRequest) (k i : Nat) : Prop :=
  ∃ slot, e.freeSlots[k]? = some slot ∧ ∃ j later slot', k < j ∧ reqs[j]? = some later ∧ e.freeSlots[j]? = some slot' ∧
    Overruns e.runtime.memory.pagedTotalPages slot' (e.pagesFor later.prompt.length)
      (slot.toNat * e.runtime.memory.pagedTotalPages + i)

section Covered

variable (h : Reachable e) (hp : prepareAll reqs e = (.ok actives, e'))
include h hp

-- The pages of a request are those of its prompt.
theorem prepared_pages (hk : reqs[k]? = some req) : ∃ active span, actives[k]? = some active ∧
    active.prefill.insertedPages.or active.prefill.cachedPages = some span ∧ req.prompt ≠ [] ∧
      span.pages.length = e.pagesFor req.prompt.length ∧ span.pages.Nodup := by
  have ⟨hlt, _⟩ := List.getElem?_eq_some_iff.mp hk
  have ⟨active, _, span, hget, hpages, s⟩ := prepared_supplied h.filled hp hk
  have x₀ : Extends e (prepared reqs e k) := prepared_extends h.filled hp (Nat.zero_le k) hlt.le
  have ⟨hlen, hnodup⟩ := s.pages
  exact ⟨active, span, hget, hpages, s.prompt_ne_nil (prepared_filled h.filled), by rw [hlen, pagesFor_congr x₀.config], hnodup⟩

theorem clearedLater_iff (hk : actives[k]? = some active) (i : Nat) : ClearedLater e reqs k i ↔
    ∃ later ∈ actives.drop (k + 1),
      Clears e'.runtime.memory.pagedTotalPages later (active.slotId.toNat * e'.runtime.memory.pagedTotalPages + i) := by
  have hlen := prepareAll_length hp
  rw [(prepareAll_table hp).left, ClearedLater, slotId_eq hp hk]
  simp only [Option.some.injEq, exists_eq_left', mem_iff_getElem?, getElem?_drop]
  constructor
  case mp =>
    intro ⟨j, later, slot, hkj, hj, hslot, ho⟩
    have ⟨active', span, hget, hpages, _, hcount, _⟩ := prepared_pages h hp hj
    refine ⟨active', ⟨j - (k + 1), by rwa [Nat.add_sub_cancel' hkj]⟩, span, hpages, ?_⟩
    rw [slotId_eq hp hget] at hslot
    rwa [hcount, Option.some.inj hslot]
  case mpr =>
    intro ⟨active', ⟨d, hget⟩, span, hpages, ho⟩
    have ⟨hlt, _⟩ := List.getElem?_eq_some_iff.mp hget
    have hreq := getElem?_eq_getElem (hlen ▸ hlt)
    have ⟨active'', span', hget', hpages', _, hcount, _⟩ := prepared_pages h hp hreq
    cases hget.symm.trans hget'
    cases hpages.symm.trans hpages'
    exact ⟨k + 1 + d, _, active'.slotId, by omega, hreq, slotId_eq hp hget, hcount ▸ ho⟩

-- The pages must last for what is generated, their numbers must fit into the table, and the later requests must leave
-- them there.
theorem covered_iff (hslots : e.freeSlots.Nodup) (hk : reqs[k]? = some req) : ∃ active span, actives[k]? = some active ∧
    active.prefill.insertedPages.or active.prefill.cachedPages = some span ∧
    (e'.runtime.Covered active.slotId span.pages (req.prompt.length + req.maxNewTokens) ↔
      req.prompt.length + req.maxNewTokens ≤ e.pagesFor req.prompt.length * e.blockSize ∧
        (∀ page ∈ span.pages, page < 2 ^ 32) ∧
        ∀ i page, span.pages[i]? = some page → ClearedLater e reqs k i → page = 0) := by
  have ⟨active, span, hget, hpages, hprompt, hlen, hnodup⟩ := prepared_pages h hp hk
  have ⟨span', hpages', l⟩ := prepared_lists hslots hp hget
  cases hpages.symm.trans hpages'
  refine ⟨active, span, hget, hpages, ?_⟩
  have x : Extends e e' := prepared_length hp ▸ prepared_extends h.filled hp (Nat.zero_le _) le_rfl
  have hconfig : e'.runtime.allocator.config = e.runtime.allocator.config := x.config
  have hb : e'.runtime.allocator.config.blockSize = e.blockSize := congrArg (·.blockSize) hconfig
  simp only [clearedLater_iff h hp hget]
  rw [← hlen, ← hb]
  refine covered_iff_of_lists x.coherent.runtime.runtime l hnodup ?_ (length_pos_of_ne_nil hprompt) (Nat.le_add_right _ _)
  rw [hlen, hb]
  rfl

end Covered

-- One token more fits on the last page of the prompt, and the second request clears nothing before its own row.
theorem covered_fits : ∃ actives e', prepareAll [⟨[1, 2, 3], 1, none⟩, ⟨[4, 5], 1, none⟩] metalEngine = (.ok actives, e') ∧
    ∃ first span, actives[0]? = some first ∧ first.prefill.insertedPages.or first.prefill.cachedPages = some span ∧
      e'.runtime.Covered first.slotId span.pages (3 + 1) := by
  have h : (prepareAll [⟨[1, 2, 3], 1, none⟩, ⟨[4, 5], 1, none⟩] metalEngine).1.toOption.map (fun actives =>
      actives.map fun active => active.prefill.insertedPages.or active.prefill.cachedPages) =
      some [some ⟨[0]⟩, some ⟨[1]⟩] := by decide +kernel
  rcases hp : prepareAll [⟨[1, 2, 3], 1, none⟩, ⟨[4, 5], 1, none⟩] metalEngine with ⟨_ | actives, e'⟩
  case error => simp [hp, Except.toOption] at h
  case ok =>
    obtain ⟨first, span, hget, hpages, hiff⟩ := covered_iff reachable_metalEngine hp (by decide) (k := 0) rfl
    have hspan : span = ⟨[0]⟩ := by
      have hfirst := congrArg (·[0]?) (Option.some.inj (hp ▸ h))
      simp only [getElem?_map, hget, Option.map_some, hpages] at hfirst
      simpa using hfirst
    refine ⟨actives, e', rfl, first, span, hget, hpages, hiff.mpr ⟨by decide, ?_, fun i page hi _ => ?_⟩⟩
    case refine_1 => simp [hspan]
    case refine_2 => simpa [hspan] using (mem_of_getElem? hi)

-- Two do not.
theorem exists_not_covered : ∃ active span e', prepareAll [⟨[1, 2, 3], 2, none⟩] metalEngine = (.ok [active], e') ∧
    active.prefill.insertedPages.or active.prefill.cachedPages = some span ∧
    ¬e'.runtime.Covered active.slotId span.pages (3 + 2) := by
  have h : (prepareAll [⟨[1, 2, 3], 2, none⟩] metalEngine).1.toOption.map (fun actives => actives.map fun active =>
      active.prefill.insertedPages.or active.prefill.cachedPages) = some [some ⟨[0]⟩] := by decide +kernel
  have hb : (prepareAll [⟨[1, 2, 3], 2, none⟩] metalEngine).2.runtime.allocator.config.blockSize = 4 := by decide +kernel
  rcases hp : prepareAll [⟨[1, 2, 3], 2, none⟩] metalEngine with ⟨_ | actives, e'⟩
  case error => simp [hp, Except.toOption] at h
  case ok =>
    rw [hp] at h hb
    have h := Option.some.inj h
    rcases actives with _ | ⟨active, _ | _⟩
    case nil       => simp at h
    case cons.cons => simp at h
    case cons.nil  =>
      refine ⟨active, _, e', rfl, by simpa using h, fun c => ?_⟩
      have hpage := c.page (show 4 < 3 + 2 by decide)
      rw [show e'.runtime.allocator.config.blockSize = 4 from hb] at hpage
      contradiction

end Rows

end Metal
end VeloEngine
