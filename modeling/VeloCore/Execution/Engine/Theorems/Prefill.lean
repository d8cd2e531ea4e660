import VeloCore.Execution.Engine.Theorems.Memory

open List MemoryRuntime

namespace VeloEngine

variable {R μ : Type} [MemoryRuntime R] [LawfulMemoryRuntime R] {e e₁ e' : VeloEngine R μ}
  {tokens prompt : List TokenId} {h : KvCacheHandle}

theorem Unchanged.saved (u : Unchanged e e₁) (hr : e₁.runtime = e.runtime)
    (hres : e₁.prefixCache.residentTokens = e.prefixCache.residentTokens) (s : Saved tokens h e₁ e') :
    Saved tokens h e e' where
  frame     := u.frame.trans s.frame
  coherent  := s.coherent
  new       := u.memory ▸ s.new
  tokenLen  := s.tokenLen
  memory    := u.memory ▸ s.memory
  fits hf   := by
    have he : e₁.prefixCache.entries = e.prefixCache.entries := congrArg Memory.entries u.memory
    rw [← u.memory]
    apply s.fits
    rwa [RadixCache.Fits, he, hres, u.frame.capacity]
  freePages := by simpa [freePages, pagesFor, hr] using s.freePages
  room k    := by simpa [Room, hr] using s.room k

theorem Unchanged.trans (u : Unchanged e e₁) (u' : Unchanged e₁ e') : Unchanged e e' :=
  ⟨u.frame.trans u'.frame, u'.coherent, u'.memory.trans u.memory⟩

-- A prompt is saved unless all of it is in the cache already.
inductive Prefilled (prompt : List TokenId) (e : VeloEngine R μ) (out : EnginePrefillOutput)
    (e' : VeloEngine R μ) : Prop
  | empty : prompt = [] → Unchanged e e' → Prefilled prompt e out e'
  | hit h : prompt ≠ [] → e.memory.entries prompt = some h → Unchanged e e' → e'.runtime = e.runtime →
    out.insertedPages = none → out.cachedPages = (allocator e'.runtime).materializeSpan h → Prefilled prompt e out e'
  | miss h : prompt ≠ [] → e.memory.entries prompt = none → Saved prompt h e e' →
    out.insertedPages = (allocator e'.runtime).materializeSpan h → Prefilled prompt e out e'

theorem prefill_cases (c : Coherent e) (prompt : List TokenId) :
    (∃ out e', prefill prompt e = (.ok out, e') ∧ Prefilled prompt e out e') ∨
      ∃ error e', prefill prompt e = (.error (.err error), e') ∧ Unchanged e e' ∧
        ∀ k, Room (k + 1) e → ¬e.pagesFor prompt.length ≤ e.freePages := by
  obtain ⟨res, e₁, hl, u, hr, hres, hmatched, hhandle⟩ := lookup_unchanged c prompt
  rw [prefill, Eff.bind_ok hl]
  have hlt (hne : prompt ≠ []) : res.matchedTokens < prompt.length ↔ e.memory.entries prompt = none :=
    hmatched ▸ longestPrefix_lt_iff hne
  by_cases hmiss : prompt ≠ [] ∧ res.matchedTokens < prompt.length
  case pos =>
    rw [cacheSequenceIf, if_pos hmiss]
    obtain ⟨hne, hlt'⟩ := hmiss
    rcases cacheSequence_cases u.coherent prompt with ⟨h, e', hc, hs⟩ | ⟨error, e', hc, hu⟩
    case inl =>
      rw [bind_assoc, Eff.bind_ok hc]
      exact .inl ⟨_, e', rfl, .miss h hne ((hlt hne).mp hlt') (u.saved hr hres hs) rfl⟩
    case inr =>
      rw [bind_assoc, Eff.bind_error hc]
      refine .inr ⟨error, e', rfl, u.trans hu, fun k hk hfree => ?_⟩
      have hk : Room (k + 1) e₁ := by simpa [Room, hr] using hk
      obtain ⟨_, _, hok, _⟩ := cacheSequence_isOk u.coherent (length_pos_of_ne_nil hne) hk
        (by simpa [pagesFor, freePages, hr] using hfree)
      simp [hc] at hok
  case neg =>
    rw [cacheSequenceIf, if_neg hmiss]
    refine .inl ⟨_, e₁, rfl, ?_⟩
    by_cases hne : prompt = []
    case pos => exact .empty hne u
    case neg =>
      obtain ⟨h, he⟩ : ∃ h, e.memory.entries prompt = some h := by
        rw [← Option.ne_none_iff_exists']
        exact fun hn => hmiss ⟨hne, (hlt hne).mpr hn⟩
      refine .hit h hne he u hr rfl ?_
      dsimp only
      rw [hhandle, longestPrefix_eq_self_iff.mpr (by exact he)]
      rfl

end VeloEngine
