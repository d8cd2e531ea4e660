import Mathlib
import VeloCore.Execution.Engine.Theorems.Batch
import VeloCore.Execution.Engine.Theorems.Pages

open List MemoryRuntime

namespace VeloEngine

variable {R μ : Type} [MemoryRuntime R] [LawfulMemoryRuntime R] {e e' e₁ : VeloEngine R μ}
  {tokens sequence : List TokenId} {handle h : KvCacheHandle}

-- The cache has the handle for the sequence, and the span is that of its pages.
structure Stores (sequence : List TokenId) (h : KvCacheHandle) (span : Option PageSpan) (e : VeloEngine R μ) : Prop where
  entry : e.prefixCache.entries sequence = some h
  live  : LawfulKvBlockStore.Live (store e.runtime) h
  span  : (allocator e.runtime).materializeSpan h = span

-- Saving a sequence leaves the pages of the other ones alone.
theorem cacheSequence_span (c : Coherent e) (hc : cacheSequence tokens e = (.ok handle, e')) (hl : h ∈ e.memory.live)
    (hne : e.memory.entries tokens ≠ some h) :
    (allocator e'.runtime).materializeSpan h = (allocator e.runtime).materializeSpan h := by
  have s := Saved.of_cacheSequence c hc
  have ⟨_, hm⟩ := s.memory
  have hl' : h ∈ e'.memory.live := hm ▸ .inl ⟨hl, hne⟩
  have hid : h.blockId ≠ handle.blockId := fun heq =>
    s.new (LawfulKvBlockStore.live_injective s.coherent.runtime.store hl' s.live heq ▸ hl)
  have ⟨mapping, a, ha, hcases⟩ := cacheSequence_allocator c hc
  have hkept := PagedAttentionBlockManager.allocate_lookup ha hid
  rw [PagedAttentionBlockManager.materializeSpan, PagedAttentionBlockManager.materializeSpan, ← hkept]
  rcases hcases with ⟨_, he⟩ | ⟨replaced, hentry, hr⟩
  case inl => rw [he]
  case inr =>
    have hid' : h.blockId ≠ replaced.blockId := fun heq =>
      hne (LawfulKvBlockStore.live_injective c.runtime.store hl (c.consistent.live hentry) heq ▸ hentry)
    rw [PagedAttentionBlockManager.release_lookup hr hid']

theorem Stores.other {span : Option PageSpan} (st : Stores sequence h span e) (u : Unlimited e)
    (hne : tokens ≠ sequence) (hc : cacheSequence tokens e = (.ok handle, e')) : Stores sequence h span e' := by
  have s := Saved.of_cacheSequence u.coherent hc
  have hm := s.memory_eq u
  have hentry : e.memory.entries tokens ≠ some h := fun heq => hne (u.coherent.consistent.injective heq st.entry)
  refine ⟨?_, ?_, (cacheSequence_span u.coherent hc st.live hentry).trans st.span⟩
  case refine_1 =>
    have he := congrArg (Memory.entries · sequence) hm
    simp only [Memory.save, Function.update_of_ne hne.symm] at he
    exact he.trans st.entry
  case refine_2 =>
    have hl : h ∈ e'.memory.live := hm ▸ .inl ⟨st.live, hentry⟩
    exact hl

theorem Stores.of_cacheSequence (u : Unlimited e) (hc : cacheSequence tokens e = (.ok handle, e')) :
    Stores tokens handle ((allocator e'.runtime).materializeSpan handle) e' := by
  have s := Saved.of_cacheSequence u.coherent hc
  refine ⟨?_, s.live, rfl⟩
  have he := congrArg (Memory.entries · tokens) (s.memory_eq u)
  simp only [Memory.save, Function.update_self] at he
  exact he

theorem Stores.withPool {span : Option PageSpan} (st : Stores sequence h span e) :
    Stores sequence h span { e with slotPool := pool } :=
  ⟨st.entry, st.live, st.span⟩

section WrapUp

variable {req : ActiveRequest μ} {reqs : List (ActiveRequest μ)} {out : EngineOutput} {outs : List EngineOutput}

-- The handle of an output is there for its sequence, with the pages of the output.
def Reported (sequence : List TokenId) (out : EngineOutput) (e : VeloEngine R μ) : Prop :=
  ∃ h, out.insertedHandle = some h ∧ Stores sequence h out.insertedPages e

theorem finish_inserted (u : Unlimited e) (hf : finish req e = (.ok out, e')) (hne : req.fullSequence ≠ []) : ∃ pool h,
    Unlimited { e with slotPool := pool } ∧ cacheSequence req.fullSequence { e with slotPool := pool } = (.ok h, e') ∧
      out.insertedHandle = some h ∧ out.insertedPages = (allocator e'.runtime).materializeSpan h := by
  obtain ⟨_, e₁, hr, hf⟩ := Eff.bind_eq_ok_iff.mp hf
  obtain ⟨pool, _, he₁⟩ := releaseSlot_eq_ok hr
  obtain ⟨inserted, e₂, hi, hf⟩ := Eff.bind_eq_ok_iff.mp hf
  cases hf
  rw [cacheSequenceIf, if_pos hne] at hi
  obtain ⟨h, _, hc, hi⟩ := Eff.bind_eq_ok_iff.mp hi
  cases hi
  exact ⟨pool, h, ⟨u.coherent.withPool, u.capacity⟩, he₁ ▸ hc, rfl, rfl⟩

theorem finish_unlimited (u : Unlimited e) (hf : finish req e = (.ok out, e')) : Unlimited e' := by
  have h := stable_unlimited.finish (fun _ _ _ => Unlimited.withPool) req e u
  rwa [hf] at h

theorem finish_reported (u : Unlimited e) (hf : finish req e = (.ok out, e')) (hne : req.fullSequence ≠ []) :
    Reported req.fullSequence out e' := by
  have ⟨_, h, u₀, hc, hi, hp⟩ := finish_inserted u hf hne
  exact ⟨h, hi, hp ▸ .of_cacheSequence u₀ hc⟩

-- Only a request with the same sequence takes the handle away.
theorem Stores.others {span : Option PageSpan} (st : Stores sequence h span e) (u : Unlimited e)
    (hne : ∀ req ∈ reqs, req.fullSequence ≠ []) (hnot : ∀ req ∈ reqs, req.fullSequence ≠ sequence)
    (hw : wrapUp reqs e = (.ok outs, e')) : Stores sequence h span e' := by
  induction reqs generalizing e outs
  case nil => cases hw; exact st
  case cons req reqs hi =>
    have ⟨out, rest, e₁, hf, hw, _⟩ := wrapUp_cons_eq_ok hw
    have ⟨_, _, u₀, hc, _⟩ := finish_inserted u hf (hne req mem_cons_self)
    have st₁ := st.withPool.other u₀ (hnot req mem_cons_self) hc
    exact hi st₁ (finish_unlimited u hf) (fun r hr => hne r (mem_cons_of_mem _ hr)) (fun r hr => hnot r (mem_cons_of_mem _ hr)) hw

-- A later request with the same sequence does take it away.
theorem Stores.replaced {span : Option PageSpan} (st : Stores sequence h span e) (u : Unlimited e)
    (hne : ∀ req ∈ reqs, req.fullSequence ≠ []) (hnodup : (reqs.map (·.fullSequence)).Nodup)
    (hmem : sequence ∈ reqs.map (·.fullSequence)) (hw : wrapUp reqs e = (.ok outs, e')) :
    e'.prefixCache.entries sequence ≠ some h := by
  induction reqs generalizing e outs
  case nil => simp at hmem
  case cons req reqs hi =>
    have ⟨out, rest, e₁, hf, hw, _⟩ := wrapUp_cons_eq_ok hw
    have ⟨_, h', u₀, hc, _⟩ := finish_inserted u hf (hne req mem_cons_self)
    have u₁ := finish_unlimited u hf
    have hne' : ∀ r ∈ reqs, r.fullSequence ≠ [] := fun r hr => hne r (mem_cons_of_mem _ hr)
    have ⟨hnot, hnodup⟩ := nodup_cons.mp hnodup
    by_cases heq : req.fullSequence = sequence
    case pos =>
      subst heq
      have hnew := (Saved.of_cacheSequence u₀.coherent hc).new
      have st' := (Stores.of_cacheSequence u₀ hc).others u₁ hne' (fun r hr he => hnot (mem_map.mpr ⟨r, hr, he⟩)) hw
      intro hentry
      have hsame := Option.some.inj (st'.entry.symm.trans hentry)
      exact hnew (hsame ▸ st.live)
    case neg =>
      have hmem : sequence ∈ reqs.map (·.fullSequence) := (mem_cons.mp hmem).resolve_left (Ne.symm heq)
      exact hi (st.withPool.other u₀ heq hc) u₁ hne' hnodup hmem hw

-- All handles are still there at the end just when no two sequences are the same.
theorem wrapUp_reported_iff (u : Unlimited e) (hne : ∀ req ∈ reqs, req.fullSequence ≠ [])
    (hw : wrapUp reqs e = (.ok outs, e')) :
    Forall₂ (fun req out => Reported req.fullSequence out e') reqs outs ↔ (reqs.map (·.fullSequence)).Nodup := by
  induction reqs generalizing e outs
  case nil => cases hw; simp
  case cons req reqs hi =>
    obtain ⟨out, rest, e₁, hf, hrest, rfl⟩ := wrapUp_cons_eq_ok hw
    have u₁ := finish_unlimited u hf
    have hne' : ∀ r ∈ reqs, r.fullSequence ≠ [] := fun r hr => hne r (mem_cons_of_mem _ hr)
    have ⟨h, hh, st⟩ := finish_reported u hf (hne req mem_cons_self)
    rw [forall₂_cons, map_cons, nodup_cons, hi u₁ hne' hrest]
    refine and_congr_left fun hnodup => ⟨fun ⟨h', hh', st'⟩ hmem => ?_, fun hnot => ⟨h, hh, ?_⟩⟩
    case refine_1 =>
      cases hh.symm.trans hh'
      exact st.replaced u₁ hne' hnodup hmem hrest st'.entry
    case refine_2 => exact st.others u₁ hne' (fun r hr he => hnot (mem_map.mpr ⟨r, hr, he⟩)) hrest

omit [LawfulMemoryRuntime R] in
theorem wrapUp_tokens (hw : wrapUp reqs e = (.ok outs, e')) : outs.map (·.tokens) = reqs.map (·.generated) := by
  induction reqs generalizing e outs
  case nil => cases hw; rfl
  case cons req reqs hi =>
    obtain ⟨out, rest, e₁, hf, hrest, rfl⟩ := wrapUp_cons_eq_ok hw
    rw [map_cons, map_cons, (finish_eq_ok hf).left, hi hrest]

end WrapUp

section Prepare

variable [CfgMatcher μ] {reqs : List BatchRequest} {actives : List (ActiveRequest μ)}

theorem prepareAll_prompts (f : Filled e) (hp : prepareAll reqs e = (.ok actives, e')) :
    actives.map (·.session.prompt) = reqs.map (·.prompt) ∧ ∀ req ∈ reqs, req.prompt ≠ [] := by
  induction reqs generalizing e actives
  case nil => cases hp; simp
  case cons req reqs hi =>
    obtain ⟨active, rest, e₁, hr, hrest, rfl⟩ := prepareAll_cons_eq_ok hp
    have ⟨f₁, _, _, _, s⟩ := prepare_supplied f hr
    have ⟨hprompts, hne⟩ := hi f₁ hrest
    rw [map_cons, map_cons, hprompts, (prepare_eq_ok hr).session]
    exact ⟨rfl, forall_mem_cons.mpr ⟨s.prompt_ne_nil f₁, hne⟩⟩

omit [LawfulMemoryRuntime R] in
theorem Fresh.of_prepareAll (hc : ∀ req ∈ reqs, req.constraint = none) (hp : prepareAll reqs e = (.ok actives, e')) :
    Forall₂ (Fresh e.decoder) reqs actives := by
  have hstable {d} : Stable fun e : VeloEngine R μ => e.decoder = d := .of_frame fun _ _ _ => id
  induction reqs generalizing e actives
  case nil => cases hp; exact .nil
  case cons req reqs hi =>
    obtain ⟨active, rest, e₁, hr, hrest, rfl⟩ := prepareAll_cons_eq_ok hp
    have p := prepare_eq_ok hr
    have hd : e₁.decoder = e.decoder := by
      have h := hstable.prepare (fun _ _ _ => id) req e rfl
      rwa [hr] at h
    have hrest := hi (fun r hr => hc r (mem_cons_of_mem _ hr)) hrest
    exact .cons ⟨hd ▸ p.session, p.maxNewTokens, p.generated, p.matcher (hc req mem_cons_self)⟩ (hd ▸ hrest)

variable {δ τ : Type} [DraftModel μ δ] [TargetModel μ τ] {f : List TokenId → TokenId} {m m' : Models δ τ}

-- When the rounds are over, each request has what `f` writes after its prompt.
theorem rounds_tracks (hδ : DraftModel.AnswersBatch δ 1) (hτ : TargetModel.VerifiesBatchBy τ f) (hw : 0 < draftWindow)
    (ht : ∀ req ∈ actives, ActiveRequest.Tracks f req)
    (hl : Eff.loop (round draftWindow) fuel actives m = (.ok actives', m')) :
    ∀ req ∈ actives', ActiveRequest.Tracks f req ∧ ¬req.unfinished := by
  have hstep (a : List (ActiveRequest μ)) (m : Models δ τ) (ha : ∀ req ∈ a, ActiveRequest.Tracks f req) :
      Eff.Step (fun a _ => ∀ req ∈ a, ActiveRequest.Tracks f req)
        (fun r _ => ∀ a, r = .ok a → ∀ req ∈ a, ActiveRequest.Tracks f req ∧ ¬req.unfinished) (round draftWindow a m) := by
    have ⟨r, m', hb, hr⟩ := round_returns hδ hτ hw ha m
    rw [hb]
    cases r
    case inl a' => exact (forall_tracks hr.right).left
    case inr a' =>
      rintro _ ⟨⟩ req hreq
      have ⟨heq, hu⟩ := hr
      exact ⟨ha req (heq ▸ hreq), hu req (heq ▸ hreq)⟩
  have h := Eff.loop_invariant (n := fuel) hstep (fun _ _ _ => nofun) (s := m) ht
  rw [hl] at h
  exact h actives' rfl

end Prepare
end VeloEngine

namespace Machine

open VeloEngine

-- What each request of a batch has become.
def sequences (reqs : List BatchRequest) (outs : List EngineOutput) : List (List TokenId) :=
  zipWith (fun req out => req.prompt ++ out.tokens) reqs outs

variable {R μ δ τ : Type} [MemoryRuntime R] [LawfulMemoryRuntime R] [CfgMatcher μ] [DraftModel μ δ] [TargetModel μ τ]
  {reqs : List BatchRequest} {outs : List EngineOutput} {m m' : Machine R μ δ τ}

-- The handles that a batch returns are all there just when no two of its requests have become the same sequence. For a
-- target that expects what `f` says these are the prompts with what `f` writes after them.
theorem generateBatch_reported_iff (hr : Reachable m.engine) (hcap : m.engine.prefixCache.capacityTokens = none)
    (h : generateBatch fuel reqs m = (.ok outs, m')) :
    (Forall₂ (Reported · · m'.engine) (sequences reqs outs) outs ↔ (sequences reqs outs).Nodup) ∧
    ∀ f, DraftModel.AnswersBatch δ 1 → TargetModel.VerifiesBatchBy τ f → (∀ req ∈ reqs, req.constraint = none) →
      (Forall₂ (Reported · · m'.engine) (sequences reqs outs) outs ↔
        (reqs.map fun req => req.prompt ++ greedy f req.prompt req.maxNewTokens).Nodup) := by
  obtain ⟨actives, m₁, hd, hw⟩ := generateBatch_eq_ok h
  obtain ⟨actives₀, models, hp, _, hl⟩ := decode_eq_ok hd
  obtain ⟨hprompts, hne⟩ := prepareAll_prompts hr.filled hp
  have hfixed := rounds_fixed hl
  have hprompt : actives.map (·.session.prompt) = reqs.map (·.prompt) := by
    have h := congrArg (map (·.2.1)) hfixed
    rw [map_map, map_map] at h
    exact h.trans hprompts
  have hseq : sequences reqs outs = actives.map (·.fullSequence) := by
    have hzip : sequences reqs outs = zipWith (· ++ ·) (reqs.map (·.prompt)) (outs.map (·.tokens)) := by
      rw [zipWith_map, sequences]
    rw [hzip, ← hprompt, wrapUp_tokens hw, zipWith_map, zipWith_self]
    rfl
  have hne' : ∀ req ∈ actives, req.fullSequence ≠ [] := by
    intro req hreq
    have hmem : req.session.prompt ∈ reqs.map (·.prompt) := hprompt ▸ mem_map_of_mem hreq
    obtain ⟨req', hreq', heq⟩ := mem_map.mp hmem
    rw [ActiveRequest.fullSequence, ← heq]
    exact append_ne_nil_of_left_ne_nil (hne req' hreq') _
  have u : Unlimited m₁.engine := by
    have hu := stable_unlimited.decode (fun _ _ _ => Unlimited.withPool) fuel reqs m ⟨hr.coherent, hcap⟩
    rwa [hd] at hu
  have hiff : Forall₂ (Reported · · m'.engine) (sequences reqs outs) outs ↔ (sequences reqs outs).Nodup := by
    rw [hseq, forall₂_map_left_iff]
    exact wrapUp_reported_iff u hne' hw
  refine ⟨hiff, fun f hδ hτ hc => ?_⟩
  have hfresh := Fresh.of_prepareAll hc hp
  have ht := rounds_tracks hδ hτ m₁.engine.decoder.draftWindow_pos (Fresh.tracks hfresh) hl
  have hasked := congrArg (map fun v => v.1 ++ greedy f v.1 v.2) (Fresh.asked hfresh hfixed)
  rw [map_map, map_map] at hasked
  have hgreedy : actives.map (·.fullSequence) = reqs.map fun req => req.prompt ++ greedy f req.prompt req.maxNewTokens := by
    refine (map_congr_left fun req hreq => ?_).trans hasked
    obtain ⟨t, hu⟩ := ht req hreq
    rw [ActiveRequest.fullSequence, t.generated_eq hu]
    rfl
  rw [hiff, hseq, hgreedy]

-- The same prompt twice, with different numbers of tokens.
theorem generateBatch_reported_pair : ∃ e : VeloEngine CpuMemoryRuntime Empty, VeloEngine.new ⟨2, ⟨1, 4, 8, 2⟩⟩ = .ok e ∧
    ∃ outs m', generateBatch 6 [⟨[1, 2], 3, none⟩, ⟨[1, 2], 2, none⟩]
        ⟨e, ⟨(⟨⟩ : Guesser fun _ => 7), (⟨0⟩ : Oracle List.sum)⟩⟩ = (.ok outs, m') ∧
      Forall₂ (Reported · · m'.engine) (sequences [⟨[1, 2], 3, none⟩, ⟨[1, 2], 2, none⟩] outs) outs := by
  obtain ⟨e, he, hok⟩ : ∃ e : VeloEngine CpuMemoryRuntime Empty, VeloEngine.new ⟨2, ⟨1, 4, 8, 2⟩⟩ = .ok e ∧
      e.prefixCache.capacityTokens = none ∧ (generateBatch 6 [⟨[1, 2], 3, none⟩, ⟨[1, 2], 2, none⟩]
        ⟨e, ⟨(⟨⟩ : Guesser fun _ => 7), (⟨0⟩ : Oracle List.sum)⟩⟩).1.toBool = true := ⟨_, rfl, by decide +kernel⟩
  rcases hb : generateBatch 6 [⟨[1, 2], 3, none⟩, ⟨[1, 2], 2, none⟩]
      ⟨e, ⟨(⟨⟩ : Guesser fun _ => 7), (⟨0⟩ : Oracle List.sum)⟩⟩ with ⟨_ | outs, m'⟩
  case error => simp [hb, Except.toBool] at hok
  case ok =>
    have hiff := generateBatch_reported_iff (reachable_new _ he) hok.left hb
    refine ⟨e, he, outs, m', hb, ?_⟩
    exact (hiff.right List.sum (Guesser.answersBatch.mono (Nat.zero_le 1)) Oracle.verifiesBatchBy (by decide)).mpr (by decide +kernel)

-- A request is repeated, and the second answer takes the place of the first one.
theorem exists_not_reported : ∃ e : VeloEngine CpuMemoryRuntime Empty, VeloEngine.new ⟨2, ⟨1, 4, 8, 2⟩⟩ = .ok e ∧
    ∃ outs m', generateBatch 4 [⟨[1], 1, none⟩, ⟨[1], 1, none⟩]
        ⟨e, ⟨(⟨⟩ : Guesser List.sum), (⟨0⟩ : Oracle List.sum)⟩⟩ = (.ok outs, m') ∧
      ¬Forall₂ (Reported · · m'.engine) (sequences [⟨[1], 1, none⟩, ⟨[1], 1, none⟩] outs) outs := by
  obtain ⟨e, he, hok⟩ : ∃ e : VeloEngine CpuMemoryRuntime Empty, VeloEngine.new ⟨2, ⟨1, 4, 8, 2⟩⟩ = .ok e ∧
      let res := generateBatch 4 [⟨[1], 1, none⟩, ⟨[1], 1, none⟩] ⟨e, ⟨(⟨⟩ : Guesser List.sum), (⟨0⟩ : Oracle List.sum)⟩⟩
      (res.1.toOption.bind head?).map (fun out => (out.insertedHandle.bind res.2.engine.runtime.store.get).isSome) = some false :=
    ⟨_, rfl, by decide +kernel⟩
  rcases hb : generateBatch 4 [⟨[1], 1, none⟩, ⟨[1], 1, none⟩] ⟨e, ⟨(⟨⟩ : Guesser List.sum), (⟨0⟩ : Oracle List.sum)⟩⟩ with
    ⟨_ | _ | ⟨out, outs⟩, m'⟩
  case error  => simp [hb, Except.toOption] at hok
  case ok.nil => simp [hb, Except.toOption] at hok
  case ok.cons =>
    simp only [hb, Except.toOption, Option.bind_some, head?_cons, Option.map_some, Option.some.injEq] at hok
    refine ⟨e, he, _, m', hb, fun h => ?_⟩
    rw [sequences, zipWith_cons_cons] at h
    obtain ⟨⟨handle, hi, st⟩, _⟩ := forall₂_cons.mp h
    have hl : (m'.engine.runtime.store.get handle).isSome = true := st.live
    simp [hi, hl] at hok

end Machine
