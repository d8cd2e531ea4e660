import Mathlib
import VeloCore.Execution.Engine.Theorems.Coherent
import VeloCore.Execution.Engine.Theorems.Greedy
import VeloCore.Execution.Engine.Theorems.Prefill
import VeloCore.Execution.Engine.Theorems.Slots

open List MemoryRuntime

namespace VeloEngine

variable {R μ : Type} [MemoryRuntime R] [LawfulMemoryRuntime R] {e e' e₁ : VeloEngine R μ}

theorem Room.of_le (h : Room m e) (hle : n ≤ m) : Room n e := by
  induction hle
  case refl       => exact h
  case step hi    => exact hi (LawfulKvBlockStore.room_of_succ h)

-- What an operation uses of the resources of an engine: at most `blocks` blocks and `pages` pages.
structure Uses (blocks pages : Nat) (e e' : VeloEngine R μ) : Prop where
  coherent  : Coherent e'
  decoder   : e'.decoder = e.decoder
  config    : (allocator e'.runtime).config = (allocator e.runtime).config
  room k    : Room (blocks + k) e → Room k e'
  freePages : e.freePages ≤ e'.freePages + pages

namespace Uses

theorem trans (u : Uses b p e e₁) (u' : Uses b' p' e₁ e') : Uses (b + b') (p + p') e e' where
  coherent  := u'.coherent
  decoder   := u'.decoder.trans u.decoder
  config    := u'.config.trans u.config
  room k hk := u'.room k <| u.room _ <| by rwa [← Nat.add_assoc]
  freePages := by
    have h := u.freePages
    have h' := u'.freePages
    omega

theorem pagesFor (u : Uses b p e e') : e'.pagesFor = e.pagesFor :=
  pagesFor_congr u.config

theorem of_saved (s : Saved tokens h e e') : Uses 1 (e.pagesFor tokens.length) e e' where
  coherent  := s.coherent
  decoder   := s.frame.decoder
  config    := s.frame.config
  room k hk := s.room k (by rwa [Nat.add_comm])
  freePages := s.freePages

theorem nothing (c : Coherent e') (hd : e'.decoder = e.decoder) (hs : store e'.runtime = store e.runtime)
    (ha : allocator e'.runtime = allocator e.runtime) : Uses 0 0 e e' where
  coherent  := c
  decoder   := hd
  config    := by rw [ha]
  room k hk := by simpa [Room, hs] using hk
  freePages := by rw [VeloEngine.freePages, VeloEngine.freePages, ha, Nat.add_zero]

theorem mono (u : Uses b p e e') (hb : b ≤ b') (hp : p ≤ p') : Uses b' p' e e' where
  coherent  := u.coherent
  decoder   := u.decoder
  config    := u.config
  room k hk := u.room k (hk.of_le (by omega))
  freePages := u.freePages.trans (by omega)

end Uses

-- There are pages for what is live.
theorem Coherent.materializeSpan (c : Coherent e) (h : handle ∈ e.memory.live) : ∃ span,
    (allocator e.runtime).materializeSpan handle = some span ∧
      span.pages.length ≤ (allocator e.runtime).config.totalPages :=
  ((c.runtime.mapped handle).mpr h).materializeSpan c.runtime.allocator

namespace Prefilled

variable {prompt : List TokenId} {out : EnginePrefillOutput}

theorem uses (p : Prefilled prompt e out e') (hne : prompt ≠ []) : Uses 1 (e.pagesFor prompt.length) e e' := by
  cases p
  case empty h _            => contradiction
  case hit _ _ _ u hr _ _   => exact (Uses.nothing u.coherent u.frame.decoder (by rw [hr]) (by rw [hr])).mono (by simp) (by simp)
  case miss _ _ _ s _       => exact .of_saved s

-- The pages of a prompt are those that it had in the cache, or those that it has been given.
theorem pages (p : Prefilled prompt e out e') (hne : prompt ≠ []) : ∃ span,
    out.insertedPages.or out.cachedPages = some span ∧ span.pages.length ≤ (allocator e'.runtime).config.totalPages := by
  cases p
  case empty h _ => contradiction
  case hit handle _ he u _ hi hc =>
    have hl : handle ∈ e'.memory.live := u.coherent.consistent.live (u.memory ▸ he)
    rw [hi, hc]
    exact u.coherent.materializeSpan hl
  case miss handle _ _ s hi =>
    have ⟨_, hm⟩ := s.memory
    have hl : handle ∈ e'.memory.live := hm ▸ .inr rfl
    have ⟨span, hs, hle⟩ := s.coherent.materializeSpan hl
    exact ⟨span, by rw [hi, hs]; rfl, hle⟩

end Prefilled

section Prepare

variable [CfgMatcher μ] {req : BatchRequest} {active : ActiveRequest μ}

theorem prepare_returns (c : Coherent e) (hslot : e.freeSlots ≠ []) (hne : req.prompt ≠ []) (hroom : Room 1 e)
    (hpages : e.pagesFor req.prompt.length ≤ e.freePages) :
    Eff.Returns (prepare req) e fun _ e' => Uses 1 (e.pagesFor req.prompt.length) e e' := by
  have ⟨slot, rest, hfree⟩ := exists_cons_of_ne_nil hslot
  have ⟨pool, halloc, _⟩ := SlotPool.alloc_cons hfree
  rcases prefill_cases (c.withPool (p := pool) (f := e.parserFactory)) req.prompt with ⟨out, e₁, hp, h⟩ | ⟨_, _, _, _, h⟩
  case inr => exact absurd hpages (h 0 hroom)
  case inl =>
    have u := h.uses hne
    have ⟨span, hspan, hle⟩ := h.pages hne
    have hle : (span.pages.map UInt32.ofNat).length ≤ (allocator e₁.runtime).config.totalPages := by simpa using hle
    have ⟨e₂, (hb : bindSlot slot _ e₁ = _), u₂, hs, ha⟩ := bindSlot_isOk u.coherent hle
    refine .bind ⟨slot, _, allocateSlot_ok halloc, .bind ⟨out, e₁, hp, ?_⟩⟩
    dsimp only
    rw [hspan]
    have u₀ : Uses 0 0 e { e with slotPool := pool } := .nothing c.withPool rfl rfl rfl
    have u₂ := u₀.trans u |>.trans (.nothing u₂.coherent u₂.frame.decoder hs ha)
    exact .bind ⟨(), e₂, hb, .bind <| .get <| .pure <| u₂.mono le_rfl (by simp [VeloEngine.pagesFor])⟩

-- A request as it enters the first round.
structure Fresh (decoder : SpeculativeDecoder) (req : BatchRequest) (active : ActiveRequest μ) : Prop where
  session      : active.session = decoder.begin req.prompt
  maxNewTokens : active.maxNewTokens = req.maxNewTokens
  generated    : active.generated = []
  matcher      : active.matcher = none

def promptPages (e : VeloEngine R μ) (reqs : List BatchRequest) : Nat :=
  (reqs.map fun req => e.pagesFor req.prompt.length).sum

theorem prepareAll_returns {reqs : List BatchRequest} (c : Coherent e) (hslots : reqs.length ≤ e.freeSlots.length)
    (hreqs : ∀ req ∈ reqs, req.prompt ≠ [] ∧ req.constraint = none) (hroom : Room reqs.length e)
    (hpages : e.promptPages reqs ≤ e.freePages) :
    Eff.Returns (prepareAll reqs) e fun active e' =>
      Uses reqs.length (e.promptPages reqs) e e' ∧ Forall₂ (Fresh e.decoder) reqs active := by
  induction reqs generalizing e
  case nil => exact .pure ⟨.nothing c rfl rfl rfl, .nil⟩
  case cons req reqs hi =>
    have ⟨hne, hc⟩ := hreqs req mem_cons_self
    simp only [promptPages, map_cons, sum_cons] at hpages
    have hslot : e.freeSlots ≠ [] := ne_nil_of_length_pos (by simp at hslots; omega)
    have ⟨slot, rest, hfree⟩ := exists_cons_of_ne_nil hslot
    have ⟨active, e₁, hp, u⟩ := prepare_returns c hslot hne (hroom.of_le (by simp)) (by omega)
    have ⟨hfree₁, _⟩ := prepare_slots req hfree
    have p := prepare_eq_ok hp
    have hused := u.freePages
    have hi := hi u.coherent (by simp_all) (fun r hr => hreqs r (mem_cons_of_mem _ hr))
      (u.room _ (by simpa [Nat.add_comm] using hroom)) (by rw [promptPages, u.pagesFor]; omega)
    have ⟨actives, e₂, hall, u₂, hf⟩ := hi
    refine .bind ⟨active, e₁, hp, .bind ⟨actives, e₂, hall, .pure ⟨?_, ?_⟩⟩⟩
    case refine_1 =>
      rw [promptPages, u.pagesFor] at u₂
      exact (u.trans u₂).mono (by simp [Nat.add_comm]) (by simp [promptPages])
    case refine_2 => exact .cons ⟨u.decoder ▸ p.session, p.maxNewTokens, p.generated, p.matcher hc⟩ (u.decoder ▸ hf)

end Prepare

section Finish

variable {req : ActiveRequest μ} {reqs : List (ActiveRequest μ)}

theorem finish_returns (c : Coherent e) (hslot : req.slotId.toNat < e.slotPool.maxSlots) (hroom : Room 1 e)
    (hpages : e.pagesFor req.fullSequence.length ≤ e.freePages) :
    Eff.Returns (finish req) e fun _ e' => Uses 1 (e.pagesFor req.fullSequence.length) e e' := by
  obtain ⟨pool, hr, _⟩ := SlotPool.release_of_lt hslot
  have hrel : releaseSlot req.slotId e = (.ok (), { e with slotPool := pool }) := by simp [releaseSlot, hr]
  have u₀ : Uses 0 0 e { e with slotPool := pool } := .nothing c.withPool rfl rfl rfl
  refine .bind ⟨(), _, hrel, ?_⟩
  unfold cacheSequenceIf
  split
  case isFalse => exact .bind <| .pure <| .bind <| .get <| .pure <| u₀.mono (by simp) (by simp)
  case isTrue hne =>
    obtain ⟨handle, e', hc, s⟩ := cacheSequence_isOk (c.withPool (p := pool) (f := e.parserFactory))
      (length_pos_of_ne_nil hne) hroom hpages
    have u := u₀.trans (.of_saved s)
    exact .bind ⟨some handle, e', by rw [Eff.bind_ok hc]; rfl, .bind <| .get <| .pure <|
      u.mono le_rfl (by simp [VeloEngine.pagesFor])⟩

def sequencePages (e : VeloEngine R μ) (reqs : List (ActiveRequest μ)) : Nat :=
  (reqs.map fun req => e.pagesFor req.fullSequence.length).sum

theorem wrapUp_returns (c : Coherent e) (hslots : ∀ req ∈ reqs, req.slotId.toNat < e.slotPool.maxSlots)
    (hroom : Room reqs.length e) (hpages : e.sequencePages reqs ≤ e.freePages) :
    Eff.Returns (wrapUp reqs) e fun outs _ => outs.map (·.tokens) = reqs.map (·.generated) := by
  induction reqs generalizing e
  case nil => exact .pure rfl
  case cons req reqs hi =>
    simp only [sequencePages, map_cons, sum_cons] at hpages
    have ⟨out, e₁, hf, u⟩ := finish_returns c (hslots req mem_cons_self) (hroom.of_le (by simp)) (by omega)
    have ⟨_, hm⟩ := finish_slots (hslots req mem_cons_self)
    rw [hf] at hm
    have hused := u.freePages
    have ⟨outs, e₂, hw, ht⟩ := hi u.coherent (fun r hr => hm ▸ hslots r (mem_cons_of_mem _ hr))
      (u.room _ (by simpa [Nat.add_comm] using hroom)) (by rw [sequencePages, u.pagesFor]; omega)
    exact .bind ⟨out, e₁, hf, .bind ⟨outs, e₂, hw, .pure (by rw [map_cons, map_cons, (finish_eq_ok hf).left, ht])⟩⟩

end Finish

section Decode

omit [MemoryRuntime R] [LawfulMemoryRuntime R]

variable {δ τ : Type} [DraftModel μ δ] [TargetModel μ τ] {active active' : List (ActiveRequest μ)}

theorem bindAll_returns (hδ : DraftModel.Binds δ) (hτ : TargetModel.Binds τ) (m : Models δ τ) :
    Eff.Returns (bindAll active) m fun _ _ => True := by
  induction active generalizing m
  case nil => exact .pure trivial
  case cons req reqs hi =>
    have ⟨d₁, hd₁⟩ := (hδ m.draft).left req.slotId
    have ⟨t₁, ht₁⟩ := (hτ m.target).left req.slotId
    have ⟨d₂, hd₂⟩ := (hδ d₁).right req.prefill.cachedPrefix
    have ⟨t₂, ht₂⟩ := (hτ t₁).right req.prefill.cachedPrefix
    have ⟨_, _, hbind, _⟩ : Eff.Returns (Models.bind req.slotId req.prefill.cachedPrefix) m fun _ _ => True :=
      .bind ⟨(), _, Eff.zoom_ok (Eff.call_ok hd₁), .bind ⟨(), _, Eff.zoom_ok (Eff.call_ok ht₁),
        .bind ⟨(), _, Eff.zoom_ok (Eff.call_ok hd₂), (), _, Eff.zoom_ok (Eff.call_ok ht₂), trivial⟩⟩⟩
    exact .bind ⟨(), _, hbind, hi _⟩

namespace Fresh

variable {f : List TokenId → TokenId} {decoder : SpeculativeDecoder} {reqs : List BatchRequest}

theorem tracks (h : Forall₂ (Fresh decoder) reqs active) : ∀ req ∈ active, ActiveRequest.Tracks f req := by
  induction h
  case nil => exact nofun
  case cons h _ hi =>
    refine forall_mem_cons.mpr ⟨⟨?_, ?_, ?_, h.matcher⟩, hi⟩
    case refine_1 => rw [h.session, h.generated, append_nil]; rfl
    case refine_2 => exact h.generated ▸ .nil
    case refine_3 => simp [h.generated]

-- What a request asks for stays with it.
theorem asked (h : Forall₂ (Fresh decoder) reqs active) (hf : active'.map (·.fixed) = active.map (·.fixed)) :
    active'.map (fun req => (req.session.prompt, req.maxNewTokens)) = reqs.map fun req => (req.prompt, req.maxNewTokens) := by
  have hactive : active.map (fun req => (req.session.prompt, req.maxNewTokens)) =
      reqs.map fun req => (req.prompt, req.maxNewTokens) := by
    induction h generalizing active'
    case nil => rfl
    case cons h _ hi => rw [map_cons, map_cons, h.session, h.maxNewTokens, hi rfl]; rfl
  have hf := congrArg (map fun v => (v.2.1, v.2.2.1)) hf
  rw [map_map, map_map] at hf
  exact hf.trans hactive

theorem remaining_eq (h : Forall₂ (Fresh decoder) reqs active) :
    remaining active = (reqs.map (·.maxNewTokens)).sum := by
  induction h
  case nil => rfl
  case cons h _ hi =>
    simp only [remaining, map_cons, sum_cons] at hi ⊢
    rw [hi, h.maxNewTokens, h.generated, length_nil, Nat.sub_zero]

end Fresh
end Decode
end VeloEngine

namespace Machine

open VeloEngine

variable {R μ δ τ : Type} [MemoryRuntime R] [LawfulMemoryRuntime R] [CfgMatcher μ] [DraftModel μ δ] [TargetModel μ τ]
  {f : List TokenId → TokenId} {reqs : List BatchRequest} {m : Machine R μ δ τ}

-- There are enough slots, and blocks and pages for all prompts and for all full sequences.
structure Suffices (reqs : List BatchRequest) (e : VeloEngine R μ) : Prop where
  slots : reqs.length ≤ e.freeSlots.length
  room  : Room (reqs.length + reqs.length) e
  pages : e.promptPages reqs + (reqs.map fun req => e.pagesFor (req.prompt.length + req.maxNewTokens)).sum ≤ e.freePages

theorem decode_returns (c : Coherent m.engine) (hδ : DraftModel.AnswersBatch δ 1) (hτ : TargetModel.VerifiesBatchBy τ f)
    (hbδ : DraftModel.Binds δ) (hbτ : TargetModel.Binds τ) (h : Suffices reqs m.engine)
    (hreqs : ∀ req ∈ reqs, req.prompt ≠ [] ∧ req.constraint = none) (hfuel : (reqs.map (·.maxNewTokens)).sum < fuel) :
    Eff.Returns (decode fuel reqs) m fun active m' =>
      Uses reqs.length (m.engine.promptPages reqs) m.engine m'.engine ∧
      active.map (fun req => (req.session.prompt, req.maxNewTokens)) = reqs.map (fun req => (req.prompt, req.maxNewTokens)) ∧
      ∀ req ∈ active, ActiveRequest.Tracks f req ∧ ¬req.unfinished := by
  have ⟨active, e, hp, u, hfresh⟩ := prepareAll_returns c h.slots hreqs (h.room.of_le (by omega)) (by have := h.pages; omega)
  have ⟨_, ms, (hb : VeloEngine.bindAll active m.models = _), _⟩ := bindAll_returns hbδ hbτ m.models
  have ⟨active', ms', hl, hfixed, ht⟩ := rounds_returns hδ hτ e.decoder.draftWindow_pos (Fresh.tracks hfresh)
    (Fresh.remaining_eq hfresh ▸ hfuel) ms
  exact .bind ⟨active, ⟨e, m.models⟩, Eff.zoom_ok hp, .bind ⟨(), ⟨e, ms⟩, Eff.zoom_ok hb, .bind <| .get
    ⟨active', ⟨e, ms'⟩, Eff.zoom_ok hl, u, Fresh.asked hfresh hfixed, ht⟩⟩⟩

-- Each request is answered as if it were alone.
theorem generateBatch_greedy (h : Reachable m.engine) (hδ : DraftModel.AnswersBatch δ 1)
    (hτ : TargetModel.VerifiesBatchBy τ f) (hbδ : DraftModel.Binds δ) (hbτ : TargetModel.Binds τ)
    (hs : Suffices reqs m.engine) (hreqs : ∀ req ∈ reqs, req.prompt ≠ [] ∧ req.constraint = none)
    (hfuel : (reqs.map (·.maxNewTokens)).sum < fuel) :
    ∃ outs m', generateBatch fuel reqs m = (.ok outs, m') ∧
      outs.map (·.tokens) = reqs.map fun req => greedy f req.prompt req.maxNewTokens := by
  have ⟨active, m₁, hd, u, hasked, ht⟩ := decode_returns h.coherent hδ hτ hbδ hbτ hs hreqs hfuel
  have hlen : active.length = reqs.length := by simpa using congrArg length hasked
  have hgenerated : active.map (·.generated) = reqs.map fun req => greedy f req.prompt req.maxNewTokens := by
    have h := congrArg (map fun v => greedy f v.1 v.2) hasked
    rw [map_map, map_map] at h
    exact (map_congr_left fun req hreq => (ht req hreq).left.generated_eq (ht req hreq).right).trans h
  have hpages : m₁.engine.sequencePages active =
      (reqs.map fun req => m.engine.pagesFor (req.prompt.length + req.maxNewTokens)).sum := by
    have h := congrArg (map fun v => m.engine.pagesFor (v.1.length + v.2)) hasked
    rw [map_map, map_map] at h
    refine congrArg sum <| (map_congr_left fun req hreq => ?_).trans h
    have hg := (ht req hreq).left.generated_eq (ht req hreq).right
    simp [u.pagesFor, ActiveRequest.fullSequence, hg]
  have hslots : ∀ req ∈ active, req.slotId.toNat < m₁.engine.slotPool.maxSlots := decode_slotId_lt fuel reqs m hd
  have hfree := u.freePages
  have hpages' := hs.pages
  have ⟨outs, e, hw, hout⟩ := wrapUp_returns u.coherent hslots (hlen ▸ u.room _ hs.room) (by omega)
  exact ⟨outs, ⟨e, m₁.models⟩, by rw [generateBatch, Eff.bind_ok hd]; exact Eff.zoom_ok hw, hout.trans hgenerated⟩

-- The same prompt twice, with different numbers of tokens.
theorem generateBatch_greedy_pair : ∃ e : VeloEngine CpuMemoryRuntime Empty, VeloEngine.new ⟨2, ⟨1, 4, 8, 2⟩⟩ = .ok e ∧
    ∃ outs m', generateBatch 6 [⟨[1, 2], 3, none⟩, ⟨[1, 2], 2, none⟩]
        ⟨e, ⟨(⟨⟩ : Guesser fun _ => 7), (⟨0⟩ : Oracle List.sum)⟩⟩ = (.ok outs, m') ∧
      outs.map (·.tokens) = [greedy List.sum [1, 2] 3, greedy List.sum [1, 2] 2] := by
  refine ⟨_, rfl, generateBatch_greedy (reachable_new ⟨2, ⟨1, 4, 8, 2⟩⟩ rfl) (Guesser.answersBatch.mono (Nat.zero_le 1))
    Oracle.verifiesBatchBy Guesser.binds Oracle.binds ⟨?_, trivial, ?_⟩ ?_ ?_⟩
  all_goals decide +kernel

end Machine
