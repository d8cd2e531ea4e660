import VeloCore.Execution.Engine.Theorems.Slots
import VeloCore.Objects.Backend.Recorder

open List

-- The two greedy models over backends of any kind, whose forward calls are recorded.
abbrev RecordedModels (μ β γ : Type) :=
  Models (GreedyDraftModel μ (Recorder β)) (GreedyTargetModel μ (Recorder γ))

namespace Models

variable {φ μ β γ : Type} {m m' : RecordedModels μ β γ} {slot : SlotId} {cachedPrefix : CacheLookup}

-- Both backends were bound to the slot and to the lookup last.
structure BoundTo (m : RecordedModels μ β γ) (slot : SlotId) (cachedPrefix : CacheLookup) : Prop where
  draftSlot    : m.draft.backend.slot = some slot
  draftPrefix  : m.draft.backend.cachedPrefix = some cachedPrefix
  targetSlot   : m.target.backend.slot = some slot
  targetPrefix : m.target.backend.cachedPrefix = some cachedPrefix

-- The forward calls from one state to another.
def callsSince (m m' : RecordedModels μ β γ) : List ForwardCall :=
  m'.draft.backend.calls.drop m.draft.backend.calls.length ++
    m'.target.backend.calls.drop m.target.backend.calls.length

-- There are only forward calls from one state to another, and one of them is for each of the contexts.
def Serves (m m' : RecordedModels μ β γ) (contexts : List (List TokenId)) : Prop :=
  ∃ cs ct, m.draft.backend.Serves m'.draft.backend cs ∧ m.target.backend.Serves m'.target.backend ct ∧
    ∀ context ∈ contexts, ∃ c ∈ cs, c.context = context

theorem BoundTo.serves (h : BoundTo m slot cachedPrefix) (hs : Serves m m' contexts) :
    BoundTo m' slot cachedPrefix :=
  have ⟨_, _, hd, ht, _⟩ := hs
  ⟨hd.slot.trans h.draftSlot, hd.cachedPrefix.trans h.draftPrefix, ht.slot.trans h.targetSlot,
    ht.cachedPrefix.trans h.targetPrefix⟩

theorem BoundTo.of_mem_callsSince (h : BoundTo m slot cachedPrefix) (hs : Serves m m' contexts)
    (hc : c ∈ callsSince m m') : c.slot = some slot ∧ c.cachedPrefix = some cachedPrefix := by
  have ⟨cs, ct, hd, ht, _⟩ := hs
  rw [callsSince, hd.drop_eq, ht.drop_eq, mem_append] at hc
  rcases hc with hc | hc
  case inl => exact h.draftSlot ▸ h.draftPrefix ▸ hd.bound c hc
  case inr => exact h.targetSlot ▸ h.targetPrefix ▸ ht.bound c hc

theorem Serves.exists_call (hs : Serves m m' contexts) (hc : context ∈ contexts) :
    ∃ c ∈ callsSince m m', c.context = context := by
  have ⟨cs, ct, hd, ht, hall⟩ := hs
  have ⟨c, hmem, heq⟩ := hall context hc
  exact ⟨c, by rw [callsSince, hd.drop_eq]; exact mem_append_left _ hmem, heq⟩

theorem Serves.refl : Serves m m [] :=
  ⟨[], [], .refl, .refl, by simp⟩

theorem Serves.draft (hs : Serves m m' []) {d : GreedyDraftModel μ (Recorder β)}
    (hd : m'.draft.backend.Serves d.backend cs)
    (hall : ∀ context ∈ contexts, ∃ c ∈ cs, c.context = context) :
    Serves m { m' with draft := d } contexts := by
  have ⟨cs₀, ct, hd₀, ht, _⟩ := hs
  refine ⟨cs₀ ++ cs, ct, hd₀.trans hd, ht, fun context hc => ?_⟩
  have ⟨c, hmem, heq⟩ := hall context hc
  exact ⟨c, mem_append_right _ hmem, heq⟩

theorem Serves.target (hs : Serves m m' contexts) {t : GreedyTargetModel μ (Recorder γ)}
    (ht : m'.target.backend.Serves t.backend ct) : Serves m { m' with target := t } contexts :=
  have ⟨cs, ct₀, hd, ht₀, hall⟩ := hs
  ⟨cs, ct₀ ++ ct, hd, ht₀.trans ht, hall⟩

theorem onDraft_eq_ok {f : GreedyDraftModel μ (Recorder β) → Except SpeculativeError α × _}
    (h : onDraft f m = (.ok a, m')) : m' = { m with draft := (f m.draft).2 } := by
  have ⟨d, hd, hm⟩ := Eff.zoom_eq_ok_iff.mp h
  rw [hm, Eff.call_eq_ok_iff.mp hd]

theorem onTarget_eq_ok {f : GreedyTargetModel μ (Recorder γ) → Except SpeculativeError α × _}
    (h : onTarget f m = (.ok a, m')) : m' = { m with target := (f m.target).2 } := by
  have ⟨t, ht, hm⟩ := Eff.zoom_eq_ok_iff.mp h
  rw [hm, Eff.call_eq_ok_iff.mp ht]

variable [Logit φ] [CfgMatcher μ] [CausalLmBackend φ β] [CausalLmBackend φ γ]

theorem bind_bound (h : bind slot cachedPrefix m = (.ok (), m')) : BoundTo m' slot cachedPrefix := by
  have ⟨_, m₁, h₁, h⟩ := Eff.bind_eq_ok_iff.mp h
  have ⟨_, m₂, h₂, h⟩ := Eff.bind_eq_ok_iff.mp h
  have ⟨_, m₃, h₃, h₄⟩ := Eff.bind_eq_ok_iff.mp h
  rw [onTarget_eq_ok h₄, onDraft_eq_ok h₃, onTarget_eq_ok h₂, onDraft_eq_ok h₁]
  exact ⟨rfl, rfl, rfl, rfl⟩

end Models

namespace VeloEngine

section Commit

theorem keeps_bind {σ ε α β : Type} {I : σ → Prop} {x : Eff σ ε α} {f : α → Eff σ ε β} {s : σ}
    (hx : I (x s).2) (hf : ∀ a, Eff.Keeps I (f a)) : I ((x >>= f) s).2 := by
  rw [Eff.bind_apply]
  match h : x s with
  | (.ok a, s')    => rw [h] at hx; exact hf a s' hx
  | (.error e, s') => rw [h] at hx; exact hx

variable {μ σ : Type} {I : σ → Prop} {draftResults : List (List NextTokenPrediction)}
  {verifyResults : List (List VerifyStep)}

theorem commitAll_keeps (indices : List (Nat × Nat)) (active : List (ActiveRequest μ)) :
    Eff.Keeps I (commitAll draftResults verifyResults indices active : Eff σ SpeculativeError _) := by
  induction indices generalizing active
  case nil => exact .pure _
  case cons p indices hi =>
    refine .bind (.bind (.index _ _) fun req => .bind (.index _ _) fun drafted => .bind (.index _ _) fun verified => ?_)
      fun active => hi active
    split
    case h_1 => exact .throw _
    case h_2 => exact .pure _

theorem draftedTokens_keeps (results : List (List NextTokenPrediction)) (n : Nat) :
    Eff.Keeps I (draftedTokens results n : Eff σ SpeculativeError _) := by
  unfold draftedTokens
  split
  case isTrue  => exact .pure _
  case isFalse => exact fun _ h => h

end Commit

section Round

variable {φ μ β γ : Type} [Logit φ] [CfgMatcher μ] [CausalLmBackend φ β] [CausalLmBackend φ γ]
  {active active₀ : List (ActiveRequest μ)} {req : ActiveRequest μ} {m m' m₀ : RecordedModels μ β γ}

omit [Logit φ] [CausalLmBackend φ β] [CausalLmBackend φ γ] in
theorem draftRequests_map (draftWindow : Nat) (active : List (ActiveRequest μ)) :
    (draftRequests draftWindow active).map (fun r => (r.context, r.maxTokens)) =
      (active.filter (·.unfinished)).map fun req =>
        (req.session.context, min (req.maxNewTokens - req.generated.length) draftWindow) := by
  induction active
  case nil => rfl
  case cons req reqs hi =>
    by_cases hu : req.unfinished <;> simp_all [draftRequests]

-- Each round consists of forward calls, and the first unfinished request is served.
theorem round_serves (hw : 0 < draftWindow) (active : List (ActiveRequest μ)) (m : RecordedModels μ β γ) :
    m.Serves (round draftWindow active m).2
      ((active.filter (·.unfinished)).head?.map (·.session.context)).toList := by
  unfold round
  split
  case isFalse h =>
    have hnil : active.filter (·.unfinished) = [] := filter_eq_nil_iff.mpr (by simpa using h)
    rw [hnil]
    exact .refl
  case isTrue =>
    have ⟨cs, hs, hhead⟩ := GreedyDraftModel.draftBatch_serves (draftRequests draftWindow active) m.draft
    have hall : ∀ context ∈ ((active.filter (·.unfinished)).head?.map (·.session.context)).toList,
        ∃ c ∈ cs, c.context = context := by
      intro context hcontext
      have ⟨req, hreq, hc⟩ := Option.map_eq_some_iff.mp (Option.mem_toList.mp hcontext)
      have hu : req.generated.length < req.maxNewTokens :=
        of_decide_eq_true (mem_filter.mp (mem_of_head? hreq)).right
      have hfirst := congrArg head? (draftRequests_map draftWindow active)
      rw [head?_map, head?_map, hreq] at hfirst
      have ⟨q, hq, hkey⟩ := Option.map_eq_some_iff.mp hfirst
      rw [Prod.mk.injEq] at hkey
      have ⟨c, hmem, heq⟩ := hhead q hq (by rw [hkey.right]; omega)
      exact ⟨c, hmem, heq.trans (hkey.left.trans hc)⟩
    refine keeps_bind (I := fun m' => m.Serves m' _) ?_ fun draftResults =>
      .bind (draftedTokens_keeps _ _) fun drafted => .bind ?_ fun _ =>
      .bind (commitAll_keeps _ _) fun _ => .pure _
    case refine_1 =>
      rw [Models.onDraft, Eff.zoom_snd, Eff.call_snd]
      exact Models.Serves.refl.draft hs hall
    case refine_2 =>
      intro m' hm'
      rw [Models.onTarget, Eff.zoom_snd, Eff.call_snd]
      have ⟨ct, ht⟩ := GreedyTargetModel.verifyBatch_serves
        (verifyRequests (modifyAll ActiveRequest.recordDraftCall (activeIndices active) active) drafted) m'.target
      exact hm'.target ht

-- While the round runs, each forward call for an unfinished request is made under the slot and the lookup of this
-- request.
def RoundBound (draftWindow : Nat) (active : List (ActiveRequest μ)) (m : RecordedModels μ β γ) : Prop :=
  ∀ c ∈ m.callsSince (round draftWindow active m).2, ∀ req ∈ active, req.unfinished →
    req.session.context <+: c.context → c.slot = some req.slotId ∧ c.cachedPrefix = some req.prefill.cachedPrefix

instance : Decidable (RoundBound draftWindow active m) :=
  inferInstanceAs (Decidable (∀ c ∈ _, ∀ req ∈ _, _ → _ → _ ∧ _))

-- The loop that binds the requests leaves the models bound to the last one.
theorem bindAll_bound {reqs : List (ActiveRequest μ)} {last : ActiveRequest μ}
    (h : bindAll (reqs ++ [last]) m = (.ok (), m')) : m'.BoundTo last.slotId last.prefill.cachedPrefix := by
  induction reqs generalizing m
  case nil =>
    have ⟨_, _, hb, h⟩ := Eff.bind_eq_ok_iff.mp h
    cases h
    exact Models.bind_bound hb
  case cons req reqs hi =>
    have ⟨_, _, _, h⟩ := Eff.bind_eq_ok_iff.mp h
    exact hi h

theorem heads_fixed (h : Eff.Heads (round draftWindow) active₀ m₀ active m) :
    active.map (·.fixed) = active₀.map (·.fixed) :=
  h.invariant (I := fun active _ => active.map (·.fixed) = active₀.map (·.fixed))
    (fun _ _ _ _ hi hr => (round_fixed hr).trans hi) rfl

-- No round binds anything.
theorem heads_bound {slot : SlotId} {cachedPrefix : CacheLookup} (hw : 0 < draftWindow)
    (hb : m₀.BoundTo slot cachedPrefix) (h : Eff.Heads (round draftWindow) active₀ m₀ active m) :
    m.BoundTo slot cachedPrefix := by
  refine h.invariant (I := fun _ m => m.BoundTo slot cachedPrefix) (fun a m a' m' hb hr => ?_) hb
  have hs := round_serves hw a m
  rw [hr] at hs
  exact hb.serves hs

-- With a slot each, the forward calls are made under the bindings of their own requests just when only the last request
-- of the batch is to get any tokens.
theorem roundBound_iff {init : List (ActiveRequest μ)} {last : ActiveRequest μ} (hw : 0 < draftWindow)
    (hslots : ((init ++ [last]).map (·.slotId)).Nodup) (hempty : ∀ req ∈ init, req.generated = [])
    (hb : m₀.BoundTo last.slotId last.prefill.cachedPrefix) :
    (∀ active m, Eff.Heads (round draftWindow) (init ++ [last]) m₀ active m → RoundBound draftWindow active m) ↔
      ∀ req ∈ init, req.maxNewTokens = 0 := by
  constructor
  case mp =>
    intro h
    by_contra hne
    push Not at hne
    have ⟨req, hreq, hpos⟩ := hne
    have hu : req ∈ init.filter (·.unfinished) := by
      refine mem_filter.mpr ⟨hreq, ?_⟩
      simp [ActiveRequest.unfinished, hempty req hreq]
      omega
    -- The first unfinished request is served, but the models are bound to the last one.
    have ⟨first, rest, hfirst⟩ := exists_cons_of_ne_nil (ne_nil_of_mem hu)
    have ⟨hmem, hu⟩ := mem_filter.mp (hfirst ▸ mem_cons_self : first ∈ init.filter (·.unfinished))
    have hs := round_serves hw (init ++ [last]) m₀
    rw [filter_append, hfirst, cons_append, head?_cons] at hs
    have ⟨c, hc, hcontext⟩ := hs.exists_call (by simp : first.session.context ∈ _)
    have hslot := (h _ _ .refl c hc first (mem_append_left _ hmem) hu (hcontext ▸ prefix_rfl)).left
    have hlast := (hb.of_mem_callsSince hs hc).left
    have heq : first.slotId = last.slotId := Option.some.inj (hslot.symm.trans hlast)
    rw [map_append, map_cons, map_nil, nodup_append] at hslots
    exact hslots.right.right first.slotId (mem_map_of_mem hmem) last.slotId mem_cons_self heq
  case mpr =>
    intro hzero active m hh c hc req hreq hu _
    have hb := heads_bound hw hb hh
    have hmem : req.fixed ∈ (init ++ [last]).map (·.fixed) := heads_fixed hh ▸ mem_map_of_mem hreq
    rw [map_append, mem_append] at hmem
    rcases hmem with hmem | hmem
    case inl =>
      have ⟨req', hreq', hsame⟩ := mem_map.mp hmem
      have hmax : req'.maxNewTokens = req.maxNewTokens := congrArg (·.2.2.1) hsame
      have hu : req.generated.length < req.maxNewTokens := of_decide_eq_true hu
      rw [← hmax, hzero req' hreq'] at hu
      contradiction
    case inr =>
      have hsame : req.fixed = last.fixed := by simpa using hmem
      have hslot : req.slotId = last.slotId := congrArg (·.1) hsame
      have hprefill : req.prefill = last.prefill := congrArg (·.2.2.2) hsame
      rw [hslot, hprefill]
      exact hb.of_mem_callsSince (round_serves hw active m) hc

-- From the preparation of the batch on.
theorem prepared_roundBound_iff {R : Type} [MemoryRuntime R] {e e' : VeloEngine R μ} {reqs : List BatchRequest}
    (hn : e.freeSlots.Nodup) (hp : prepareAll reqs e = (.ok active₀, e')) (hb : bindAll active₀ m = (.ok (), m₀)) :
    (∀ active m, Eff.Heads (round e'.decoder.draftWindow) active₀ m₀ active m →
      RoundBound e'.decoder.draftWindow active m) ↔ ∀ req ∈ reqs.dropLast, req.maxNewTokens = 0 := by
  have hw := e'.decoder.draftWindow_pos
  have ⟨taken, hfree, _, _, htaken⟩ := prepareAll_slots reqs e
  have hslots : (active₀.map (·.slotId)).Nodup := by
    rw [htaken active₀ (by rw [hp])]
    exact (nodup_append.mp (hfree ▸ hn)).left
  have hfresh := prepareAll_fresh hp
  have hmax : (∀ req ∈ reqs.dropLast, req.maxNewTokens = 0) ↔
      ∀ active ∈ active₀.dropLast, active.maxNewTokens = 0 := by
    have h := congrArg dropLast hfresh.left
    rw [← map_dropLast, ← map_dropLast] at h
    constructor
    case mp =>
      intro hz active hmem
      have hmem : active.maxNewTokens ∈ reqs.dropLast.map (·.maxNewTokens) := h ▸ mem_map_of_mem hmem
      have ⟨req, hreq, heq⟩ := mem_map.mp hmem
      exact heq.symm.trans (hz req hreq)
    case mpr =>
      intro hz req hmem
      have hmem : req.maxNewTokens ∈ active₀.dropLast.map (·.maxNewTokens) := h ▸ mem_map_of_mem hmem
      have ⟨active, hactive, heq⟩ := mem_map.mp hmem
      exact heq.symm.trans (hz active hactive)
  rw [hmax]
  rcases eq_nil_or_concat' active₀ with hnil | ⟨init, last, hconcat⟩
  case inl =>
    subst hnil
    refine iff_of_true (fun active m hh c hc req hreq => ?_) (by simp)
    have hnil : active = [] := by simpa using heads_fixed hh
    simp [hnil] at hreq
  case inr =>
    subst hconcat
    rw [dropLast_concat]
    exact roundBound_iff hw hslots (fun req hreq => hfresh.right req (mem_append_left _ hreq)) (bindAll_bound hb)

end Round
end VeloEngine
