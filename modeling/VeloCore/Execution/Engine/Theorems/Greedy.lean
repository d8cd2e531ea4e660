import VeloCore.Execution.Engine.Theorems.Lockstep

open List

namespace ActiveRequest

variable {μ : Type} {f : List TokenId → TokenId} {req req' : ActiveRequest μ}

-- All that a round does to a request, apart from counting its calls.
def view (req : ActiveRequest μ) :
    (SlotId × List TokenId × Nat × EnginePrefillOutput) × List TokenId × List TokenId × Option μ :=
  (req.fixed, req.session.context, req.generated, req.matcher)

-- The request has been answered with what `f` writes after its prompt, as far as it goes.
structure Tracks (f : List TokenId → TokenId) (req : ActiveRequest μ) : Prop where
  context   : req.session.context = req.session.prompt ++ req.generated
  generated : Follows f req.session.prompt req.generated
  length_le : req.generated.length ≤ req.maxNewTokens
  matcher   : req.matcher = none

theorem Tracks.congr (t : Tracks f req) (h : req'.view = req.view) : Tracks f req' := by
  simp only [view, fixed, Prod.mk.injEq] at h
  obtain ⟨⟨_, hp, hn, _⟩, hc, hg, hm⟩ := h
  exact ⟨by rw [hc, hp, hg, t.context], hp ▸ hg ▸ t.generated, hg ▸ hn ▸ t.length_le, hm.trans t.matcher⟩

-- A round brings an unfinished request on.
structure Progress (f : List TokenId → TokenId) (req req' : ActiveRequest μ) : Prop where
  tracks : Tracks f req'
  fixed  : req'.fixed = req.fixed
  length : req.generated.length < req'.generated.length

-- What a round of the batch does to each of its requests.
structure Advances (f : List TokenId → TokenId) (req req' : ActiveRequest μ) : Prop where
  tracks    : Tracks f req'
  fixed     : req'.fixed = req.fixed
  length_le : req.generated.length ≤ req'.generated.length
  progress  : req.unfinished → req.generated.length < req'.generated.length

theorem Progress.advances {req₁ : ActiveRequest μ} (p : Progress f req₁ req') (h : req₁.view = req.view) :
    Advances f req req' := by
  have hg : req₁.generated = req.generated := congrArg (·.2.2.1) h
  have hlt := hg ▸ p.length
  exact ⟨p.tracks, p.fixed.trans (congrArg (·.1) h), hlt.le, fun _ => hlt⟩

-- A finished request has been answered in full.
theorem Tracks.generated_eq (t : Tracks f req) (hu : ¬req.unfinished) :
    req.generated = greedy f req.session.prompt req.maxNewTokens := by
  have hlen : req.generated.length = req.maxNewTokens := by
    have hle := t.length_le
    simp [unfinished] at hu
    omega
  rw [← hlen]
  exact t.generated

theorem Tracks.advances (t : Tracks f req) (hu : ¬req.unfinished) (h : req'.view = req.view) : Advances f req req' := by
  have hg : req'.generated = req.generated := congrArg (·.2.2.1) h
  exact ⟨t.congr h, congrArg (·.1) h, hg ▸ le_rfl, fun hu' => absurd hu' hu⟩

theorem Tracks.commit (t : Tracks f req) (hpos : 0 < drafted.length)
    (hle : drafted.length ≤ req.maxNewTokens - req.generated.length)
    (hv : verified.map (·.expected) = expectedAfter f req.session.context (drafted.map (·.token))) :
    ∃ req', req.commit drafted verified = .ok req' ∧ Progress f req req' := by
  have ⟨accepted, s, hc, e⟩ := SpeculativeSession.commit_emits hv
  have hprogress := e.progress hpos
  have hlen := e.length_le
  refine ⟨_, commit_eq hc, ⟨?_, ?_, ?_, t.matcher⟩, ?_, ?_⟩
  case refine_1 => simp [e.context, t.context, e.prompt]
  case refine_2 =>
    have hf := e.follows
    rw [t.context] at hf
    simpa [e.prompt] using t.generated.append hf
  case refine_3 =>
    have := t.length_le
    simp
    omega
  case refine_4 => simp [fixed, e.prompt]
  case refine_5 => simp; omega

end ActiveRequest

namespace VeloEngine

variable {μ δ τ : Type} [CfgMatcher μ] {f : List TokenId → TokenId} {active active' : List (ActiveRequest μ)}

theorem draftRequests_eq (h : ∀ req ∈ active, req.matcher = none) :
    draftRequests draftWindow active = (active.filter (·.unfinished)).map fun req =>
      { context := req.session.context
        maxTokens := min (req.maxNewTokens - req.generated.length) draftWindow
        matcher := none } := by
  induction active
  case nil => rfl
  case cons req reqs hi =>
    have hr := h req mem_cons_self
    have hi := hi fun r hr => h r (mem_cons_of_mem _ hr)
    by_cases hu : req.unfinished <;> simp_all [draftRequests]

omit [CfgMatcher μ] in
theorem returnMatchers_view {ms : List (Option μ)} (h : ∀ req ∈ active, req.matcher = none) :
    (returnMatchers active ms).map (·.view) = active.map (·.view) := by
  induction active generalizing ms
  case nil => rfl
  case cons req reqs hi =>
    have hr := h req mem_cons_self
    have hi {ms} := @hi ms fun r hr => h r (mem_cons_of_mem _ hr)
    unfold returnMatchers
    split
    case isFalse => rw [map_cons, map_cons, hi]
    case isTrue =>
      split
      case h_1 => rfl
      case h_2 => rw [map_cons, map_cons, hi]; simp [ActiveRequest.view, ActiveRequest.fixed, hr]

omit [CfgMatcher μ] in
-- Whether a request is finished can be told from its view.
theorem filter_unfinished_view {active' : List (ActiveRequest μ)} (h : active'.map (·.view) = active.map (·.view)) :
    (active'.filter (·.unfinished)).map (·.view) = (active.filter (·.unfinished)).map (·.view) := by
  have hfilter (l : List (ActiveRequest μ)) : (l.filter (·.unfinished)).map (·.view) =
      (l.map (·.view)).filter fun v => v.2.2.1.length < v.1.2.2.1 := by
    rw [filter_map]
    rfl
  rw [hfilter, hfilter, h]

variable [DraftModel μ δ]

theorem draft_returns (hδ : DraftModel.AnswersBatch δ 1) (hw : 0 < draftWindow)
    (ht : ∀ req ∈ active, req.matcher = none) (m : Models δ τ) : ∃ draftResults m',
      Models.onDraft (fun d => match DraftModel.draftBatch (draftRequests draftWindow active) d with
        | (res, _, d) => (res, d)) m = (.ok draftResults, m') ∧
      Forall₂ (fun req predictions => predictions.length ≤ req.maxNewTokens - req.generated.length ∧
        (req.unfinished → 0 < predictions.length)) (active.filter (·.unfinished)) draftResults := by
  have hrequests : ∀ r ∈ draftRequests draftWindow active, 1 ≤ r.maxTokens ∧ r.matcher = none := by
    rw [draftRequests_eq ht]
    intro r hr
    have ⟨req, hreq, he⟩ := mem_map.mp hr
    have hu : req.generated.length < req.maxNewTokens := of_decide_eq_true (mem_filter.mp hreq).right
    rw [← he]
    exact ⟨by simp; omega, rfl⟩
  have ⟨draftResults, _, d, hd, hresults⟩ := hδ m.draft (draftRequests draftWindow active) hrequests
  refine ⟨draftResults, _, Eff.zoom_ok (Eff.call_ok (by rw [hd])), ?_⟩
  rw [draftRequests_eq ht, forall₂_map_left_iff] at hresults
  refine hresults.imp fun req predictions hp => ⟨hp.left.trans (min_le_left ..), fun hu => hp.right ?_⟩
  have hu : req.generated.length < req.maxNewTokens := of_decide_eq_true hu
  simp
  omega

variable [TargetModel μ τ]

omit [CfgMatcher μ] [DraftModel μ δ] in
theorem verify_returns {active₁ : List (ActiveRequest μ)} (hτ : TargetModel.VerifiesBatchBy τ f)
    (hview : active₁.map (·.view) = active.map (·.view)) (ht : ∀ req ∈ active, req.matcher = none)
    (drafted : List (List TokenId)) (m : Models δ τ) : ∃ verifyResults ms m',
      Models.onTarget (fun t => match TargetModel.verifyBatch (verifyRequests active₁ drafted) t with
        | (res, ms, t) => (res.map (·, ms), t)) m = (.ok (verifyResults, ms), m') ∧
      Forall₂ (fun p verified => verified.map (·.expected) = expectedAfter f p.1.session.context p.2)
        ((active.filter (·.unfinished)).zip drafted) verifyResults := by
  have hmatchers : ∀ r ∈ verifyRequests active₁ drafted, r.matcher = none := by
    intro r hr
    have ⟨⟨req, _⟩, hzip, he⟩ := mem_map.mp hr
    have hmem : req.view ∈ active.map (·.view) := hview ▸ mem_map_of_mem (mem_filter.mp (of_mem_zip hzip).left).left
    have ⟨req', hreq', hv⟩ := mem_map.mp hmem
    have hm : req'.matcher = req.matcher := congrArg (·.2.2.2) hv
    rw [← he]
    exact hm.symm.trans (ht req' hreq')
  have ⟨verifyResults, ms, t, hv, hverified⟩ := hτ m.target _ hmatchers
  refine ⟨verifyResults, ms, _, Eff.zoom_ok (Eff.call_ok (by dsimp only; rw [hv]; rfl)), ?_⟩
  -- The contexts are those of the unfinished requests before their calls were counted.
  have hcontext : (active₁.filter (·.unfinished)).map (·.session.context) =
      (active.filter (·.unfinished)).map (·.session.context) := by
    have h := congrArg (map (·.2.1)) (filter_unfinished_view hview)
    rwa [map_map, map_map] at h
  have hkey : (verifyRequests active₁ drafted).map (fun r => (r.context, r.drafted)) =
      ((active.filter (·.unfinished)).zip drafted).map fun p => (p.1.session.context, p.2) := by
    have h := congrArg (·.zip drafted) hcontext
    simp only [zip_map_left] at h
    rw [verifyRequests, map_map]
    exact h
  have hverified : Forall₂ (fun k verified => verified.map (·.expected) = expectedAfter f k.1 k.2)
      ((verifyRequests active₁ drafted).map fun r => (r.context, r.drafted)) verifyResults :=
    forall₂_map_left_iff.mpr hverified
  exact forall₂_map_left_iff.mp (hkey ▸ hverified)

omit [CfgMatcher μ] [DraftModel μ δ] [TargetModel μ τ] in
-- The requests are committed under their own results, although these are known by position only.
theorem commitAll_tracks {active₁ : List (ActiveRequest μ)} {draftResults : List (List NextTokenPrediction)}
    {verifyResults : List (List VerifyStep)} (s : σ) (ht : ∀ req ∈ active, ActiveRequest.Tracks f req)
    (hview : active₁.map (·.view) = active.map (·.view))
    (hdrafted : Forall₂ (fun req predictions => predictions.length ≤ req.maxNewTokens - req.generated.length ∧
      (req.unfinished → 0 < predictions.length)) (active.filter (·.unfinished)) draftResults)
    (hverified : Forall₂ (fun p verified => verified.map (·.expected) = expectedAfter f p.1.session.context p.2)
      ((active.filter (·.unfinished)).zip (draftResults.map fun predictions => predictions.map (·.token))) verifyResults) :
    ∃ active', commitAll draftResults verifyResults (activeIndices active).zipIdx active₁ s = (.ok active', s) ∧
      Forall₂ (ActiveRequest.Advances f) active active' := by
  have hget {k : Nat} {req} (hreq : active[k]? = some req) : ∃ req₁, active₁[k]? = some req₁ ∧ req₁.view = req.view := by
    have h := congrArg (·[k]?) hview
    simpa [hreq] using h
  have hcommit : ∀ p ∈ (activeIndices active).zipIdx, ∃ req drafted verified req', active₁[p.1]? = some req ∧
      draftResults[p.2]? = some drafted ∧ verifyResults[p.2]? = some verified ∧
      req.commit drafted verified = .ok req' ∧ ActiveRequest.Progress f req req' := by
    intro p hp
    obtain ⟨req, hreq, hu, hi⟩ := mem_activeIndices_zipIdx hp
    obtain ⟨req₁, hreq₁, hsame⟩ := hget hreq
    obtain ⟨drafted, hdr, hle, hpos⟩ := forall₂_getElem? hdrafted hi
    have hzip : ((active.filter (·.unfinished)).zip (draftResults.map fun predictions => predictions.map (·.token)))[p.2]? =
        some (req, drafted.map (·.token)) := getElem?_zip_eq_some.mpr ⟨hi, by rw [getElem?_map, hdr]; rfl⟩
    obtain ⟨verified, hvr, he⟩ := forall₂_getElem? hverified hzip
    have t := (ht req (mem_of_getElem? hreq)).congr hsame
    simp only [ActiveRequest.view, ActiveRequest.fixed, Prod.mk.injEq] at hsame
    obtain ⟨⟨_, _, hmax, _⟩, hcontext, hgenerated, _⟩ := hsame
    obtain ⟨req', hc, hp⟩ := t.commit (hpos hu) (by rw [hmax, hgenerated]; exact hle) (hcontext ▸ he)
    exact ⟨req₁, drafted, verified, req', hreq₁, hdr, hvr, hc, hp⟩
  obtain ⟨active', hc, hl, hk⟩ := commitAll_returns s (by rw [zipIdx_map_fst]; exact activeIndices_nodup) hcommit
  refine ⟨active', hc, forall₂_of_getElem? ?_ fun {k req} hreq => ?_⟩
  case refine_1 => rw [hl, ← length_map (·.view), ← hview, length_map]
  case refine_2 =>
    obtain ⟨req₁, hreq₁, hsame⟩ := hget hreq
    obtain ⟨req', hreq', hif⟩ := hk hreq₁
    rw [zipIdx_map_fst] at hif
    refine ⟨req', hreq', ?_⟩
    split at hif
    case isTrue => exact hif.advances hsame
    case isFalse hn =>
      have hu : ¬req.unfinished := fun hu => hn (mem_activeIndices_iff.mpr ⟨req, hreq, hu⟩)
      rw [hif]
      exact (ht req (mem_of_getElem? hreq)).advances hu hsame

-- A round brings every unfinished request on, and the finished ones keep what they have.
theorem round_returns (hδ : DraftModel.AnswersBatch δ 1) (hτ : TargetModel.VerifiesBatchBy τ f)
    (hw : 0 < draftWindow) (ht : ∀ req ∈ active, ActiveRequest.Tracks f req) (m : Models δ τ) :
    Eff.Returns (round draftWindow active) m fun r _ => r.elim
      (fun active' => active.any (·.unfinished) ∧ Forall₂ (ActiveRequest.Advances f) active active')
      (fun active' => active' = active ∧ ∀ req ∈ active, ¬req.unfinished) := by
  unfold round
  split
  case isFalse h => exact .pure ⟨rfl, by simpa using h⟩
  case isTrue h =>
    have hm req hreq := (ht req hreq).matcher
    have ⟨draftResults, m₁, hd, hdrafted⟩ := draft_returns hδ hw hm m
    have hlen : (activeIndices active).length = draftResults.length :=
      activeIndices_length.trans hdrafted.length_eq
    have htokens : (draftedTokens draftResults (activeIndices active).length : Eff _ SpeculativeError _) m₁ =
        (.ok (draftResults.map fun predictions => predictions.map (·.token)), m₁) := by
      simp [draftedTokens, hlen, Eff.pure_apply]
    have hdraft (req : ActiveRequest μ) : req.recordDraftCall.view = req.view := rfl
    have htarget (req : ActiveRequest μ) : req.recordTargetCall.view = req.view := rfl
    have hview : (modifyAll ActiveRequest.recordDraftCall (activeIndices active) active).map (·.view) =
        active.map (·.view) := modifyAll_map hdraft (activeIndices active)
    have ⟨verifyResults, ms, m₂, hv, hverified⟩ := verify_returns hτ hview hm
      (draftResults.map fun predictions => predictions.map (·.token)) m₁
    have hview₂ : (modifyAll ActiveRequest.recordTargetCall (activeIndices active) (returnMatchers
        (modifyAll ActiveRequest.recordDraftCall (activeIndices active) active) ms)).map (·.view) = active.map (·.view) := by
      rw [modifyAll_map htarget, returnMatchers_view ?_, hview]
      intro req hreq
      have ⟨req', hreq', hv⟩ := mem_map.mp (hview ▸ mem_map_of_mem hreq : req.view ∈ active.map (·.view))
      exact (congrArg (·.2.2.2) hv).symm.trans (hm req' hreq')
    have ⟨active', hc, hadvances⟩ := commitAll_tracks m₂ ht hview₂ hdrafted hverified
    exact .bind ⟨_, _, hd, .bind ⟨_, _, htokens, .bind ⟨_, _, hv, .bind ⟨active', m₂, hc, .pure ⟨h, hadvances⟩⟩⟩⟩⟩

omit [CfgMatcher μ] [DraftModel μ δ] [TargetModel μ τ]

-- The tokens that are still to be written.
def remaining (active : List (ActiveRequest μ)) : Nat :=
  (active.map fun req => req.maxNewTokens - req.generated.length).sum

theorem remaining_le (h : Forall₂ (ActiveRequest.Advances f) active active') : remaining active' ≤ remaining active := by
  induction h
  case nil => exact le_rfl
  case cons req req' _ _ a _ hi =>
    have hmax : req'.maxNewTokens = req.maxNewTokens := congrArg (·.2.2.1) a.fixed
    have hle := a.length_le
    simp only [remaining, map_cons, sum_cons] at hi ⊢
    omega

theorem remaining_lt (h : Forall₂ (ActiveRequest.Advances f) active active') (hu : active.any (·.unfinished)) :
    remaining active' < remaining active := by
  induction h
  case nil => contradiction
  case cons req req' reqs reqs' a as hi =>
    have hmax : req'.maxNewTokens = req.maxNewTokens := congrArg (·.2.2.1) a.fixed
    have hle := a.length_le
    rw [any_cons, Bool.or_eq_true] at hu
    cases hu
    case inl hu =>
      have hlt := a.progress hu
      have hu : req.generated.length < req.maxNewTokens := of_decide_eq_true hu
      have hrest := remaining_le as
      simp only [remaining, map_cons, sum_cons] at hrest ⊢
      omega
    case inr hu =>
      have hrest := hi hu
      simp only [remaining, map_cons, sum_cons] at hrest ⊢
      omega

theorem forall_tracks (h : Forall₂ (ActiveRequest.Advances f) active active') :
    (∀ req ∈ active', ActiveRequest.Tracks f req) ∧ active'.map (·.fixed) = active.map (·.fixed) := by
  induction h
  case nil => exact ⟨nofun, rfl⟩
  case cons a _ hi => exact ⟨forall_mem_cons.mpr ⟨a.tracks, hi.left⟩, by rw [map_cons, map_cons, a.fixed, hi.right]⟩

variable [CfgMatcher μ] [DraftModel μ δ] [TargetModel μ τ]

theorem rounds_returns (hδ : DraftModel.AnswersBatch δ 1) (hτ : TargetModel.VerifiesBatchBy τ f)
    (hw : 0 < draftWindow) (ht : ∀ req ∈ active, ActiveRequest.Tracks f req) (hfuel : remaining active < fuel)
    (m : Models δ τ) : Eff.Returns (Eff.loop (round draftWindow) fuel active) m fun active' _ =>
      active'.map (·.fixed) = active.map (·.fixed) ∧ ∀ req ∈ active', ActiveRequest.Tracks f req ∧ ¬req.unfinished := by
  have hstep (a : List (ActiveRequest μ)) (m : Models δ τ)
      (ha : (∀ req ∈ a, ActiveRequest.Tracks f req) ∧ a.map (·.fixed) = active.map (·.fixed)) :
      Eff.Returns (round draftWindow a) m fun r _ => r.elim
        (fun a' => ((∀ req ∈ a', ActiveRequest.Tracks f req) ∧ a'.map (·.fixed) = active.map (·.fixed)) ∧
          remaining a' < remaining a)
        (fun a' => a'.map (·.fixed) = active.map (·.fixed) ∧ ∀ req ∈ a', ActiveRequest.Tracks f req ∧ ¬req.unfinished) := by
    refine (round_returns hδ hτ hw ha.left m).mono fun r _ hr => ?_
    cases r
    case inl a' =>
      have ⟨hu, h⟩ := hr
      have ⟨ht', hfixed⟩ := forall_tracks h
      exact ⟨⟨ht', hfixed.trans ha.right⟩, remaining_lt h hu⟩
    case inr a' =>
      obtain ⟨rfl, hu⟩ := hr
      exact ⟨ha.right, fun req hreq => ⟨ha.left req hreq, hu req hreq⟩⟩
  exact Eff.Returns.loop hstep ⟨ht, rfl⟩ hfuel

end VeloEngine
