import VeloCore.Execution.Engine.Theorems.Greedy
import VeloCore.Execution.Engine.Theorems.Phases

open List

-- The draft model answers every batch with a draft for each request.
def DraftModel.RepliesBatch (δ : Type) [DraftModel μ δ] (P : DraftRequest μ → List NextTokenPrediction → Prop) : Prop :=
  ∀ (d : δ) requests, ∃ results ms d', DraftModel.draftBatch requests d = (.ok results, ms, d') ∧ Forall₂ P requests results

-- The target model answers every batch with one step for each drafted token.
def TargetModel.StepsBatch (τ : Type) [TargetModel μ τ] : Prop :=
  ∀ (t : τ) requests, ∃ results ms t', TargetModel.verifyBatch requests t = (.ok results, ms, t') ∧
    Forall₂ (fun r vs => vs.length = r.drafted.length) requests results

namespace SpeculativeSession

-- How many tokens a draft comes to: those that the target agrees with, and one more unless it agrees with all.
def gain (drafted : List NextTokenPrediction) (verified : List VerifyStep) : Nat :=
  min (commonPrefixLen (drafted.map (·.token)) (verified.map (·.expected)) + 1) drafted.length

variable {s : SpeculativeSession} {drafted : List NextTokenPrediction} {verified : List VerifyStep}

theorem gain_pos_iff : 0 < gain drafted verified ↔ drafted ≠ [] := by
  rw [gain, ← length_pos_iff]
  omega

-- The draft is not longer than what is left, or the target disagrees before that is used up.
def Suits (left : Nat) (drafted : List NextTokenPrediction) (verified : List VerifyStep) : Prop :=
  drafted.length ≤ left ∨ commonPrefixLen (drafted.map (·.token)) (verified.map (·.expected)) < left

instance : Decidable (Suits left drafted verified) :=
  inferInstanceAs (Decidable (_ ∨ _))

theorem gain_le_iff : gain drafted verified ≤ left ↔ Suits left drafted verified := by
  rw [gain, Suits]
  omega

theorem resolve_gain (h : verified.length = drafted.length) :
    (emitted (s.resolve (drafted.map (·.token)) verified).1 (s.resolve (drafted.map (·.token)) verified).2).length =
      gain drafted verified := by
  have hlen : verified.length = (drafted.map (·.token)).length := by simpa using h
  have hk := commonPrefixLen_le_left (l := drafted.map (·.token)) (r := verified.map (·.expected))
  rw [length_map] at hk
  simp only [resolve, compare_eq hlen, emitted, Nat.zero_add, adjustWindow_rejectedToken, reject_rejectedToken, gain]
  set k := commonPrefixLen (drafted.map (·.token)) (verified.map (·.expected))
  by_cases hlt : k < drafted.length
  case pos =>
    have hv : verified[k]? = some verified[k] := getElem?_eq_getElem (by omega)
    simp [hv]
    omega
  case neg =>
    have hv : verified[k]? = none := getElem?_eq_none (by omega)
    simp [hv]
    omega

theorem commit_gain (h : verified.length = drafted.length) : ∃ accepted s',
    s.commit drafted verified = (.ok accepted, s') ∧ (emitted accepted s').length = gain drafted verified :=
  ⟨_, _, commit_eq h, resolve_gain h⟩

theorem length_of_commit_eq_ok (h : s.commit drafted verified = (.ok accepted, s')) : verified.length = drafted.length := by
  unfold commit at h
  split at h
  case isTrue      => cases h
  case isFalse heq => exact not_not.mp heq

end SpeculativeSession

namespace ActiveRequest

variable {req req' : ActiveRequest μ}

theorem commit_gain (h : req.commit drafted verified = .ok req') : verified.length = drafted.length ∧
    req'.generated.length = req.generated.length + SpeculativeSession.gain drafted verified := by
  rcases hc : req.session.commit drafted verified with ⟨e | accepted, session⟩
  case error => simp [commit, hc] at h
  case ok =>
    have hlen := SpeculativeSession.length_of_commit_eq_ok hc
    obtain ⟨_, _, hc', hgain⟩ := SpeculativeSession.commit_gain (s := req.session) hlen
    cases hc.symm.trans hc'
    cases (commit_eq hc).symm.trans h
    exact ⟨hlen, by simp [hgain]⟩

theorem commit_isOk (req : ActiveRequest μ) (h : verified.length = drafted.length) :
    ∃ req', req.commit drafted verified = .ok req' :=
  have ⟨_, _, hc, _⟩ := SpeculativeSession.commit_gain (s := req.session) h
  ⟨_, commit_eq hc⟩

end ActiveRequest

namespace VeloEngine

variable {μ δ τ : Type} [CfgMatcher μ] [DraftModel μ δ] [TargetModel μ τ] {active active' : List (ActiveRequest μ)}
  {m m' : Models δ τ} {drafts : List (List NextTokenPrediction)} {steps : List (List VerifyStep)}

-- What the models answer in a round.
structure Answered (draftWindow : Nat) (active : List (ActiveRequest μ)) (m : Models δ τ)
    (drafts : List (List NextTokenPrediction)) (steps : List (List VerifyStep)) : Prop where
  drafted  : ∃ ms d, DraftModel.draftBatch (draftRequests draftWindow active) m.draft = (.ok drafts, ms, d)
  verified : ∃ ms t, TargetModel.verifyBatch (verifyRequests
      (modifyAll ActiveRequest.recordDraftCall (activeIndices active) active)
      ((drafts.take (activeIndices active).length).map fun predictions => predictions.map (·.token))) m.target =
    (.ok steps, ms, t)

theorem Answered.unique (h : Answered draftWindow active m drafts steps)
    (h' : Answered draftWindow active m drafts' steps') : drafts = drafts' ∧ steps = steps' := by
  have ⟨_, _, hd⟩ := h.drafted
  have ⟨_, _, hd'⟩ := h'.drafted
  cases hd.symm.trans hd'
  have ⟨_, _, hv⟩ := h.verified
  have ⟨_, _, hv'⟩ := h'.verified
  cases hv.symm.trans hv'
  exact ⟨rfl, rfl⟩

-- What a round does to the request at position `k`.
structure Gains (drafts : List (List NextTokenPrediction)) (steps : List (List VerifyStep)) (indices : List Nat) (k : Nat)
    (req req' : ActiveRequest μ) : Prop where
  max   : req'.maxNewTokens = req.maxNewTokens
  gains : ∀ i : Nat, indices[i]? = some k → ∃ predictions verified, drafts[i]? = some predictions ∧
    steps[i]? = some verified ∧ req'.generated.length = req.generated.length + SpeculativeSession.gain predictions verified
  rests : k ∉ indices → req'.generated = req.generated

omit [CfgMatcher μ] [DraftModel μ δ] [TargetModel μ τ] in
theorem commitAll_eq_ok {indices : List (Nat × Nat)} {s s' : σ} (hn : (indices.map (·.1)).Nodup)
    (h : commitAll drafts steps indices active s = (.ok active', s')) : active'.length = active.length ∧
      ∀ {k req}, active[k]? = some req → ∃ req', active'[k]? = some req' ∧ (k ∉ indices.map (·.1) → req' = req) ∧
        ∀ i, (k, i) ∈ indices → ∃ predictions verified, drafts[i]? = some predictions ∧ steps[i]? = some verified ∧
          req.commit predictions verified = .ok req' := by
  induction indices generalizing active s
  case nil => cases h; exact ⟨rfl, fun {_ req} hk => ⟨req, hk, fun _ => rfl, nofun⟩⟩
  case cons p indices hi =>
    obtain ⟨idx, i⟩ := p
    rw [map_cons, nodup_cons] at hn
    have ⟨active₁, s₁, hc, h⟩ := Eff.bind_eq_ok_iff.mp h
    have ⟨req₀, drafted, verified, req', hreq₀, hd, hv, hcommit, he⟩ := commitAt_eq_ok hc
    have ⟨hl, hk⟩ := hi hn.right h
    subst he
    refine ⟨by simpa using hl, fun {k req} hreq => ?_⟩
    by_cases hki : k = idx
    case pos =>
      subst hki
      cases hreq.symm.trans hreq₀
      have ⟨req'', hreq'', hrest, _⟩ := hk (getElem?_set_self (List.getElem?_eq_some_iff.mp hreq).1)
      cases hrest hn.left
      refine ⟨req', hreq'', fun hnot => absurd mem_cons_self hnot, fun j hj => ?_⟩
      rcases mem_cons.mp hj with heq | hmem
      case inl => cases heq; exact ⟨drafted, verified, hd, hv, hcommit⟩
      case inr => exact absurd (mem_map_of_mem (f := fun p => p.1) hmem) hn.left
    case neg =>
      have ⟨req'', hreq'', hrest, hall⟩ := hk ((getElem?_set_ne (Ne.symm hki)).trans hreq)
      refine ⟨req'', hreq'', fun hnot => hrest fun hmem => hnot (mem_cons_of_mem _ hmem), fun j hj => ?_⟩
      exact hall j ((mem_cons.mp hj).resolve_left fun heq => hki (congrArg (·.1) heq))

omit [CfgMatcher μ] [DraftModel μ δ] [TargetModel μ τ] in
-- Counting the calls and lending the matchers leave the tokens alone.
theorem recorded_view (active : List (ActiveRequest μ)) (ms : List (Option μ)) (indices : List Nat) :
    (modifyAll ActiveRequest.recordTargetCall indices
      (returnMatchers (modifyAll ActiveRequest.recordDraftCall indices active) ms)).map
        (fun req => (req.maxNewTokens, req.generated)) = active.map fun req => (req.maxNewTokens, req.generated) := by
  have hdraft (req : ActiveRequest μ) : (req.recordDraftCall.maxNewTokens, req.recordDraftCall.generated) =
      (req.maxNewTokens, req.generated) := rfl
  have htarget (req : ActiveRequest μ) : (req.recordTargetCall.maxNewTokens, req.recordTargetCall.generated) =
      (req.maxNewTokens, req.generated) := rfl
  rw [modifyAll_map htarget, returnMatchers_map (fun _ _ => rfl), modifyAll_map hdraft]

theorem round_gains (h : round draftWindow active m = (.ok (.inl active'), m')) : ∃ drafts steps,
    Answered draftWindow active m drafts steps ∧ active'.length = active.length ∧
      ∀ {k req}, active[k]? = some req → ∃ req', active'[k]? = some req' ∧
        Gains drafts steps (activeIndices active) k req req' := by
  unfold round at h
  split at h
  case isFalse => cases h
  case isTrue =>
    have ⟨drafts, m₁, hd, h⟩ := Eff.bind_eq_ok_iff.mp h
    have ⟨drafted, m₂, hdt, h⟩ := Eff.bind_eq_ok_iff.mp h
    have ⟨⟨steps, ms⟩, m₃, hv, h⟩ := Eff.bind_eq_ok_iff.mp h
    have ⟨active₁, m₄, hc, h⟩ := Eff.bind_eq_ok_iff.mp h
    cases h
    have ⟨d, hdraft, hm₁⟩ := Eff.zoom_eq_ok_iff.mp hd
    have hdraft := Eff.call_eq_ok_iff.mp hdraft
    have ⟨t, hverify, hm₃⟩ := Eff.zoom_eq_ok_iff.mp hv
    have hverify := Eff.call_eq_ok_iff.mp hverify
    obtain ⟨hdrafted, hm₂⟩ :
        drafted = (drafts.take (activeIndices active).length).map (fun ps => ps.map (·.token)) ∧ m₂ = m₁ := by
      unfold draftedTokens at hdt
      split at hdt <;> cases hdt
      exact ⟨rfl, rfl⟩
    subst hdrafted hm₂
    refine ⟨drafts, steps, ⟨?_, ?_⟩, ?_⟩
    case refine_1 =>
      match hb : DraftModel.draftBatch (draftRequests draftWindow active) m.draft with
      | (res, ms, d') =>
        rw [hb] at hdraft
        cases hdraft
        exact ⟨ms, _, rfl⟩
    case refine_2 =>
      rw [hm₁] at hverify
      dsimp only at hverify
      match hb : TargetModel.verifyBatch (verifyRequests
          (modifyAll ActiveRequest.recordDraftCall (activeIndices active) active)
          ((drafts.take (activeIndices active).length).map fun predictions => predictions.map (·.token))) m.target with
      | (.error e, ms, t')  => rw [hb] at hverify; cases hverify
      | (.ok steps', ms, t') =>
        rw [hb] at hverify
        cases hverify
        exact ⟨_, _, hb⟩
    case refine_3 =>
      have hview := recorded_view active ms (activeIndices active)
      have ⟨hl, hk⟩ := commitAll_eq_ok (by rw [zipIdx_map_fst]; exact activeIndices_nodup) hc
      refine ⟨?_, fun {k req} hreq => ?_⟩
      case refine_1 =>
        have := congrArg length hview
        rw [length_map, length_map] at this
        exact hl.trans this
      case refine_2 =>
        have hget := congrArg (·[k]?) hview
        simp only [getElem?_map, hreq, Option.map_some] at hget
        have ⟨req₁, hreq₁, hsame⟩ := Option.map_eq_some_iff.mp hget
        obtain ⟨hmax, hgenerated⟩ := Prod.mk.inj hsame
        have ⟨req', hreq', hrest, hall⟩ := hk hreq₁
        rw [zipIdx_map_fst] at hrest
        by_cases hmem : k ∈ activeIndices active
        case neg =>
          have heq := hrest hmem
          exact ⟨req', hreq', heq ▸ hmax, fun i hi => absurd (mem_of_getElem? hi) hmem, fun _ => heq ▸ hgenerated⟩
        case pos =>
          have hgain (i : Nat) (hi : (activeIndices active)[i]? = some k) : ∃ ps vs, drafts[i]? = some ps ∧
              steps[i]? = some vs ∧ req₁.commit ps vs = .ok req' := hall i (mem_zipIdx_iff_getElem?.mpr hi)
          have ⟨j, hj⟩ := getElem?_of_mem hmem
          have ⟨_, _, _, _, hcommit⟩ := hgain j hj
          have hfixed := congrArg (·.2.2.1) (ActiveRequest.commit_fixed hcommit)
          refine ⟨req', hreq', hfixed.trans hmax, fun i hi => ?_, fun hnot => absurd hmem hnot⟩
          have ⟨ps, vs, hps, hvs, hcommit⟩ := hgain i hi
          exact ⟨ps, vs, hps, hvs, hgenerated ▸ (ActiveRequest.commit_gain hcommit).right⟩

section Returns

omit [CfgMatcher μ] [DraftModel μ δ] [TargetModel μ τ] in
theorem filter_unfinished_length {active' : List (ActiveRequest μ)}
    (h : active'.map (fun req => (req.maxNewTokens, req.generated)) =
      active.map fun req => (req.maxNewTokens, req.generated)) :
    (active'.filter (·.unfinished)).length = (active.filter (·.unfinished)).length := by
  have hfilter (l : List (ActiveRequest μ)) : (l.filter (·.unfinished)).length =
      ((l.map fun req => (req.maxNewTokens, req.generated)).filter fun v => v.2.length < v.1).length := by
    rw [filter_map, length_map]
    rfl
  rw [hfilter, hfilter, h]

omit [DraftModel μ δ] [TargetModel μ τ] in
theorem draftRequests_length (draftWindow : Nat) :
    (draftRequests draftWindow active).length = (active.filter (·.unfinished)).length := by
  induction active
  case nil => rfl
  case cons req reqs hi =>
    unfold draftRequests at hi ⊢
    by_cases hu : req.unfinished <;> simp_all

-- Models that answer bring every round to its end.
theorem round_isOk (draftWindow : Nat) {P : DraftRequest μ → List NextTokenPrediction → Prop}
    (hδ : DraftModel.RepliesBatch δ P) (hτ : TargetModel.StepsBatch τ) (hu : active.any (·.unfinished))
    (m : Models δ τ) : ∃ drafts steps active' m',
      Answered draftWindow active m drafts steps ∧ Forall₂ P (draftRequests draftWindow active) drafts ∧
      round draftWindow active m = (.ok (.inl active'), m') := by
  obtain ⟨drafts, ms, d, hd, hreplies⟩ := hδ m.draft (draftRequests draftWindow active)
  have hlen : (activeIndices active).length = drafts.length := by
    rw [activeIndices_length, ← draftRequests_length draftWindow, hreplies.length_eq]
  let drafted := (drafts.take (activeIndices active).length).map fun predictions => predictions.map (·.token)
  obtain ⟨steps, ms', t, hv, hsteps⟩ := hτ m.target
    (verifyRequests (modifyAll ActiveRequest.recordDraftCall (activeIndices active) active) drafted)
  have hdraft : Models.onDraft (fun d => ((DraftModel.draftBatch (draftRequests draftWindow active) d).1,
      (DraftModel.draftBatch (draftRequests draftWindow active) d).2.2)) m = (.ok drafts, { m with draft := d }) :=
    Eff.zoom_ok (Eff.call_ok (by rw [hd]))
  have htokens : (draftedTokens drafts (activeIndices active).length : Eff _ SpeculativeError _) { m with draft := d } =
      (.ok drafted, { m with draft := d }) := by simp [draftedTokens, hlen, Eff.pure_apply, drafted]
  let verify (t : τ) := TargetModel.verifyBatch (verifyRequests
    (modifyAll ActiveRequest.recordDraftCall (activeIndices active) active) drafted) t
  have hverify : Models.onTarget (fun t => ((verify t).1.map (·, (verify t).2.1), (verify t).2.2)) { m with draft := d } =
      (.ok (steps, ms'), { draft := d, target := t }) :=
    Eff.zoom_ok (Eff.call_ok (by dsimp only [verify]; rw [hv]; rfl))
  have hview := recorded_view active ms' (activeIndices active)
  have hrecorded : (modifyAll ActiveRequest.recordDraftCall (activeIndices active) active).map
      (fun req => (req.maxNewTokens, req.generated)) = active.map fun req => (req.maxNewTokens, req.generated) :=
    modifyAll_map (f := ActiveRequest.recordDraftCall) (fun _ => rfl) _
  have hcommit : ∀ p ∈ (activeIndices active).zipIdx, ∃ req drafted verified req',
      (modifyAll ActiveRequest.recordTargetCall (activeIndices active) (returnMatchers
        (modifyAll ActiveRequest.recordDraftCall (activeIndices active) active) ms'))[p.1]? = some req ∧
      drafts[p.2]? = some drafted ∧ steps[p.2]? = some verified ∧ req.commit drafted verified = .ok req' ∧ True := by
    intro p hp
    obtain ⟨req, hreq, hu, hi⟩ := mem_activeIndices_zipIdx hp
    have hget := congrArg (·[p.1]?) hview
    simp only [getElem?_map, hreq, Option.map_some] at hget
    obtain ⟨req₁, hreq₁, _⟩ := Option.map_eq_some_iff.mp hget
    have hlt : p.2 < (active.filter (·.unfinished)).length := (List.getElem?_eq_some_iff.mp hi).1
    have hlt' : p.2 < drafts.length := by rw [← hlen, activeIndices_length]; exact hlt
    have hdrafts : drafts[p.2]? = some drafts[p.2] := getElem?_eq_getElem hlt'
    have hd₂ : drafted[p.2]? = some (drafts[p.2].map (·.token)) := by
      rw [getElem?_map, getElem?_take, if_pos (by omega), hdrafts]
      rfl
    have hlt₁ :
        p.2 < ((modifyAll ActiveRequest.recordDraftCall (activeIndices active) active).filter (·.unfinished)).length :=
      (filter_unfinished_length hrecorded).symm ▸ hlt
    obtain ⟨request, hrequest, hrd⟩ : ∃ request, (verifyRequests
        (modifyAll ActiveRequest.recordDraftCall (activeIndices active) active) drafted)[p.2]? = some request ∧
        request.drafted = drafts[p.2].map (·.token) := by
      have hzip := getElem?_zip_eq_some (z := (_, drafts[p.2].map (·.token))).mpr ⟨getElem?_eq_getElem hlt₁, hd₂⟩
      rw [verifyRequests, getElem?_map, hzip]
      exact ⟨_, rfl, rfl⟩
    obtain ⟨verified, hvr, hlenv⟩ := forall₂_getElem? hsteps hrequest
    have hlenv : verified.length = drafts[p.2].length := by simpa [hrd] using hlenv
    obtain ⟨req', hc⟩ := ActiveRequest.commit_isOk req₁ hlenv
    exact ⟨req₁, _, verified, req', hreq₁, hdrafts, hvr, hc, trivial⟩
  obtain ⟨active', hc, _⟩ := commitAll_returns (P := fun _ _ => True) (⟨d, t⟩ : Models δ τ)
    (by rw [zipIdx_map_fst]; exact activeIndices_nodup) hcommit
  refine ⟨drafts, steps, active', ⟨d, t⟩, ⟨⟨ms, d, hd⟩, ms', t, hv⟩, hreplies, ?_⟩
  unfold round
  rw [if_pos hu]
  dsimp only
  refine (Eff.bind_ok hdraft).trans ((Eff.bind_ok htokens).trans ((Eff.bind_ok hverify).trans ?_))
  dsimp only
  rw [Eff.bind_ok hc]
  rfl

end Returns

section Progress

-- An unfinished request got tokens.
def Progresses (active active' : List (ActiveRequest μ)) : Prop :=
  ∃ (k : Nat) (req req' : ActiveRequest μ), active[k]? = some req ∧ active'[k]? = some req' ∧ req.unfinished ∧
    req.generated.length < req'.generated.length

-- A round gets on just when one of the drafts has a token.
theorem round_progresses_iff (draftWindow : Nat) {P : DraftRequest μ → List NextTokenPrediction → Prop}
    (hδ : DraftModel.RepliesBatch δ P) (hτ : TargetModel.StepsBatch τ) (hu : active.any (·.unfinished))
    (m : Models δ τ) : ∃ drafts steps active' m',
      Answered draftWindow active m drafts steps ∧ round draftWindow active m = (.ok (.inl active'), m') ∧
      (Progresses active active' ↔ ∃ predictions ∈ drafts, predictions ≠ []) := by
  have ⟨drafts, steps, active', m', ha, hreplies, hr⟩ := round_isOk draftWindow hδ hτ hu m
  have ⟨_, _, ha', hl, hgains⟩ := round_gains hr
  obtain ⟨rfl, rfl⟩ := ha.unique ha'
  refine ⟨drafts, steps, active', m', ha, hr, fun ⟨k, req, req', hreq, hreq', hun, hlt⟩ => ?_, fun ⟨ps, hmem, hne⟩ => ?_⟩
  case refine_1 =>
    have ⟨req'', hreq'', g⟩ := hgains hreq
    cases hreq'.symm.trans hreq''
    have ⟨i, hi⟩ := getElem?_of_mem (mem_activeIndices_iff.mpr ⟨req, hreq, hun⟩)
    have ⟨ps, vs, hps, _, hcount⟩ := g.gains i hi
    exact ⟨ps, mem_of_getElem? hps, SpeculativeSession.gain_pos_iff.mp (show 0 < SpeculativeSession.gain ps vs by omega)⟩
  case refine_2 =>
    have ⟨i, hi⟩ := getElem?_of_mem hmem
    have hlt : i < (activeIndices active).length := by
      rw [activeIndices_length, ← draftRequests_length draftWindow, hreplies.length_eq]
      exact (List.getElem?_eq_some_iff.mp hi).1
    have hk := getElem?_eq_getElem hlt
    have ⟨req, hreq, hun⟩ := mem_activeIndices_iff.mp (mem_of_getElem? hk)
    have ⟨req', hreq', g⟩ := hgains hreq
    have ⟨ps', vs, hps, _, hcount⟩ := g.gains i hk
    cases hi.symm.trans hps
    have hpos : 0 < SpeculativeSession.gain ps vs := SpeculativeSession.gain_pos_iff.mpr hne
    exact ⟨_, req, req', hreq, hreq', hun, by omega⟩

omit [DraftModel μ δ] [TargetModel μ τ] [CfgMatcher μ]

-- The requests keep the tokens that they have.
def Extend (active active' : List (ActiveRequest μ)) : Prop :=
  Forall₂ (fun req req' => req'.maxNewTokens = req.maxNewTokens ∧ req.generated.length ≤ req'.generated.length)
    active active'

theorem Extend.refl (active : List (ActiveRequest μ)) : Extend active active :=
  forall₂_same.mpr fun _ _ => ⟨rfl, le_rfl⟩

theorem Extend.trans {a b c : List (ActiveRequest μ)} (h : Extend a b) (h' : Extend b c) : Extend a c := by
  refine forall₂_of_getElem? (h.length_eq.trans h'.length_eq) fun {k req} hreq => ?_
  have ⟨req', hreq', hmax, hle⟩ := forall₂_getElem? h hreq
  have ⟨req'', hreq'', hmax', hle'⟩ := forall₂_getElem? h' hreq'
  exact ⟨req'', hreq'', hmax'.trans hmax, hle.trans hle'⟩

theorem Extend.remaining (h : Extend active active') :
    remaining active' ≤ remaining active ∧ (Progresses active active' → remaining active' < remaining active) := by
  induction h
  case nil =>
    refine ⟨le_rfl, ?_⟩
    rintro ⟨_, _, _, h, _⟩
    simp at h
  case cons req req' reqs reqs' hreq _ hi =>
    obtain ⟨hmax, hcount⟩ := hreq
    obtain ⟨hle, hlt⟩ := hi
    simp only [VeloEngine.remaining, map_cons, sum_cons] at hle hlt ⊢
    refine ⟨by omega, ?_⟩
    rintro ⟨k, r, r', hr, hr', hun, hgain⟩
    cases k
    case zero =>
      cases hr
      cases hr'
      have hun : req.generated.length < req.maxNewTokens := of_decide_eq_true hun
      omega
    case succ k =>
      have := hlt ⟨k, r, r', hr, hr', hun, hgain⟩
      omega

variable [CfgMatcher μ] [DraftModel μ δ] [TargetModel μ τ]

theorem round_extend (h : round draftWindow active m = (.ok (.inl active'), m')) : Extend active active' := by
  have ⟨drafts, steps, _, hl, hgains⟩ := round_gains h
  refine forall₂_of_getElem? hl.symm fun {k req} hreq => ?_
  have ⟨req', hreq', g⟩ := hgains hreq
  refine ⟨req', hreq', g.max, ?_⟩
  by_cases hmem : k ∈ activeIndices active
  case neg => rw [g.rests hmem]
  case pos =>
    have ⟨i, hi⟩ := getElem?_of_mem hmem
    have ⟨_, _, _, _, hcount⟩ := g.gains i hi
    omega

theorem round_exit (h : round draftWindow active m = (.ok (.inr active'), m')) :
    active' = active ∧ ¬active.any (·.unfinished) := by
  unfold round at h
  split at h
  case isFalse hu => cases h; exact ⟨rfl, hu⟩
  case isTrue =>
    have ⟨_, _, _, h⟩ := Eff.bind_eq_ok_iff.mp h
    have ⟨_, _, _, h⟩ := Eff.bind_eq_ok_iff.mp h
    have ⟨⟨_, _⟩, _, _, h⟩ := Eff.bind_eq_ok_iff.mp h
    have ⟨_, _, _, h⟩ := Eff.bind_eq_ok_iff.mp h
    cases h

theorem rounds_extend (h : Eff.loop (round draftWindow) fuel active m = (.ok active', m')) : Extend active active' := by
  have hstep (a : List (ActiveRequest μ)) (m : Models δ τ) (ha : Extend active a) :
      Eff.Step (fun a _ => Extend active a) (fun r _ => ∀ a, r = .ok a → Extend active a) (round draftWindow a m) := by
    match hb : round draftWindow a m with
    | (.ok (.inl a'), _) => exact ha.trans (round_extend hb)
    | (.ok (.inr a'), _) => rintro _ ⟨⟩; exact (round_exit hb).left ▸ ha
    | (.error e, _)      => exact nofun
  have hl := Eff.loop_invariant (n := fuel) hstep (fun _ _ _ => nofun) (s := m) (.refl active)
  rw [h] at hl
  exact hl active' rfl

-- As long as each round gets on, there are at most as many of them as tokens to come.
theorem rounds_isOk {P : DraftRequest μ → List NextTokenPrediction → Prop} (hδ : DraftModel.RepliesBatch δ P)
    (hτ : TargetModel.StepsBatch τ) (hfuel : remaining active < fuel)
    (h : ∀ a m', Eff.Heads (round draftWindow) active m a m' → a.any (·.unfinished) →
      ∀ drafts steps, Answered draftWindow a m' drafts steps → ∃ predictions ∈ drafts, predictions ≠ []) :
    ∃ active' m', Eff.loop (round draftWindow) fuel active m = (.ok active', m') := by
  have hstep (a : List (ActiveRequest μ)) (m' : Models δ τ) (hh : Eff.Heads (round draftWindow) active m a m') :
      Eff.Returns (round draftWindow a) m' fun r m'' => r.elim
        (fun a' => Eff.Heads (round draftWindow) active m a' m'' ∧ remaining a' < remaining a) fun _ => True := by
    by_cases hu : a.any (·.unfinished)
    case neg =>
      refine ⟨.inr a, m', ?_, trivial⟩
      rw [round, if_neg hu]
      rfl
    case pos =>
      have ⟨drafts, steps, a', m'', ha, hr, hiff⟩ := round_progresses_iff draftWindow hδ hτ hu m'
      refine ⟨.inl a', m'', hr, hh.step hr, (round_extend hr).remaining.right ?_⟩
      exact hiff.mpr (h a m' hh hu drafts steps ha)
  have ⟨active', m', hl, _⟩ := Eff.Returns.loop hstep .refl hfuel
  exact ⟨active', m', hl⟩

-- With drafts that are all empty the loop goes on for ever.
theorem rounds_unfinished (hδ : DraftModel.RepliesBatch δ fun _ predictions => predictions = [])
    (hτ : TargetModel.StepsBatch τ) (hu : active.any (·.unfinished)) (fuel : Nat) (m : Models δ τ) :
    (Eff.loop (round draftWindow) fuel active m).1 = .error .unfinished := by
  refine Eff.loop_invariant (I := fun a _ => a.any (·.unfinished)) (Q := fun r _ => r = .error .unfinished)
    (fun a m hu => ?_) (fun _ _ _ => rfl) hu
  have ⟨drafts, steps, a', m', ha, hreplies, hr⟩ := round_isOk draftWindow hδ hτ hu m
  have ⟨_, _, ha', hl, hgains⟩ := round_gains hr
  obtain ⟨rfl, rfl⟩ := ha.unique ha'
  rw [hr]
  have ⟨req, hmem, hun⟩ := any_eq_true.mp hu
  have ⟨k, hreq⟩ := getElem?_of_mem hmem
  have ⟨req', hreq', g⟩ := hgains hreq
  have ⟨i, hi⟩ := getElem?_of_mem (mem_activeIndices_iff.mpr ⟨req, hreq, hun⟩)
  have ⟨ps, vs, hps, _, hcount⟩ := g.gains i hi
  have ⟨request, _, hnil⟩ : ∃ request, (draftRequests draftWindow a)[i]? = some request ∧ ps = [] := by
    have ⟨r, hr, hp⟩ := forall₂_getElem? hreplies.flip hps
    exact ⟨r, hr, hp⟩
  subst hnil
  refine any_eq_true.mpr ⟨req', mem_of_getElem? hreq', ?_⟩
  have hun : req.generated.length < req.maxNewTokens := of_decide_eq_true hun
  rw [SpeculativeSession.gain, length_nil, Nat.min_zero, Nat.add_zero] at hcount
  exact decide_eq_true (by rw [hcount, g.max]; exact hun)

end Progress

section Bound

-- No request has more tokens than it asks for.
def Bounded (active : List (ActiveRequest μ)) : Prop :=
  ∀ req ∈ active, req.generated.length ≤ req.maxNewTokens

-- The draft of each unfinished request suits what is left of it.
def AllSuit (active : List (ActiveRequest μ)) (drafts : List (List NextTokenPrediction))
    (steps : List (List VerifyStep)) : Prop :=
  ∀ (i : Nat) req predictions verified, (active.filter (·.unfinished))[i]? = some req → drafts[i]? = some predictions →
    steps[i]? = some verified → SpeculativeSession.Suits (req.maxNewTokens - req.generated.length) predictions verified

theorem round_bounded_iff (hb : Bounded active) (h : round draftWindow active m = (.ok (.inl active'), m')) :
    Bounded active' ↔ ∀ drafts steps, Answered draftWindow active m drafts steps → AllSuit active drafts steps := by
  have ⟨drafts, steps, ha, hl, hgains⟩ := round_gains h
  constructor
  case mp =>
    intro hb' _ _ ha' i req ps vs hi hps hvs
    obtain ⟨rfl, rfl⟩ := ha.unique ha'
    have hlt : i < (activeIndices active).length := activeIndices_length ▸ (List.getElem?_eq_some_iff.mp hi).1
    have hk := getElem?_eq_getElem hlt
    have ⟨req₁, hreq₁, _, hi₁⟩ := mem_activeIndices_zipIdx (p := (_, i)) (mem_zipIdx_iff_getElem?.mpr hk)
    cases hi.symm.trans hi₁
    have ⟨req', hreq', g⟩ := hgains hreq₁
    have ⟨_, _, hps', hvs', hcount⟩ := g.gains i hk
    cases hps.symm.trans hps'
    cases hvs.symm.trans hvs'
    have hle := hb' req' (mem_of_getElem? hreq')
    rw [g.max, hcount] at hle
    exact SpeculativeSession.gain_le_iff.mp (by omega)
  case mpr =>
    intro hsuit req' hmem'
    have ⟨k, hreq'⟩ := getElem?_of_mem hmem'
    have hlt : k < active.length := hl ▸ (List.getElem?_eq_some_iff.mp hreq').1
    have ⟨req₁, hreq₁, g⟩ := hgains (getElem?_eq_getElem hlt)
    cases hreq'.symm.trans hreq₁
    have hle := hb _ (getElem_mem hlt)
    by_cases hmem : k ∈ activeIndices active
    case neg => rw [g.rests hmem, g.max]; exact hle
    case pos =>
      have ⟨i, hi⟩ := getElem?_of_mem hmem
      have ⟨ps, vs, hps, hvs, hcount⟩ := g.gains i hi
      have ⟨req₂, hreq₂, _, hi₂⟩ := mem_activeIndices_zipIdx (p := (k, i)) (mem_zipIdx_iff_getElem?.mpr hi)
      cases (getElem?_eq_getElem hlt).symm.trans hreq₂
      have hgain := SpeculativeSession.gain_le_iff.mpr (hsuit drafts steps ha i _ ps vs hi₂ hps hvs)
      rw [hcount, g.max]
      omega

omit [CfgMatcher μ] [DraftModel μ δ] [TargetModel μ τ] in
theorem Bounded.of_extend (hb : Bounded active') (h : Extend active active') : Bounded active := by
  intro req hmem
  have ⟨k, hreq⟩ := getElem?_of_mem hmem
  have ⟨req', hreq', hmax, hle⟩ := forall₂_getElem? h hreq
  exact hle.trans (hmax ▸ hb req' (mem_of_getElem? hreq'))

-- The requests of a batch stay within bounds just when the drafts of each round suit them.
theorem rounds_bounded_iff (hb : Bounded active) (h : Eff.loop (round draftWindow) fuel active m = (.ok active', m')) :
    Bounded active' ↔ ∀ a m₁, Eff.Heads (round draftWindow) active m a m₁ → a.any (·.unfinished) →
      ∀ drafts steps, Answered draftWindow a m₁ drafts steps → AllSuit a drafts steps := by
  constructor
  case mp =>
    intro hb' a m₁ hh hu
    have ⟨n, hn⟩ := hh.loop_eq_ok h
    cases n
    case zero => cases hn
    case succ n =>
      match hr : round draftWindow a m₁ with
      | (.error _, _) => cases (Eff.loop_succ_error hr).symm.trans hn
      | (.ok (.inr _), _) => exact absurd hu (round_exit hr).right
      | (.ok (.inl a'), m₂) =>
        have hrest := rounds_extend ((Eff.loop_succ_next hr).symm.trans hn)
        exact (round_bounded_iff (hb'.of_extend (rounds_extend hn)) hr).mp (hb'.of_extend hrest)
  case mpr =>
    intro hsuit
    have hstep (a : List (ActiveRequest μ)) (m₁ : Models δ τ)
        (ha : Eff.Heads (round draftWindow) active m a m₁ ∧ Bounded a) :
        Eff.Step (fun a m₁ => Eff.Heads (round draftWindow) active m a m₁ ∧ Bounded a)
          (fun r _ => ∀ a, r = .ok a → Bounded a) (round draftWindow a m₁) := by
      match hr : round draftWindow a m₁ with
      | (.error e, _)      => exact nofun
      | (.ok (.inr a'), _) => rintro _ ⟨⟩; exact (round_exit hr).left ▸ ha.right
      | (.ok (.inl a'), _) =>
        by_cases hu : a.any (·.unfinished)
        case pos => exact ⟨ha.left.step hr, (round_bounded_iff ha.right hr).mpr (hsuit a m₁ ha.left hu)⟩
        case neg => simp [round, hu, Eff.pure_apply] at hr
    have hl := Eff.loop_invariant (n := fuel) hstep (fun _ _ _ => nofun) (s := m) ⟨.refl, hb⟩
    rw [h] at hl
    exact hl active' rfl

end Bound
end VeloEngine
