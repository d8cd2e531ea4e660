import VeloCore.Execution.Engine.Theorems.Greedy
import VeloCore.Execution.Engine.Theorems.Stable
import VeloCore.Objects.Theorems.Constraints

open List CfgMatcher GreedyTargetModel

namespace SpeculativeSession

variable {s s' : SpeculativeSession} {predictions : List NextTokenPrediction} {verified : List VerifyStep}

-- Of what the target has chosen, the tokens up to the first one that the draft has not guessed are kept.
theorem commit_emitted (h : s.commit predictions verified = (.ok accepted, s')) :
    verified.length = predictions.length ∧ emitted accepted s' = (verified.map (·.expected)).take
      (commonPrefixLen (predictions.map (·.token)) (verified.map (·.expected)) + 1) := by
  have hlen : verified.length = predictions.length := by
    by_contra hne
    simp [commit, hne] at h
  cases (commit_eq hlen).symm.trans h
  have hlen' : verified.length = (predictions.map (·.token)).length := by simpa using hlen
  refine ⟨hlen, ?_⟩
  rw [take_add_one, ← take_commonPrefixLen]
  simp [resolve, emitted, compare_eq hlen', Function.comp_def]

end SpeculativeSession

namespace ActiveRequest

variable {μ : Type} {req req' : ActiveRequest μ}

theorem commit_generated {predictions : List NextTokenPrediction} {verified : List VerifyStep}
    (h : req.commit predictions verified = .ok req') :
    verified.length = predictions.length ∧ req'.matcher = req.matcher ∧
      req'.generated = req.generated ++ (verified.map (·.expected)).take
        (commonPrefixLen (predictions.map (·.token)) (verified.map (·.expected)) + 1) := by
  rcases hc : req.session.commit predictions verified with ⟨e | accepted, s⟩
  case error => simp [commit, hc] at h
  case ok =>
    cases (commit_eq hc).symm.trans h
    obtain ⟨hlen, he⟩ := SpeculativeSession.commit_emitted hc
    exact ⟨hlen, rfl, congrArg (req.generated ++ ·) he⟩

end ActiveRequest

namespace VeloEngine

section Positions

variable {μ σ : Type} {active active' : List (ActiveRequest μ)} {req : ActiveRequest μ} {ms : List (Option μ)} {k i : Nat}
  {draftResults : List (List NextTokenPrediction)} {verifyResults : List (List VerifyStep)}

-- What the commit phase does to the request at a position.
theorem commitAll_getElem? {indices : List (Nat × Nat)} {s s' : σ} (hn : (indices.map (·.1)).Nodup)
    (h : commitAll draftResults verifyResults indices active s = (.ok active', s')) (hreq : active[k]? = some req) :
    ∃ req', active'[k]? = some req' ∧ (k ∉ indices.map (·.1) → req' = req) ∧ ∀ i, (k, i) ∈ indices →
      ∃ predictions verified, draftResults[i]? = some predictions ∧ verifyResults[i]? = some verified ∧
        req.commit predictions verified = .ok req' := by
  induction indices generalizing active s req
  case nil => cases h; exact ⟨req, hreq, fun _ => rfl, by simp⟩
  case cons p indices hi =>
    obtain ⟨idx, i⟩ := p
    rw [map_cons, nodup_cons] at hn
    have ⟨active₁, s₁, hc, hrest⟩ := Eff.bind_eq_ok_iff.mp h
    have ⟨req₀, predictions, verified, req₁, hreq₀, hd, hv, hcommit, he⟩ := commitAt_eq_ok hc
    by_cases hk : k = idx
    case pos =>
      subst hk
      cases hreq₀.symm.trans hreq
      have hreq₁ : active₁[k]? = some req₁ := he ▸ getElem?_set_self (List.getElem?_eq_some_iff.mp hreq).1
      have ⟨req', hreq', hsame, _⟩ := hi hn.right hrest hreq₁
      have hsame := hsame hn.left
      refine ⟨req', hreq', fun hk => absurd mem_cons_self hk, fun i' hi' => ?_⟩
      rcases mem_cons.mp hi' with heq | hmem
      case inl => cases heq; exact ⟨predictions, verified, hd, hv, hsame ▸ hcommit⟩
      case inr => exact absurd (mem_map_of_mem (f := fun p => p.1) hmem) hn.left
    case neg =>
      have hreq₁ : active₁[k]? = some req := by rw [he, getElem?_set_ne (Ne.symm hk), hreq]
      have ⟨req', hreq', hsame, hmem⟩ := hi hn.right hrest hreq₁
      refine ⟨req', hreq', fun hn => hsame fun hm => hn (mem_cons_of_mem _ hm), fun i' hi' => hmem i' ?_⟩
      exact (mem_cons.mp hi').resolve_left fun heq => hk (congrArg (·.1) heq)

theorem activeIndices_congr (h : active'.map (·.unfinished) = active.map (·.unfinished)) :
    activeIndices active' = activeIndices active := by
  have hindices (l : List (ActiveRequest μ)) :
      activeIndices l = ((l.map (·.unfinished)).zipIdx.filter (·.1)).map (·.2) := by
    rw [activeIndices, zipIdx_map, filter_map, map_map]
    rfl
  rw [hindices, hindices, h]

theorem returnMatchers_unfinished (ms : List (Option μ)) :
    (returnMatchers active ms).map (·.unfinished) = active.map (·.unfinished) := by
  have hgenerated : (returnMatchers active ms).map (fun req => (req.generated, req.maxNewTokens)) =
      active.map fun req => (req.generated, req.maxNewTokens) := by
    induction active generalizing ms
    case nil => rfl
    case cons req reqs hi =>
      unfold returnMatchers
      split
      case isFalse => rw [map_cons, map_cons, hi]
      case isTrue =>
        split
        case h_1 => rfl
        case h_2 => rw [map_cons, map_cons, hi]
  have h := congrArg (map fun p => decide (p.1.length < p.2)) hgenerated
  rwa [map_map, map_map] at h

theorem returnMatchers_filter (h : ms.length = (active.filter (·.unfinished)).length) :
    (returnMatchers active ms).filter (·.unfinished) = zipWith (fun req matcher =>
      { req with matcher := req.matcher.bind fun m => matcher.or (some m) }) (active.filter (·.unfinished)) ms := by
  induction active generalizing ms
  case nil => rfl
  case cons req reqs hi =>
    by_cases hu : req.unfinished
    case neg =>
      simp only [returnMatchers, hu, Bool.false_eq_true, ↓reduceIte, not_false_eq_true, filter_cons_of_neg] at h ⊢
      exact hi h
    case pos =>
      rw [filter_cons_of_pos hu] at h ⊢
      cases ms
      case nil => simp at h
      case cons matcher ms =>
        simp only [returnMatchers, hu, ↓reduceIte, zipWith_cons_cons]
        have hu' : ({ req with matcher := req.matcher.bind fun m => matcher.or (some m) } : ActiveRequest μ).unfinished := hu
        rw [filter_cons_of_pos hu', hi (by simpa using h)]

-- The matcher of the `i`-th unfinished request comes back to its own position, and the finished ones keep theirs.
theorem returnMatchers_getElem? (h : ms.length = (active.filter (·.unfinished)).length)
    (hk : (k, i) ∈ (activeIndices active).zipIdx) (hreq : active[k]? = some req) (hm : ms[i]? = some matcher) :
    (returnMatchers active ms)[k]? = some { req with matcher := req.matcher.bind fun m => matcher.or (some m) } := by
  have ⟨req₀, hreq₀, _, hfilter⟩ := mem_activeIndices_zipIdx hk
  cases hreq₀.symm.trans hreq
  have ⟨req₁, hreq₁, _, hfilter₁⟩ :=
    mem_activeIndices_zipIdx (activeIndices_congr (returnMatchers_unfinished ms) ▸ hk)
  rw [returnMatchers_filter h, getElem?_zipWith, hfilter, hm] at hfilter₁
  exact hreq₁.trans hfilter₁.symm

theorem returnMatchers_getElem?_finished (ms : List (Option μ)) (hreq : active[k]? = some req) (hu : ¬req.unfinished) :
    (returnMatchers active ms)[k]? = some req := by
  induction active generalizing ms k
  case nil => simp at hreq
  case cons req₀ reqs hi =>
    unfold returnMatchers
    cases k
    case zero =>
      cases hreq
      simp [hu]
    case succ k =>
      rw [getElem?_cons_succ] at hreq
      split
      case isFalse => exact hi _ hreq
      case isTrue =>
        split
        case h_1 => exact hreq
        case h_2 => exact hi _ hreq

end Positions
end VeloEngine

theorem collectEach_pure {ρ β ε α : Type} (one : β → ρ → Except ε α) {rs : List ρ} {b b' : β} {as : List α}
    (h : collectEach (fun r b => (one b r, b)) rs b = (.ok as, b')) : Forall₂ (fun r a => one b r = .ok a) rs as := by
  induction rs generalizing as
  case nil => cases h; exact .nil
  case cons r rs hi =>
    unfold collectEach at h
    cases ho : one b r <;> simp only [ho] at h
    case error => cases h
    case ok a =>
      match hrest : collectEach (fun r b => (one b r, b)) rs b with
      | (.error e, b₁) => rw [hrest] at h; cases h
      | (.ok as, b₁) =>
        rw [hrest] at h
        cases h
        exact .cons ho (hi hrest)

namespace GreedyTargetModel

variable {φ μ : Type} [Logit φ] [CfgMatcher μ] {t t' : GreedyTargetModel μ (StatelessBackend φ)}
  {requests : List (VerifyRequest μ)} {results : List (List VerifyStep)} {ms : List (Option μ)}

-- Each request is verified under its own logits and by its own matcher.
theorem verifyBatch_eq_ok (h : TargetModel.verifyBatch requests t = (.ok results, ms, t')) :
    ms.length = requests.length ∧ ∀ {i : Nat} {r}, requests[i]? = some r → ∃ rows,
      t.backend.verifyLogits r.context r.drafted = .ok rows ∧ results[i]? = some (verifySteps rows r.matcher).1 ∧
      ms[i]? = some (verifySteps rows r.matcher).2 := by
  simp only [TargetModel.verifyBatch] at h
  match hb : CausalLmBackend.verifyLogitsBatch (requests.map fun r => (r.context, r.drafted)) t.backend with
  | (.error e, b)  => rw [hb] at h; cases h
  | (.ok batch, b) =>
    rw [hb] at h
    cases h
    have hall := collectEach_pure (fun (b : StatelessBackend φ) r => b.verifyLogits (Prod.fst r) (Prod.snd r)) hb
    rw [forall₂_map_left_iff] at hall
    have hlen := hall.length_eq
    refine ⟨by simp [hlen], fun {i r} hr => ?_⟩
    have ⟨rows, hrows, hlogits⟩ := forall₂_getElem? hall hr
    have hz : (zipWith verifySteps batch (requests.map (·.matcher)))[i]? = some (verifySteps rows r.matcher) := by
      rw [getElem?_zipWith, hrows, getElem?_map, hr]
      rfl
    refine ⟨rows, hlogits, by rw [getElem?_map, hz]; rfl, ?_⟩
    rw [hlen.symm, ← length_map (·.matcher), drop_length, append_nil, getElem?_map, hz]
    rfl

end GreedyTargetModel

namespace VeloEngine

section Phases

variable {μ δ τ : Type} {models models' : Models δ τ}

theorem draft_eq_ok [DraftModel μ δ] {requests : List (DraftRequest μ)} {results : List (List NextTokenPrediction)}
    (h : Models.onDraft (fun d => match DraftModel.draftBatch requests d with | (res, _, d) => (res, d)) models =
      (.ok results, models')) :
    (∃ ms d, DraftModel.draftBatch requests models.draft = (.ok results, ms, d)) ∧ models'.target = models.target := by
  have ⟨d, hd, hm⟩ := Eff.zoom_eq_ok_iff.mp h
  have hd := Eff.call_eq_ok_iff.mp hd
  match hb : DraftModel.draftBatch requests models.draft with
  | (res, ms, d') =>
    rw [hb] at hd
    cases hd
    exact ⟨⟨ms, d, rfl⟩, by rw [hm]⟩

theorem verify_eq_ok [TargetModel μ τ] {requests : List (VerifyRequest μ)} {results : List (List VerifyStep)}
    {ms : List (Option μ)}
    (h : Models.onTarget (fun t => match TargetModel.verifyBatch requests t with | (res, ms, t) => (res.map (·, ms), t))
      models = (.ok (results, ms), models')) :
    ∃ t, TargetModel.verifyBatch requests models.target = (.ok results, ms, t) := by
  have ⟨t, ht, _⟩ := Eff.zoom_eq_ok_iff.mp h
  have ht := Eff.call_eq_ok_iff.mp ht
  match hb : TargetModel.verifyBatch requests models.target with
  | (.error e, ms', t') => rw [hb] at ht; cases ht
  | (.ok res, ms', t')  =>
    rw [hb] at ht
    cases ht
    exact ⟨t, rfl⟩

theorem draftedTokens_eq_ok {σ ε : Type} {results : List (List NextTokenPrediction)} {s s' : σ}
    (h : (draftedTokens results n : Eff σ ε _) s = (.ok drafted, s')) :
    n ≤ results.length ∧ drafted = (results.take n).map (fun predictions => predictions.map (·.token)) ∧ s' = s := by
  unfold draftedTokens at h
  split at h <;> cases h
  exact ⟨‹_›, rfl, rfl⟩

end Phases

section Round

variable {φ μ δ : Type} [Logit φ] [CfgMatcher μ] [DraftModel μ δ] {active active' : List (ActiveRequest μ)}
  {models models' : Models δ (GreedyTargetModel μ (StatelessBackend φ))} {req : ActiveRequest μ} {m m₀ : μ} {k : Nat}

-- What a round drafts for an unfinished request, and the logits by which the target verifies it.
structure Drafted (draftWindow : Nat) (active : List (ActiveRequest μ))
    (models : Models δ (GreedyTargetModel μ (StatelessBackend φ))) (req : ActiveRequest μ) (drafted : List TokenId)
    (rows : List (TokenLogits φ)) : Prop where
  draft  : ∃ results ms d, DraftModel.draftBatch (draftRequests draftWindow active) models.draft = (.ok results, ms, d) ∧
    ∃ (i : Nat) (predictions : List NextTokenPrediction), (active.filter (·.unfinished))[i]? = some req ∧
      results[i]? = some predictions ∧ drafted = predictions.map (·.token)
  logits : models.target.backend.verifyLogits req.session.context drafted = .ok rows

-- What a round does to a request that `m` constrains. The matcher consumes all that the target chooses.
structure Resolved (m : μ) (drafted chosen : List TokenId) (req req' : ActiveRequest μ) : Prop where
  length    : chosen.length = drafted.length
  generated : req'.generated = req.generated ++ chosen.take (commonPrefixLen drafted chosen + 1)
  matcher   : req'.matcher = some (consume m chosen)

omit [CfgMatcher μ] in
theorem getElem?_of_view {l l' : List (ActiveRequest μ)} (h : l'.map (·.view) = l.map (·.view))
    (hreq : l[k]? = some req) : ∃ req', l'[k]? = some req' ∧ req'.view = req.view := by
  have h := congrArg (·[k]?) h
  simpa [hreq] using h

omit [CfgMatcher μ] in
theorem unfinished_of_view {req' : ActiveRequest μ} (h : req'.view = req.view) : req'.unfinished = req.unfinished := by
  have hg : req'.generated = req.generated := congrArg (·.2.2.1) h
  have hn : req'.maxNewTokens = req.maxNewTokens := congrArg (·.1.2.2.1) h
  rw [ActiveRequest.unfinished, ActiveRequest.unfinished, hg, hn]

theorem round_constrained (hstate : ∀ m : μ, (nextMask m).2 = m)
    (h : round draftWindow active models = (.ok (.inl active'), models')) (hreq : active[k]? = some req)
    (hm : req.matcher = some m) : ∃ req', active'[k]? = some req' ∧
      ((req'.generated = req.generated ∧ req'.matcher = some m) ∨ ∃ drafted rows,
        Drafted draftWindow active models req drafted rows ∧ Resolved m drafted (chosen rows m) req req') := by
  unfold round at h
  split at h
  case isFalse => cases h
  case isTrue =>
    obtain ⟨draftResults, m₁, hd, h⟩ := Eff.bind_eq_ok_iff.mp h
    obtain ⟨drafted, m₂, hdt, h⟩ := Eff.bind_eq_ok_iff.mp h
    obtain ⟨⟨verifyResults, matchers⟩, m₃, hv, h⟩ := Eff.bind_eq_ok_iff.mp h
    obtain ⟨active'', m₄, hc, h⟩ := Eff.bind_eq_ok_iff.mp h
    cases h
    obtain ⟨hdraft, htarget⟩ := draft_eq_ok hd
    obtain ⟨hle, hdrafted, hm₂⟩ := draftedTokens_eq_ok hdt
    obtain ⟨t, hverify⟩ := verify_eq_ok hv
    set indices := activeIndices active with hindices
    have hcount (req : ActiveRequest μ) : req.recordDraftCall.view = req.view := rfl
    have hcount' (req : ActiveRequest μ) : req.recordTargetCall.view = req.view := rfl
    have hview : (modifyAll ActiveRequest.recordDraftCall indices active).map (·.view) = active.map (·.view) :=
      modifyAll_map hcount indices
    set active₁ := modifyAll ActiveRequest.recordDraftCall indices active
    have hview₂ : (modifyAll ActiveRequest.recordTargetCall indices (returnMatchers active₁ matchers)).map (·.view) =
        (returnMatchers active₁ matchers).map (·.view) := modifyAll_map hcount' indices
    obtain ⟨req₁, hreq₁, hsame₁⟩ := getElem?_of_view hview hreq
    have hn : (indices.zipIdx.map (·.1)).Nodup := by rw [zipIdx_map_fst]; exact activeIndices_nodup
    by_cases hu : req.unfinished
    case neg =>
      have hback := returnMatchers_getElem?_finished matchers hreq₁ (unfinished_of_view hsame₁ ▸ hu)
      obtain ⟨req₂, hreq₂, hsame₂⟩ := getElem?_of_view hview₂ hback
      obtain ⟨req', hreq', hkept, _⟩ := commitAll_getElem? hn hc hreq₂
      have hnot : k ∉ indices.zipIdx.map (·.1) := by
        rw [zipIdx_map_fst, mem_activeIndices_iff]
        rintro ⟨req₀, hreq₀, hu₀⟩
        cases hreq₀.symm.trans hreq
        exact hu hu₀
      have hsame : req'.view = req.view := (hkept hnot ▸ hsame₂).trans hsame₁
      exact ⟨req', hreq', .inl ⟨congrArg (·.2.2.1) hsame, (congrArg (·.2.2.2) hsame).trans hm⟩⟩
    case pos =>
      obtain ⟨i, hi⟩ := List.mem_iff_getElem?.mp (mem_activeIndices_iff.mpr ⟨req, hreq, hu⟩)
      have hki : (k, i) ∈ indices.zipIdx := mem_zipIdx_iff_getElem?.mpr hi
      have hindices₁ : activeIndices active₁ = indices := activeIndices_congr <| by
        have h := congrArg (map fun v => decide (v.2.2.1.length < v.1.2.2.1)) hview
        rwa [map_map, map_map] at h
      obtain ⟨req₀, hreq₀, _, hfilter⟩ := mem_activeIndices_zipIdx hki
      cases hreq₀.symm.trans hreq
      obtain ⟨req₀, hreq₀, _, hfilter₁⟩ := mem_activeIndices_zipIdx (hindices₁.symm ▸ hki)
      cases hreq₀.symm.trans hreq₁
      have hlt : i < indices.length := (List.getElem?_eq_some_iff.mp hi).1
      obtain ⟨predictions, hpredictions⟩ : ∃ predictions, draftResults[i]? = some predictions :=
        ⟨_, getElem?_eq_getElem (hlt.trans_le hle)⟩
      have htokens : drafted[i]? = some (predictions.map (·.token)) := by
        rw [hdrafted, getElem?_map, getElem?_take_of_lt hlt, hpredictions]
        rfl
      have hzip : ((active₁.filter (·.unfinished)).zip drafted)[i]? = some (req₁, predictions.map (·.token)) :=
        getElem?_zip_eq_some.mpr ⟨hfilter₁, htokens⟩
      have hrequest : (verifyRequests active₁ drafted)[i]? =
          some ⟨req₁.session.context, predictions.map (·.token), req₁.matcher⟩ := by
        rw [verifyRequests, getElem?_map, hzip]
        rfl
      obtain ⟨hlen, hverified⟩ := verifyBatch_eq_ok hverify
      obtain ⟨rows, hlogits, hresult, hmatcher⟩ := hverified hrequest
      have hlen : matchers.length = (active₁.filter (·.unfinished)).length := by
        rw [hlen, verifyRequests, length_map, length_zip, ← activeIndices_length, hindices₁, hdrafted, length_map,
          length_take]
        omega
      have hm₁ : req₁.matcher = some m := (congrArg (·.2.2.2) hsame₁).trans hm
      rw [hm₁, verifySteps_matcher hstate] at hmatcher
      rw [hm₁] at hresult
      have hback := returnMatchers_getElem? hlen (hindices₁.symm ▸ hki) hreq₁ hmatcher
      obtain ⟨req₂, hreq₂, hsame₂⟩ := getElem?_of_view hview₂ hback
      obtain ⟨req', hreq', _, hcommitted⟩ := commitAll_getElem? hn hc hreq₂
      obtain ⟨predictions', verified, hp, hv, hcommit⟩ := hcommitted i hki
      cases hp.symm.trans hpredictions
      cases hv.symm.trans hresult
      obtain ⟨hlength, hmatcher', hgenerated⟩ := ActiveRequest.commit_generated hcommit
      refine ⟨req', hreq', .inr ⟨predictions.map (·.token), rows, ⟨?_, ?_⟩, ⟨?_, ?_, ?_⟩⟩⟩
      case refine_1 =>
        obtain ⟨ms, d, hdraft⟩ := hdraft
        exact ⟨draftResults, ms, d, hdraft, i, predictions, hfilter, hpredictions, rfl⟩
      case refine_2 =>
        have hcontext : req₁.session.context = req.session.context := congrArg (·.2.1) hsame₁
        rwa [← htarget, ← hm₂, ← hcontext]
      case refine_3 => simpa [chosen] using hlength
      case refine_4 =>
        have hg : req₂.generated = req.generated := (congrArg (·.2.2.1) hsame₂).trans (congrArg (·.2.2.1) hsame₁)
        rw [hgenerated, hg]
        rfl
      case refine_5 =>
        have hm₂ : req₂.matcher = some (consume m (chosen rows m)) :=
          (congrArg (·.2.2.2) hsame₂).trans (by simp [ActiveRequest.view, hm₁])
        exact hmatcher'.trans hm₂

end Round
end VeloEngine
