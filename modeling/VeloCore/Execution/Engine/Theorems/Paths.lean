import Mathlib
import VeloCore.Execution.Engine.Theorems.Drafts
import VeloCore.Objects.Speculative.Theorems.Decoder
import VeloCore.Primitives.Pairs

open List MemoryRuntime

-- The draft model answers a request without a constraint by `g`, and so it does when it is the only one of a batch.
structure DraftModel.AnswersBy (δ : Type) [DraftModel μ δ]
    (g : List TokenId → Nat → Except SpeculativeError (List NextTokenPrediction)) : Prop where
  draft      : ∀ (d : δ) context n, (DraftModel.draft context n none d).1 = g context n
  draftBatch : ∀ (d : δ) context n, (DraftModel.draftBatch [⟨context, n, none⟩] d).1 = (g context n).map ([·])

-- The same for the target model, which may depend on what `view` shows of its state. Binding does not change that.
structure TargetModel.StepsBy (τ : Type) [TargetModel μ τ] (view : τ → ν)
    (step : List TokenId → List TokenId → ν → Except SpeculativeError (List VerifyStep) × ν) : Prop where
  verify          : ∀ (t : τ) context drafted,
    (TargetModel.verify context drafted none t).1 = (step context drafted (view t)).1 ∧
    view (TargetModel.verify context drafted none t).2.2 = (step context drafted (view t)).2
  verifyBatch     : ∀ (t : τ) context drafted,
    (TargetModel.verifyBatch [⟨context, drafted, none⟩] t).1 = (step context drafted (view t)).1.map ([·]) ∧
    view (TargetModel.verifyBatch [⟨context, drafted, none⟩] t).2.2 = (step context drafted (view t)).2
  bindSlot        : ∀ (t : τ) slot, ∃ t', TargetModel.bindSlot slot t = (.ok (), t') ∧ view t' = view t
  bindPrefixCache : ∀ (t : τ) cachedPrefix, ∃ t',
    TargetModel.bindPrefixCache cachedPrefix t = (.ok (), t') ∧ view t' = view t

theorem Drafter.answersBy {g : List TokenId → TokenId} {count : Nat → Nat} :
    DraftModel.AnswersBy (Drafter g count) fun context n => .ok ((greedy g context (count n)).map .mk) :=
  ⟨fun _ _ _ => rfl, fun _ _ _ => rfl⟩

theorem Drafter.answers {g : List TokenId → TokenId} {count : Nat → Nat} (h : ∀ n, 0 < n → 0 < count n ∧ count n ≤ n) :
    DraftModel.Answers (Drafter g count) :=
  fun d context n hn => ⟨_, none, d, rfl, by simpa using (h n hn).left, by simpa using (h n hn).right⟩

theorem Oracle.stepsBy {f : List TokenId → TokenId} : TargetModel.StepsBy (Oracle f) Oracle.calls fun context drafted n =>
    (.ok ((expectedAfter f context drafted).map .mk), n + 1) where
  verify _ _ _          := ⟨rfl, rfl⟩
  verifyBatch _ _ _     := ⟨rfl, rfl⟩
  bindSlot t _          := ⟨t, rfl, rfl⟩
  bindPrefixCache t _   := ⟨t, rfl, rfl⟩

namespace SpeculativeSession

variable {ν : Type} (g : List TokenId → Nat → Except SpeculativeError (List NextTokenPrediction))
  (step : List TokenId → List TokenId → ν → Except SpeculativeError (List VerifyStep) × ν)

-- What a round with a draft for `n` tokens comes to: the accepted tokens, the session and the view of the target model.
def played (n : Nat) (s : SpeculativeSession) (x : ν) : Except SpeculativeError (List TokenId × SpeculativeSession × ν) :=
  match g s.context n with
  | .error e        => .error e
  | .ok predictions =>
    match step s.context (predictions.map (·.token)) x with
    | (.error e, _)     => .error e
    | (.ok verified, x) =>
      match s.recordDraftCall.recordTargetCall.commit predictions verified with
      | (.error e, _)     => .error e
      | (.ok accepted, s) => .ok (accepted, s, x)

variable {g step} {s s' : SpeculativeSession} {x x' : ν} {n n' : Nat}

theorem played_congr (h : g s.context n = g s.context n') : played g step n s x = played g step n' s x := by
  rw [played, played, h]

theorem played_eq_ok (h : played g step n s x = .ok (accepted, s', x')) : ∃ predictions,
    g s.context n = .ok predictions ∧ s'.prompt = s.prompt ∧ (emitted accepted s').length ≤ predictions.length ∧
      (predictions ≠ [] → 0 < (emitted accepted s').length) := by
  unfold played at h
  split at h
  case h_1 => contradiction
  case h_2 predictions hg =>
    split at h
    case h_1 => contradiction
    case h_2 verified _ _ =>
      split at h
      case h_1 => contradiction
      case h_2 hc =>
        cases h
        have ⟨_, _, hc', hgain⟩ := commit_gain (s := s.recordDraftCall.recordTargetCall) (length_of_commit_eq_ok hc)
        cases hc.symm.trans hc'
        refine ⟨predictions, hg, (commit_prompt hc).trans rfl, ?_, fun hne => ?_⟩
        case refine_1 => rw [hgain, gain]; exact Nat.min_le_right ..
        case refine_2 => rw [hgain]; exact gain_pos_iff.mpr hne

end SpeculativeSession

namespace SpeculativeDecoder

variable {μ δ τ ν : Type} [DraftModel μ δ] [TargetModel μ τ]
  {g : List TokenId → Nat → Except SpeculativeError (List NextTokenPrediction)} {view : τ → ν}
  {step : List TokenId → List TokenId → ν → Except SpeculativeError (List VerifyStep) × ν}

-- One iteration plays a round, as long as the draft model keeps to the requested number of tokens.
theorem draft_played (hd : DraftModel.AnswersBy δ g) (ht : TargetModel.StepsBy τ view step) {s : SpeculativeSession}
    (m : Models δ τ) (hsuit : ∀ predictions, g s.context (min n s.draftWindow) = .ok predictions →
      predictions ≠ [] ∧ predictions.length ≤ min n s.draftWindow) :
    match s.played g step (min n s.draftWindow) (view m.target) with
    | .error e              => (s.draft n m).1 = .error e
    | .ok (accepted, s', x) => ∃ m', view m'.target = x ∧ s.draft n m = (.ok accepted, s', m') := by
  have hdraft := hd.draft m.draft s.context (min n s.draftWindow)
  rcases hr : DraftModel.draft s.context (min n s.draftWindow) none m.draft with ⟨e | predictions, _, d⟩
  case error =>
    rw [hr] at hdraft
    have hg : g s.context (min n s.draftWindow) = .error e := hdraft.symm
    simp only [SpeculativeSession.played, hg, SpeculativeSession.draft, hr]
  case ok =>
    rw [hr] at hdraft
    have hg : g s.context (min n s.draftWindow) = .ok predictions := hdraft.symm
    obtain ⟨hne, hle⟩ := hsuit predictions hg
    have hempty : predictions.isEmpty = false := by simpa using hne
    obtain ⟨hverify, hview⟩ := ht.verify m.target s.context (predictions.map (·.token))
    rcases hr' : TargetModel.verify s.context (predictions.map (·.token)) none m.target with ⟨e | verified, _, t⟩
    case error =>
      rw [hr'] at hverify
      obtain ⟨x, hstep⟩ : ∃ x, step s.context (predictions.map (·.token)) (view m.target) = (.error e, x) :=
        ⟨_, Prod.ext hverify.symm rfl⟩
      have hr'' : TargetModel.verify (s.recordDraftCall.recordDrafted predictions.length).context
          (predictions.map (·.token)) none m.target = (.error e, _, t) := hr'
      simp only [SpeculativeSession.played, hg, hstep, SpeculativeSession.draft, hr, gt_iff_lt, Nat.not_lt.mpr hle, ↓reduceIte,
        hempty, Bool.false_eq_true, length_map, hr'']
    case ok =>
      rw [hr'] at hverify hview
      have hstep : step s.context (predictions.map (·.token)) (view m.target) = (.ok verified, view t) :=
        Prod.ext hverify.symm hview.symm
      have hr'' : TargetModel.verify (s.recordDraftCall.recordDrafted predictions.length).context
          (predictions.map (·.token)) none m.target = (.ok verified, _, t) := hr'
      by_cases hlen : verified.length = predictions.length
      case pos =>
        rw [SpeculativeSession.played, hg]
        dsimp only
        rw [hstep]
        dsimp only
        rw [SpeculativeSession.commit_eq hlen]
        refine ⟨⟨d, t⟩, rfl, ?_⟩
        simp only [SpeculativeSession.draft, hr, gt_iff_lt, Nat.not_lt.mpr hle, ↓reduceIte, hempty, Bool.false_eq_true,
          length_map, hr'', hlen, ne_eq, not_true_eq_false]
        rfl
      case neg =>
        simp only [SpeculativeSession.played, hg, hstep, SpeculativeSession.commit, ne_eq, hlen, not_false_eq_true,
          SpeculativeSession.draft, hr, gt_iff_lt, Nat.not_lt.mpr hle, ↓reduceIte, hempty, Bool.false_eq_true, length_map, hr'']

theorem iteration_played (hd : DraftModel.AnswersBy δ g) (ht : TargetModel.StepsBy τ view step)
    {v : SpeculativeSession × List TokenId} (hn : v.2.length < n) (m : Models δ τ)
    (hsuit : ∀ predictions, g v.1.context (min (n - v.2.length) v.1.draftWindow) = .ok predictions →
      predictions ≠ [] ∧ predictions.length ≤ min (n - v.2.length) v.1.draftWindow) :
    match v.1.played g step (min (n - v.2.length) v.1.draftWindow) (view m.target) with
    | .error e              => (iteration n v m).1 = .error (.err e)
    | .ok (accepted, s, x)  => ∃ m', view m'.target = x ∧
      iteration n v m = (.ok (.inl ({ s with rejectedToken := none }, v.2 ++ SpeculativeSession.emitted accepted s)), m') := by
  have hdraft := draft_played hd ht m hsuit
  cases hp : v.1.played g step (min (n - v.2.length) v.1.draftWindow) (view m.target)
  case error e =>
    rw [hp] at hdraft
    rcases hr : v.1.draft (n - v.2.length) m with ⟨e' | _, _, m'⟩
    case ok    => rw [hr] at hdraft; cases hdraft
    case error =>
      rw [hr] at hdraft
      cases hdraft
      simp only [iteration, hn, ↓reduceIte, hr]
  case ok r =>
    obtain ⟨accepted, s, x⟩ := r
    rw [hp] at hdraft
    obtain ⟨m', hview, hr⟩ := hdraft
    obtain ⟨predictions, hg, _, _, hpos⟩ := SpeculativeSession.played_eq_ok hp
    have hpos := hpos (hsuit predictions hg).left
    refine ⟨m', hview, ?_⟩
    obtain ⟨_, _, _, _, _, rejectedToken⟩ := s
    simp only [iteration, hn, ↓reduceIte, hr, SpeculativeSession.hasPendingRejection,
      SpeculativeSession.takeRejectedToken, SpeculativeSession.emitted] at hpos ⊢
    cases rejectedToken
    case none =>
      have : accepted ≠ [] := by simpa [length_pos_iff] using hpos
      simp [this]
    case some token => simp

end SpeculativeDecoder

namespace VeloEngine

variable {μ δ τ ν : Type} [CfgMatcher μ] [DraftModel μ δ] [TargetModel μ τ]
  {g : List TokenId → Nat → Except SpeculativeError (List NextTokenPrediction)} {view : τ → ν}
  {step : List TokenId → List TokenId → ν → Except SpeculativeError (List VerifyStep) × ν} {req : ActiveRequest μ}

section Single

variable {σ : Type} {s : σ}

omit [CfgMatcher μ] [DraftModel μ δ] [TargetModel μ τ] in
theorem commitAll_single_ok (h : req.commit drafted verified = .ok req') :
    (commitAll [drafted] [verified] [0].zipIdx [req] : Eff σ SpeculativeError _) s = (.ok [req'], s) := by
  simp [commitAll, commitAt, Eff.bind_apply, Eff.index, h, Eff.pure_apply]

omit [CfgMatcher μ] [DraftModel μ δ] [TargetModel μ τ] in
theorem commitAll_single_error (h : req.commit drafted verified = .error e) :
    (commitAll [drafted] [verified] [0].zipIdx [req] : Eff σ SpeculativeError _) s = (.error (.err e), s) := by
  simp [commitAll, commitAt, Eff.bind_apply, Eff.index, h, Eff.throw_apply]

end Single

-- A round with a single request plays a round, whatever the draft model returns.
theorem round_played (draftWindow : Nat) (hd : DraftModel.AnswersBy δ g) (ht : TargetModel.StepsBy τ view step)
    (hu : req.unfinished) (hm : req.matcher = none) (m : Models δ τ) :
    match req.session.played g step (min (req.maxNewTokens - req.generated.length) draftWindow) (view m.target) with
    | .error e             => (round draftWindow [req] m).1 = .error (.err e)
    | .ok (accepted, s, x) => ∃ m', view m'.target = x ∧
      round draftWindow [req] m = (.ok (.inl [{ req with
        session   := { s with rejectedToken := none }
        generated := req.generated ++ SpeculativeSession.emitted accepted s }]), m') := by
  have hany : [req].any (·.unfinished) := by simpa using hu
  have hindices : activeIndices [req] = [0] := by simp [activeIndices, hu]
  have hrequests : draftRequests draftWindow [req] =
      [⟨req.session.context, min (req.maxNewTokens - req.generated.length) draftWindow, none⟩] := by
    rw [draftRequests_eq (by simpa using hm)]
    simp [hu]
  have hverifies (drafted : List TokenId) : verifyRequests [req.recordDraftCall] [drafted] =
      [⟨req.session.context, drafted, none⟩] := by
    have hu' : req.recordDraftCall.unfinished := hu
    have hm' : req.recordDraftCall.matcher = none := hm
    simp only [verifyRequests, filter_cons, hu', if_true, filter_nil, zip_cons_cons, zip_nil_right, map_cons, map_nil, hm']
    rfl
  have hmodify : modifyAll ActiveRequest.recordDraftCall [0] [req] = [req.recordDraftCall] := rfl
  have hreturned (ms : List (Option μ)) : returnMatchers [req.recordDraftCall] ms = [req.recordDraftCall] := by
    have hu' : req.recordDraftCall.unfinished := hu
    have hm' : req.recordDraftCall.matcher = none := hm
    unfold returnMatchers
    rw [if_pos hu']
    cases ms
    case nil      => rfl
    case cons m _ =>
      have hsame : { req.recordDraftCall with matcher := req.recordDraftCall.matcher.bind fun m₀ => m.or (some m₀) } =
          req.recordDraftCall := by
        rw [hm', Option.bind_none, ← hm']
      simp only [hsame, returnMatchers]
  let n := min (req.maxNewTokens - req.generated.length) draftWindow
  let draft (d : δ) := DraftModel.draftBatch [⟨req.session.context, n, (none : Option μ)⟩] d
  have hdraft : (DraftModel.draftBatch [⟨req.session.context, n, none⟩] m.draft).1 = _ := hd.draftBatch ..
  rcases hr : DraftModel.draftBatch [⟨req.session.context, n, none⟩] m.draft with ⟨res, ms, d⟩
  cases hg : g req.session.context n
  case error e =>
    rw [hr, hg] at hdraft
    have hcall : Models.onDraft (τ := τ) (fun d => ((draft d).1, (draft d).2.2)) m = (.error (.err e), { m with draft := d }) := by
      simp [Models.onDraft, Eff.zoom, Eff.call, draft, hr, show res = .error e from hdraft]
    have hplayed : req.session.played g step n (view m.target) = .error e := by rw [SpeculativeSession.played, hg]
    rw [hplayed]
    unfold round
    rw [if_pos hany]
    dsimp only
    rw [hindices, hrequests]
    exact congrArg Prod.fst (Eff.bind_error hcall)
  case ok predictions =>
    rw [hr, hg] at hdraft
    obtain ⟨hverify, hview⟩ := ht.verifyBatch m.target req.session.context (predictions.map (·.token))
    have hcall : Models.onDraft (τ := τ) (fun d => ((draft d).1, (draft d).2.2)) m = (.ok [predictions], { m with draft := d }) :=
      Eff.zoom_ok (Eff.call_ok (by dsimp only [draft]; rw [hr, show res = .ok [predictions] from hdraft]))
    have htokens : (draftedTokens [predictions] [0].length : Eff _ SpeculativeError _) { m with draft := d } =
      (.ok [predictions.map (·.token)], { m with draft := d }) := by simp [draftedTokens, Eff.pure_apply]
    let verify (t : τ) := TargetModel.verifyBatch (verifyRequests [req.recordDraftCall] [predictions.map (·.token)]) t
    rcases hr' : TargetModel.verifyBatch [⟨req.session.context, predictions.map (·.token), none⟩] m.target with
      ⟨res', ms', t⟩
    rcases hstep : step req.session.context (predictions.map (·.token)) (view m.target) with ⟨e | verified, x⟩
    case error =>
      rw [hr', hstep] at hverify
      have hcall' : Models.onTarget (δ := δ) (fun t => ((verify t).1.map (·, (verify t).2.1), (verify t).2.2)) ⟨d, m.target⟩ =
          (.error (.err e), ⟨d, t⟩) := by
        simp [Models.onTarget, Eff.zoom, Eff.call, verify, hverifies, hr', show res' = .error e from hverify, Except.map]
      have hplayed : req.session.played g step n (view m.target) = .error e := by
        rw [SpeculativeSession.played, hg]
        dsimp only
        rw [hstep]
      have hround : round draftWindow [req] m = (.error (.err e), ⟨d, t⟩) := by
        unfold round
        rw [if_pos hany]
        dsimp only
        rw [hindices, hrequests, hmodify]
        exact (Eff.bind_ok hcall).trans ((Eff.bind_ok htokens).trans (Eff.bind_error hcall'))
      rw [hplayed, hround]
    case ok =>
      rw [hr', hstep] at hverify hview
      have hcall' : Models.onTarget (δ := δ) (fun t => ((verify t).1.map (·, (verify t).2.1), (verify t).2.2)) ⟨d, m.target⟩ =
          (.ok ([verified], ms'), ⟨d, t⟩) :=
        Eff.zoom_ok (Eff.call_ok (by
          dsimp only [verify]
          rw [hverifies, hr', show res' = .ok [verified] from hverify]
          rfl))
      have hrecorded : modifyAll ActiveRequest.recordTargetCall [0] (returnMatchers [req.recordDraftCall] ms') =
          [req.recordDraftCall.recordTargetCall] := by rw [hreturned]; rfl
      have hround : round draftWindow [req] m =
          (commitAll [predictions] [verified] [0].zipIdx [req.recordDraftCall.recordTargetCall] >>= fun active =>
            (pure (.inl active) : Eff (Models δ τ) SpeculativeError _)) ⟨d, t⟩ := by
        unfold round
        rw [if_pos hany]
        dsimp only
        rw [hindices, hrequests, hmodify]
        refine (Eff.bind_ok hcall).trans ((Eff.bind_ok htokens).trans ((Eff.bind_ok hcall').trans ?_))
        dsimp only
        rw [hrecorded]
      rw [SpeculativeSession.played, hg]
      dsimp only
      rw [hstep, hround]
      dsimp only
      rcases hc : req.session.recordDraftCall.recordTargetCall.commit predictions verified with ⟨e | accepted, s⟩
      case error =>
        have hcommit : req.recordDraftCall.recordTargetCall.commit predictions verified = .error e := by
          rw [ActiveRequest.commit]
          rw [show req.recordDraftCall.recordTargetCall.session.commit predictions verified = _ from hc]
        rw [Eff.bind_error (commitAll_single_error hcommit)]
      case ok =>
        have hcommit : req.recordDraftCall.recordTargetCall.commit predictions verified = .ok { req with
            session   := { s with rejectedToken := none }
            generated := req.generated ++ SpeculativeSession.emitted accepted s } := ActiveRequest.commit_eq hc
        exact ⟨⟨d, t⟩, hview, by rw [Eff.bind_ok (commitAll_single_ok hcommit)]; rfl⟩

omit [CfgMatcher μ] in
theorem bindAll_view (active : List (ActiveRequest μ)) (hd : DraftModel.Binds δ) (ht : TargetModel.StepsBy τ view step)
    (m : Models δ τ) : Eff.Returns (bindAll active) m fun _ m' => view m'.target = view m.target := by
  induction active generalizing m
  case nil => exact .pure rfl
  case cons req reqs hi =>
    have ⟨d₁, hd₁⟩ := (hd m.draft).left req.slotId
    have ⟨t₁, ht₁, hv₁⟩ := ht.bindSlot m.target req.slotId
    have ⟨d₂, hd₂⟩ := (hd d₁).right req.prefill.cachedPrefix
    have ⟨t₂, ht₂, hv₂⟩ := ht.bindPrefixCache t₁ req.prefill.cachedPrefix
    have ⟨_, m', hbind, hv⟩ : Eff.Returns (Models.bind req.slotId req.prefill.cachedPrefix) m
        fun _ m' => view m'.target = view m.target :=
      .bind ⟨(), _, Eff.zoom_ok (Eff.call_ok hd₁), .bind ⟨(), _, Eff.zoom_ok (Eff.call_ok ht₁),
        .bind ⟨(), _, Eff.zoom_ok (Eff.call_ok hd₂), (), _, Eff.zoom_ok (Eff.call_ok ht₂), hv₂.trans hv₁⟩⟩⟩
    exact .bind ⟨(), m', hbind, (hi m').mono fun _ _ h => h.trans hv⟩

omit [CfgMatcher μ] [DraftModel μ δ] [TargetModel μ τ] in
theorem finish_stats {R : Type} [MemoryRuntime R] {e e' : VeloEngine R μ} (h : finish req e = (.ok out, e')) :
    out.stats.speculative = req.session.stats := by
  have ⟨_, _, _, h⟩ := Eff.bind_eq_ok_iff.mp h
  have ⟨_, _, _, h⟩ := Eff.bind_eq_ok_iff.mp h
  have ⟨_, _, _, h⟩ := Eff.bind_eq_ok_iff.mp h
  cases h
  rfl

end VeloEngine

namespace SpeculativeDecoder

variable {δ τ : Type} [DraftModel μ δ] [TargetModel μ τ]
  {g : List TokenId → Nat → Except SpeculativeError (List NextTokenPrediction)}

theorem heads_draftWindow_pos {f : List TokenId → TokenId} {decoder : SpeculativeDecoder} {m m' : Models δ τ}
    (hd : DraftModel.Answers δ) (ht : TargetModel.VerifiesBy τ f)
    (h : Eff.Heads (iteration n) (decoder.begin prompt, []) m v m') : 0 < v.1.draftWindow := by
  have hinit : Invariant f prompt n m (decoder.begin prompt, []) m :=
    ⟨decoder.draftWindow_pos, by simp [begin], .nil, by simp, by simp [begin], by simp⟩
  refine (h.invariant (fun v t v' t' hi hb => ?_) hinit).window
  have hstep := iteration_step hd ht v t hi
  rw [hb] at hstep
  exact hstep.left

-- At the beginning of a round that has something to do, the window of the session and that of the decoder get the same
-- draft, which is not empty and not too long.
def KeepsWindow (g : List TokenId → Nat → Except SpeculativeError (List NextTokenPrediction)) (draftWindow n : Nat)
    (v : SpeculativeSession × List TokenId) : Prop :=
  v.2.length < n →
    g v.1.context (min (n - v.2.length) v.1.draftWindow) = g v.1.context (min (n - v.2.length) draftWindow) ∧
    ∀ predictions, g v.1.context (min (n - v.2.length) v.1.draftWindow) = .ok predictions →
      predictions ≠ [] ∧ predictions.length ≤ min (n - v.2.length) v.1.draftWindow

end SpeculativeDecoder

namespace Machine

open VeloEngine SpeculativeDecoder

variable {R μ δ τ ν : Type} [MemoryRuntime R] [CfgMatcher μ] [DraftModel μ δ] [TargetModel μ τ]
  {g : List TokenId → Nat → Except SpeculativeError (List NextTokenPrediction)} {view : τ → ν}
  {step : List TokenId → List TokenId → ν → Except SpeculativeError (List VerifyStep) × ν} {m : Machine R μ δ τ}

-- Both ways to generate return the same error, or the same tokens and statistics.
def SameOutcome (fuel : Nat) (prompt : List TokenId) (n : Nat) (m : Machine R μ δ τ) : Prop :=
  ∃ r : Except SpeculativeError SpeculativeOutput,
    (m.engine.decoder.generate fuel prompt n m.models).1 = r.mapError .err ∧
    (generate fuel prompt n m).1.map (fun out => { tokens := out.tokens, stats := out.stats.speculative }) =
      r.mapError fun e => .err (.speculative e)

-- The state of the decoder's loop and the engine's request say the same.
structure Paired (prompt : List TokenId) (n : Nat) (v : SpeculativeSession × List TokenId) (req : ActiveRequest μ) : Prop where
  session      : req.session = v.1
  generated    : req.generated = v.2
  maxNewTokens : req.maxNewTokens = n
  matcher      : req.matcher = none
  prompt       : v.1.prompt = prompt
  length_le    : v.2.length ≤ n

def PairedEnds (prompt : List TokenId) (n : Nat) (r : Except (Fault SpeculativeError) (SpeculativeSession × List TokenId))
    (r' : Except (Fault SpeculativeError) (List (ActiveRequest μ))) : Prop :=
  (∃ e, r = .error (.err e) ∧ r' = .error (.err e)) ∨ ∃ v req, r = .ok v ∧ r' = .ok [req] ∧ Paired prompt n v req

-- The loops of both ways run side by side.
theorem rounds_pair (hd : DraftModel.AnswersBy δ g) (ht : TargetModel.StepsBy τ view step) {decoder : SpeculativeDecoder}
    {models models' : Models δ τ} {req : ActiveRequest μ} (hfresh : Fresh decoder ⟨prompt, n, none⟩ req)
    (hview : view models'.target = view models.target) (hfuel : n < fuel)
    (hkeeps : ∀ v m, Eff.Heads (iteration n) (decoder.begin prompt, []) models v m → KeepsWindow g decoder.draftWindow n v) :
    PairedEnds prompt n (Eff.loop (iteration n) fuel (decoder.begin prompt, []) models).1
      (Eff.loop (VeloEngine.round decoder.draftWindow) fuel [req] models').1 := by
  let related (v : SpeculativeSession × List TokenId) (m : Models δ τ) (a : List (ActiveRequest μ)) (m' : Models δ τ) : Prop :=
    Eff.Heads (iteration n) (decoder.begin prompt, []) models v m ∧ view m'.target = view m.target ∧
      ∃ req, a = [req] ∧ Paired prompt n v req
  have hstart : related (decoder.begin prompt, []) models [req] models' :=
    ⟨.refl, hview, req, rfl, hfresh.session, hfresh.generated, hfresh.maxNewTokens, hfresh.matcher, rfl, Nat.zero_le n⟩
  refine Eff.loop_pair (I := related) (V := fun v => n - v.2.length) ?_ hstart (by simpa using hfuel)
  rintro v m _ m' ⟨hh, hview, req, rfl, hp⟩
  by_cases hn : v.2.length < n
  case neg =>
    have hv : iteration n v m = (.ok (.inr v), m) := by
      simp only [iteration, hn, ↓reduceIte]
      rfl
    have hu : ¬[req].any (·.unfinished) := by simp [ActiveRequest.unfinished, hp.generated, hp.maxNewTokens, not_lt.mp hn]
    have hr : VeloEngine.round decoder.draftWindow [req] m' = (.ok (.inr [req]), m') := by
      rw [VeloEngine.round, if_neg hu]
      rfl
    rw [hv, hr]
    exact .inr ⟨v, req, rfl, rfl, hp⟩
  case pos =>
    obtain ⟨hsame, hsuit⟩ := hkeeps v m hh hn
    have hu : req.unfinished := by simp [ActiveRequest.unfinished, hp.generated, hp.maxNewTokens, hn]
    have hiteration := iteration_played hd ht hn m hsuit
    have hround := round_played decoder.draftWindow hd ht hu hp.matcher m'
    rw [hp.session, hp.generated, hp.maxNewTokens, hview, ← SpeculativeSession.played_congr hsame] at hround
    cases hplayed : v.1.played g step (min (n - v.2.length) v.1.draftWindow) (view m.target)
    case error e =>
      rw [hplayed] at hiteration hround
      rcases hi : iteration n v m with ⟨_, _⟩
      rcases hr : VeloEngine.round decoder.draftWindow [req] m' with ⟨_, _⟩
      rw [hi] at hiteration
      rw [hr] at hround
      cases hiteration
      cases hround
      exact .inl ⟨e, rfl, rfl⟩
    case ok r =>
      obtain ⟨accepted, s, x⟩ := r
      rw [hplayed] at hiteration hround
      obtain ⟨m₁, hview₁, hi⟩ := hiteration
      obtain ⟨m₂, hview₂, hr⟩ := hround
      obtain ⟨predictions, hg, hprompt, hle, hpos⟩ := SpeculativeSession.played_eq_ok hplayed
      obtain ⟨hne, hlen⟩ := hsuit predictions hg
      have hpos := hpos hne
      rw [hi, hr]
      refine ⟨⟨hh.step hi, hview₂.trans hview₁.symm, _, rfl, rfl, rfl, rfl, hp.matcher, hprompt.trans hp.prompt, ?_⟩, ?_⟩
      all_goals simp only [length_append]; omega

section Stats

omit [CfgMatcher μ] [DraftModel μ δ] [TargetModel μ τ]

variable [LawfulMemoryRuntime R]

theorem wrapUp_single {e : VeloEngine R μ} {req : ActiveRequest μ} (c : Coherent e)
    (hslot : req.slotId.toNat < e.slotPool.maxSlots) (hroom : Room 1 e)
    (hpages : e.pagesFor req.fullSequence.length ≤ e.freePages) : ∃ out e', wrapUp [req] e = (.ok [out], e') ∧
      out.tokens = req.generated ∧ out.stats.speculative = req.session.stats := by
  have ⟨out, e', hf, _⟩ := finish_returns c hslot hroom hpages
  refine ⟨out, e', ?_, (finish_eq_ok hf).left, finish_stats hf⟩
  rw [wrapUp, Eff.bind_ok hf]
  rfl

end Stats

variable [LawfulMemoryRuntime R]

-- As long as the window of the session and that of the decoder get the same drafts, it makes no difference which way the
-- tokens are generated.
theorem generate_sameOutcome (h : Reachable m.engine) (hd : DraftModel.AnswersBy δ g) (hb : DraftModel.Binds δ)
    (ht : TargetModel.StepsBy τ view step) (hs : Suffices [⟨prompt, n, none⟩] m.engine) (hprompt : prompt ≠ [])
    (hkeeps : ∀ v models, Eff.Heads (iteration n) (m.engine.decoder.begin prompt, []) m.models v models →
      KeepsWindow g m.engine.decoder.draftWindow n v) (hfuel : n < fuel) : SameOutcome fuel prompt n m := by
  have hpages := hs.pages
  obtain ⟨active, e, hp, u, hfresh⟩ := prepareAll_returns h.coherent hs.slots (by simpa using hprompt)
    (hs.room.of_le (by simp)) (by omega)
  rcases hfresh with _ | ⟨hfresh, _ | _⟩
  case cons.nil req =>
    obtain ⟨_, models, hbind, hview⟩ := bindAll_view [req] hb ht m.models
    have hpair := rounds_pair hd ht hfresh hview hfuel hkeeps
    have hprepare : onEngine (prepareAll [⟨prompt, n, none⟩]) m = (.ok [req], ⟨e, m.models⟩) := Eff.zoom_ok hp
    have hbindAll : onModels (bindAll [req]) ⟨e, m.models⟩ = (.ok (), ⟨e, models⟩) := Eff.zoom_ok hbind
    have hdecode : decode fuel [⟨prompt, n, none⟩] m =
        onModels (Eff.loop (VeloEngine.round m.engine.decoder.draftWindow) fuel [req]) ⟨e, models⟩ := by
      rw [decode, Eff.bind_ok hprepare, Eff.bind_ok hbindAll, Eff.bind_ok Eff.get_apply]
      dsimp only
      rw [u.decoder]
    rcases hl : Eff.loop (iteration n) fuel (m.engine.decoder.begin prompt, []) m.models with ⟨r, m₁⟩
    rcases hl' : Eff.loop (VeloEngine.round m.engine.decoder.draftWindow) fuel [req] models with ⟨r', m₁'⟩
    rw [hl, hl'] at hpair
    rcases hpair with ⟨error, rfl, rfl⟩ | ⟨v, req', rfl, rfl, hpaired⟩
    case inl =>
      have hfail : decode fuel [⟨prompt, n, none⟩] m = (.error (.err (.speculative error)), ⟨e, m₁'⟩) := by
        rw [hdecode, onModels, Eff.zoom, hl']
      refine ⟨.error error, ?_, ?_⟩
      case refine_1 => rw [SpeculativeDecoder.generate, Eff.bind_error hl]; rfl
      case refine_2 =>
        have hbatch : generateBatch fuel [⟨prompt, n, none⟩] m = (.error (.err (.speculative error)), ⟨e, m₁'⟩) :=
          Eff.bind_error hfail
        rw [generate, Eff.bind_error hbatch]
        rfl
    case inr =>
      have hdone : decode fuel [⟨prompt, n, none⟩] m = (.ok [req'], ⟨e, m₁'⟩) := by
        rw [hdecode]
        exact Eff.zoom_ok hl'
      have hslot : req'.slotId.toNat < e.slotPool.maxSlots := decode_slotId_lt fuel _ m hdone req' mem_cons_self
      have hsession := hpaired.session
      have hle := hpaired.length_le
      have hlen : req'.fullSequence.length ≤ prompt.length + n := by
        simp [ActiveRequest.fullSequence, hpaired.generated, hsession, hpaired.prompt, hle]
      have henough : e.pagesFor req'.fullSequence.length ≤ e.freePages := by
        have hmono : m.engine.pagesFor req'.fullSequence.length ≤ m.engine.pagesFor (prompt.length + n) :=
          Nat.div_le_div_right (by omega)
        have hfree := u.freePages
        rw [u.pagesFor]
        simp only [map_cons, map_nil, sum_cons, sum_nil] at hpages
        omega
      obtain ⟨out, e', hw, htokens, hstats⟩ := wrapUp_single u.coherent hslot (u.room 1 hs.room) henough
      have hbatch : generateBatch fuel [⟨prompt, n, none⟩] m = (.ok [out], ⟨e', m₁'⟩) := by
        rw [generateBatch, Eff.bind_ok hdone]
        exact Eff.zoom_ok hw
      refine ⟨.ok ⟨v.2, v.1.stats⟩, ?_, ?_⟩
      case refine_1 => rw [SpeculativeDecoder.generate, Eff.bind_ok hl]; rfl
      case refine_2 =>
        rw [generate, Eff.bind_ok hbatch, ← hpaired.generated, ← htokens, ← hsession, ← hstats]
        rfl

omit [LawfulMemoryRuntime R] in
theorem SameOutcome.stats_eq (h : SameOutcome fuel prompt n m) :
    (m.engine.decoder.generate fuel prompt n m.models).1.toOption.map (·.stats) =
      (generate fuel prompt n m).1.toOption.map (·.stats.speculative) := by
  have ⟨r, hd, he⟩ := h
  rw [hd]
  generalize (generate fuel prompt n m).1 = r' at he
  cases r <;> cases r' <;> cases he <;> rfl

-- A draft model that always guesses one token.
theorem generate_sameOutcome_single : ∃ e : VeloEngine CpuMemoryRuntime Empty, VeloEngine.new ⟨2, ⟨1, 4, 8, 2⟩⟩ = .ok e ∧
    SameOutcome 4 [1] 3 ⟨e, ⟨(⟨⟩ : Drafter List.sum fun _ => 1), (⟨0⟩ : Oracle List.sum)⟩⟩ := by
  refine ⟨_, rfl, generate_sameOutcome (reachable_new ⟨2, ⟨1, 4, 8, 2⟩⟩ rfl) Drafter.answersBy Drafter.binds Oracle.stepsBy
    ⟨?_, trivial, ?_⟩ (by decide) (fun v models hh hn => ⟨rfl, ?_⟩) (by decide)⟩
  case refine_3 =>
    have hw : 0 < v.1.draftWindow := heads_draftWindow_pos (Drafter.answers fun _ hn => ⟨Nat.one_pos, hn⟩) Oracle.verifiesBy hh
    rintro _ ⟨⟩
    refine ⟨by simp [greedy], ?_⟩
    simp only [length_map, greedy_length]
    omega
  all_goals decide +kernel

-- After a round in which everything is accepted, the session asks for two tokens, and the engine for one.
theorem exists_not_sameOutcome : ∃ e : VeloEngine CpuMemoryRuntime Empty, VeloEngine.new ⟨1, ⟨1, 4, 8, 2⟩⟩ = .ok e ∧
    Suffices [⟨[1], 3, none⟩] e ∧ ¬SameOutcome 4 [1] 3 ⟨e, ⟨(⟨⟩ : Guesser List.sum), (⟨0⟩ : Oracle List.sum)⟩⟩ := by
  refine ⟨_, rfl, ⟨?_, trivial, ?_⟩, ?_⟩
  case refine_3 =>
    intro h
    have hstats := h.stats_eq
    revert hstats
    decide +kernel
  all_goals decide +kernel

end Machine
