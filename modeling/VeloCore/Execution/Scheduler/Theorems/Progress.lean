import Mathlib
import VeloCore.Execution.Scheduler.Theorems.Room

open List

-- Every call of the draft model is answered with at most as many tokens as it asks for, maybe with none.
def DraftModel.Replies (δ : Type) [DraftModel μ δ] : Prop :=
  ∀ (d : δ) context requested, ∃ predictions m d', DraftModel.draft context requested none d = (.ok predictions, m, d') ∧
    predictions.length ≤ requested

-- Every call of the target model is answered with one step for each drafted token.
def TargetModel.Steps (τ : Type) [TargetModel μ τ] : Prop :=
  ∀ (t : τ) context drafted, ∃ verified m t', TargetModel.verify context drafted none t = (.ok verified, m, t') ∧
    verified.length = drafted.length

section Decoder

variable {μ δ τ : Type} [DraftModel μ δ] [TargetModel μ τ]

theorem SpeculativeSession.draft_isOk (hd : DraftModel.Replies δ) (ht : TargetModel.Steps τ) (s : SpeculativeSession)
    (n : Nat) (m : Models δ τ) : ∃ accepted s' m', s.draft n m = (.ok accepted, s', m') := by
  have ⟨predictions, _, d, hd, hle⟩ := hd m.draft s.context (min n s.draftWindow)
  have hle : ¬predictions.length > min n s.draftWindow := Nat.not_lt.mpr hle
  cases hne : predictions.isEmpty
  case true =>
    exact ⟨[], s.recordDraftCall, ⟨d, m.target⟩, by simp only [draft, hd, if_neg hle, hne, ↓reduceIte]⟩
  case false =>
    have ⟨verified, _, t, ht, hlen⟩ := ht m.target s.context (predictions.map (·.token))
    rw [length_map] at hlen
    have ht : TargetModel.verify (s.recordDraftCall.recordDrafted predictions.length).context
        (predictions.map (·.token)) none m.target = (.ok verified, _, t) := ht
    let s₁ := (s.recordDraftCall.recordDrafted predictions.length).recordTargetCall
    refine ⟨(s₁.resolve (predictions.map (·.token)) verified).1, (s₁.resolve (predictions.map (·.token)) verified).2,
      ⟨d, t⟩, ?_⟩
    simp only [s₁, draft, hd, if_neg hle, hne, Bool.false_eq_true, ↓reduceIte, length_map, ht, hlen, ne_eq,
      not_true_eq_false]

namespace SpeculativeDecoder

-- An iteration that goes on has got a token, since one with an empty draft leaves the loop.
theorem iteration_returns (hd : DraftModel.Replies δ) (ht : TargetModel.Steps τ) (v : SpeculativeSession × List TokenId)
    (m : Models δ τ) : Eff.Returns (iteration n v) m fun r _ =>
      r.elim (fun v' => n - v'.2.length < n - v.2.length) fun _ => True := by
  by_cases hn : v.2.length < n
  case neg =>
    refine ⟨.inr v, m, ?_, trivial⟩
    simp only [iteration, hn, ↓reduceIte]
    rfl
  case pos =>
    have ⟨accepted, s, m', hdraft⟩ := SpeculativeSession.draft_isOk hd ht v.1 (n - v.2.length) m
    obtain ⟨_, _, _, _, _, rejectedToken⟩ := s
    simp only [iteration, hn, ↓reduceIte, Eff.Returns, hdraft, SpeculativeSession.hasPendingRejection,
      SpeculativeSession.takeRejectedToken]
    cases rejectedToken
    case none =>
      cases accepted
      case nil => exact ⟨_, m', rfl, trivial⟩
      case cons token rest =>
        refine ⟨_, m', rfl, ?_⟩
        simp only [Sum.elim_inl, length_append, length_cons]
        omega
    case some token =>
      simp only [Option.isSome_some, Bool.not_true, Bool.and_false, Bool.false_eq_true, ↓reduceIte]
      refine ⟨_, m', rfl, ?_⟩
      simp only [Sum.elim_inl, length_append, length_cons]
      omega

-- A call of `generate` ends after at most as many drafts as tokens, whether they are empty or not.
theorem generate_isOk (hd : DraftModel.Replies δ) (ht : TargetModel.Steps τ) (decoder : SpeculativeDecoder)
    (prompt : List TokenId) (m : Models δ τ) (hfuel : n < fuel) :
    ∃ out m', decoder.generate fuel prompt n m = (.ok out, m') := by
  have hstep (v : SpeculativeSession × List TokenId) (m : Models δ τ) (_ : True) : Eff.Returns (iteration n v) m fun r _ =>
      r.elim (fun v' => True ∧ n - v'.2.length < n - v.2.length) fun _ => True :=
    (iteration_returns hd ht v m).mono fun r _ hr => by cases r <;> simp_all
  have ⟨v, m', hl, _⟩ := Eff.Returns.loop (V := fun v _ => n - v.2.length) (n := fuel) (s := m)
    (a := (decoder.begin prompt, [])) hstep trivial (by simpa using hfuel)
  exact ⟨_, m', Eff.bind_ok hl⟩

end SpeculativeDecoder
end Decoder

theorem DraftModel.RepliesBatch.mono {δ : Type} [DraftModel μ δ] {P Q : DraftRequest μ → List NextTokenPrediction → Prop}
    (h : DraftModel.RepliesBatch δ P) (hpq : ∀ r ps, P r ps → Q r ps) : DraftModel.RepliesBatch δ Q := fun d requests =>
  have ⟨results, ms, d', hd, hr⟩ := h d requests
  ⟨results, ms, d', hd, hr.imp hpq⟩

section Drafter

variable {f g : List TokenId → TokenId} {count : Nat → Nat}

theorem Drafter.replies (h : ∀ n, count n ≤ n) : DraftModel.Replies (Drafter g count) :=
  fun d _ n => ⟨_, none, d, rfl, by simpa using h n⟩

theorem Oracle.steps : TargetModel.Steps (Oracle f) :=
  fun t _ _ => ⟨_, none, ⟨t.calls + 1⟩, rfl, by simp⟩

end Drafter

namespace VeloEngine

variable {μ δ τ : Type} [CfgMatcher μ] [DraftModel μ δ] [TargetModel μ τ] {active : List (ActiveRequest μ)}
  {m : Models δ τ} {drafts : List (List NextTokenPrediction)} {steps : List (List VerifyStep)}

omit [DraftModel μ δ] [TargetModel μ τ] in
theorem draftRequests_pos (hw : 0 < draftWindow) {r : DraftRequest μ} (hr : r ∈ draftRequests draftWindow active) :
    0 < r.maxTokens := by
  have ⟨p, hp, he⟩ := mem_map.mp hr
  have hu : p.1.generated.length < p.1.maxNewTokens := of_decide_eq_true (mem_filter.mp hp).right
  rw [← he]
  dsimp only
  omega

-- A draft model that always has a token has one in each round.
theorem Answered.exists_ne_nil (hδ : DraftModel.RepliesBatch δ fun r ps => 0 < r.maxTokens → ps ≠ [])
    (hw : 0 < draftWindow) (hu : active.any (·.unfinished)) (ha : Answered draftWindow active m drafts steps) :
    ∃ predictions ∈ drafts, predictions ≠ [] := by
  have ⟨_, _, hd⟩ := ha.drafted
  have ⟨_, _, _, hd', hreplies⟩ := hδ m.draft (draftRequests draftWindow active)
  cases hd.symm.trans hd'
  have ⟨req, hreq, hun⟩ := any_eq_true.mp hu
  have hpos : 0 < (draftRequests draftWindow active).length := by
    rw [draftRequests_length]
    exact length_pos_of_mem (mem_filter.mpr ⟨hreq, hun⟩)
  have ⟨ps, hps, hne⟩ := forall₂_getElem? hreplies (getElem?_eq_getElem hpos)
  exact ⟨ps, mem_of_getElem? hps, hne (draftRequests_pos hw (getElem_mem hpos))⟩

end VeloEngine

namespace Machine

open VeloEngine

variable {R μ δ τ : Type} [MemoryRuntime R] [CfgMatcher μ] [DraftModel μ δ] [TargetModel μ τ]
  {reqs : List BatchRequest} {m : Machine R μ δ τ} {e : VeloEngine R μ} {active : List (ActiveRequest μ)}
  {models : Models δ τ}

-- In each round, the draft of some unfinished request has a token.
def DraftsSome (reqs : List BatchRequest) (m : Machine R μ δ τ) : Prop :=
  ∀ draftWindow a m₁, Enters reqs m draftWindow a m₁ → a.any (·.unfinished) →
    ∀ drafts steps, Answered draftWindow a m₁ drafts steps → ∃ predictions ∈ drafts, predictions ≠ []

theorem decode_eq_loop (hp : prepareAll reqs m.engine = (.ok active, e)) (hb : bindAll active m.models = (.ok (), models))
    (fuel : Nat) : decode fuel reqs m =
      onModels (Eff.loop (round e.decoder.draftWindow) fuel active) ⟨e, models⟩ := by
  have hprepare : onEngine (δ := δ) (τ := τ) (prepareAll reqs) m = (.ok active, { m with engine := e }) := Eff.zoom_ok hp
  have hbind : onModels (R := R) (bindAll active) { m with engine := e } = (.ok (), ⟨e, models⟩) := Eff.zoom_ok hb
  rw [decode, Eff.bind_ok hprepare, Eff.bind_ok hbind]
  rfl

theorem DraftsSome.of_repliesBatch (hδ : DraftModel.RepliesBatch δ fun r ps => 0 < r.maxTokens → ps ≠ []) :
    DraftsSome reqs m := by
  intro _ a m₁ ⟨e, _, _, _, _, hw, _⟩ hu drafts steps ha
  exact ha.exists_ne_nil hδ (hw ▸ e.decoder.draftWindow_pos) hu

-- A batch that always gets on needs at most as many rounds as its requests ask for tokens.
theorem decode_isOk {P : DraftRequest μ → List NextTokenPrediction → Prop} (hδ : DraftModel.RepliesBatch δ P)
    (hτ : TargetModel.StepsBatch τ) (hp : prepareAll reqs m.engine = (.ok active, e))
    (hb : bindAll active m.models = (.ok (), models)) (hsome : DraftsSome reqs m)
    (hfuel : (reqs.map (·.maxNewTokens)).sum < fuel) : ∃ active' m', decode fuel reqs m = (.ok active', m') := by
  obtain ⟨hmax, hfresh⟩ := prepareAll_fresh hp
  have hremaining : remaining active = (reqs.map (·.maxNewTokens)).sum := by
    rw [remaining, ← hmax]
    exact congrArg sum (map_congr_left fun req hreq => by rw [hfresh req hreq, length_nil, Nat.sub_zero])
  obtain ⟨active', m', hl⟩ : ∃ active' m', Eff.loop (round e.decoder.draftWindow) fuel active models = (.ok active', m') :=
    rounds_isOk hδ hτ (hremaining ▸ hfuel) fun a m₁ hh hu => hsome _ a m₁ ⟨e, active, models, hp, hb, rfl, hh⟩ hu
  exact ⟨active', _, (decode_eq_loop hp hb fuel).trans (Eff.zoom_ok hl)⟩

theorem generateBatch_unfinished (hδ : DraftModel.RepliesBatch δ fun _ predictions => predictions = [])
    (hτ : TargetModel.StepsBatch τ) (hp : prepareAll reqs m.engine = (.ok active, e))
    (hb : bindAll active m.models = (.ok (), models)) (hu : active.any (·.unfinished)) (fuel : Nat) :
    (generateBatch fuel reqs m).1 = .error .unfinished := by
  have hl : (Eff.loop (round e.decoder.draftWindow) fuel active models).1 = .error .unfinished :=
    rounds_unfinished hδ hτ hu fuel models
  have hd : (decode fuel reqs m).1 = .error .unfinished := by
    rw [decode_eq_loop hp hb fuel, onModels, Eff.zoom]
    split <;> simp_all
  rcases hdecode : decode fuel reqs m with ⟨_ | _, _⟩
  case ok    => simp [hdecode] at hd
  case error =>
    rw [hdecode] at hd
    rw [generateBatch, Eff.bind_error hdecode, Except.error.inj hd]

end Machine

namespace Phase

-- The request at position `j`, which had `n` tokens and whose draft was not empty, is to get a token or to leave.
def Pursued (j n : Nat) (results : StepResults) (req : ActiveRequestInternal) : Phase → Prop
  | .commit i results'  => results' = results ∧ (i ≤ j ∨ n < req.generatedCount ∨ req.cancelled = true)
  | .send i accepted results' => results' = results ∧ (i < j ∨ n < req.generatedCount ∨ req.cancelled = true ∨
      i = j ∧ (accepted ≠ [] ∨ req.session.rejectedToken.isSome = true))
  | .correct i results' => results' = results ∧ (i < j ∨ n < req.generatedCount ∨ req.cancelled = true ∨
      i = j ∧ req.session.rejectedToken.isSome = true)
  | .cleanup i          => n < req.generatedCount ∨ req.cancelled = true ∧ i ≤ j
  | .commands           => n < req.generatedCount
  | _                   => False

theorem eq_step_of_isStep {phase : Phase} (h : phase.isStep = true) : phase = .step := by
  cases phase <;> first | rfl | cases h

theorem eq_commands_of_isCommands {phase : Phase} (h : phase.isCommands = true) : phase = .commands := by
  cases phase <;> first | rfl | cases h

end Phase

namespace VeloScheduler

variable {R μ δ τ : Type} {s s' t u : VeloScheduler R μ δ τ} {i j : Nat} {results : StepResults} {accepted : List TokenId}

-- The models returned a draft and a verified step for each of its tokens, for each of the active requests.
def Complete (results : StepResults) (n : Nat) : Prop :=
  ∀ i < n, ∃ drafted verified, results.drafted[i]? = some drafted ∧ results.verified[i]? = some verified ∧
    verified.length = drafted.length

-- A step gives a token to a request that still needs one, or ends a request.
def Moves (s t : VeloScheduler R μ δ τ) : Prop :=
  t.active.length < s.active.length ∨ ∃ (j : Nat) (req req' : ActiveRequestInternal), s.active[j]? = some req ∧
    t.active[j]? = some req' ∧ req'.client = req.client ∧ req.generatedCount < req.maxNewTokens ∧
    req.generatedCount < req'.generatedCount

-- From the call of the models on, until the requests are all served.
inductive Pursues (req₀ : ActiveRequestInternal) (j n : Nat) (results : StepResults) (u : VeloScheduler R μ δ τ) : Prop
  | panicked : u.phase = .panicked → Pursues req₀ j n results u
  | ended : u.active.length < n → (u.phase = .commands ∨ ∃ i, u.phase = .cleanup i) → Pursues req₀ j n results u
  | going {req} : u.active.length = n → u.active[j]? = some req → req.client = req₀.client →
    req₀.generatedCount ≤ req.generatedCount → u.phase.Pursued j req₀.generatedCount results req → Pursues req₀ j n results u

section Pursues

variable {req₀ req req' : ActiveRequestInternal} {n : Nat}

-- The request at position `i` goes on, and the phase with it.
theorem Pursues.set (hn : u.active.length = n) (hj : u.active[j]? = some req) (hclient : req.client = req₀.client)
    (hle : req₀.generatedCount ≤ req.generatedCount) (hi : u.active[i]? = some req')
    (hactive : s'.active = u.active.set i req'') (hsame : req''.client = req'.client)
    (hcount : req'.generatedCount ≤ req''.generatedCount)
    (hself : i = j → req' = req → s'.phase.Pursued j req₀.generatedCount results req'')
    (hother : i ≠ j → s'.phase.Pursued j req₀.generatedCount results req) : Pursues req₀ j n results s' := by
  have hlen : s'.active.length = n := by rw [hactive, length_set, hn]
  by_cases hij : i = j
  case pos =>
    subst hij
    cases hi.symm.trans hj
    refine .going hlen ?_ (hsame.trans hclient) (hle.trans hcount) (hself rfl rfl)
    rw [hactive, getElem?_set_self (List.getElem?_eq_some_iff.mp hi).1]
  case neg => exact .going hlen (by rw [hactive, getElem?_set_ne hij, hj]) hclient hle (hother hij)

theorem Pursues.work_commit (hc : Complete results n) (hdraft : ∃ drafted, results.drafted[j]? = some drafted ∧ drafted ≠ [])
    (hphase : u.phase = .commit i results') (h : Pursues req₀ j n results u) :
    Pursues req₀ j n results (u.commit i results') := by
  have hcommits := commit_commits u i results'
  cases h
  case panicked hp => rw [hphase] at hp; cases hp
  case ended hp => rw [hphase] at hp; rcases hp with hp | ⟨_, hp⟩ <;> cases hp
  case going req hn hj hclient hle hp =>
    rw [hphase] at hp
    obtain ⟨rfl, hp⟩ := hp
    have hlt : j < u.active.length := (List.getElem?_eq_some_iff.mp hj).1
    generalize u.commit i results' = t at hcommits
    cases hcommits
    case ended hnone =>
      have hge : u.active.length ≤ i := getElem?_eq_none_iff.mp hnone
      refine .going hn hj hclient hle ?_
      exact (hp.resolve_left (by omega)).imp_right fun hc => ⟨hc, j.zero_le⟩
    case missing => exact .panicked rfl
    case failed req' drafted verified e session hi hd hv hcommit =>
      have hi' : i < n := hn ▸ (List.getElem?_eq_some_iff.mp hi).1
      have ⟨_, _, hd', hv', hlen⟩ := hc i hi'
      cases hd.symm.trans hd'
      cases hv.symm.trans hv'
      cases (SpeculativeSession.commit_eq hlen).symm.trans hcommit
    case accepted req' drafted verified accepted session hi hd hv hcommit =>
      refine .set hn hj hclient hle hi rfl rfl le_rfl (fun hij heq => ⟨rfl, ?_⟩) fun hij => ⟨rfl, ?_⟩
      case refine_1 =>
        subst hij heq
        have ⟨_, hd', hne⟩ := hdraft
        cases hd.symm.trans hd'
        have hlen := SpeculativeSession.length_of_commit_eq_ok hcommit
        have ⟨_, _, hcommit', hgain⟩ := SpeculativeSession.commit_gain (s := req'.session) hlen
        cases hcommit.symm.trans hcommit'
        have hpos := hgain ▸ SpeculativeSession.gain_pos_iff.mpr hne
        refine .inr (.inr (.inr ⟨rfl, ?_⟩))
        cases hrej : session.rejectedToken
        case some => exact .inr rfl
        case none =>
          rw [SpeculativeSession.emitted, hrej, Option.toList_none, append_nil] at hpos
          exact .inl (length_pos_iff.mp hpos)
      case refine_2 =>
        rcases hp with hp | hp | hp
        case inl => exact .inl (by omega)
        case inr.inl => exact .inr (.inl hp)
        case inr.inr => exact .inr (.inr (.inl hp))

theorem Pursues.work_send (hphase : u.phase = .send i accepted results') (h : Pursues req₀ j n results u) :
    Pursues req₀ j n results (u.send i accepted results') := by
  have hsends := send_sends u i accepted results'
  cases h
  case panicked hp => rw [hphase] at hp; cases hp
  case ended hp => rw [hphase] at hp; rcases hp with hp | ⟨_, hp⟩ <;> cases hp
  case going req hn hj hclient hle hp =>
    rw [hphase] at hp
    obtain ⟨rfl, hp⟩ := hp
    generalize u.send i accepted results' = t at hsends
    cases hsends
    case missing heq => exact .panicked (by rw [heq]; rfl)
    case ended req' hi hnil heq =>
      subst hnil heq
      refine .going hn hj hclient hle ?_
      simp only [withPhase]
      split
      case isTrue hcancelled =>
        refine ⟨rfl, ?_⟩
        rcases hp with hp | hp | hp | ⟨rfl, _⟩
        case inl => exact .inl hp
        case inr.inl => exact .inr (.inl hp)
        case inr.inr.inl => exact .inr (.inr hp)
        case inr.inr.inr => cases hi.symm.trans hj; exact .inr (.inr hcancelled)
      case isFalse =>
        refine ⟨rfl, hp.imp_right (.imp_right (.imp_right (.imp_right fun hp => hp.resolve_left fun h => h rfl)))⟩
    case closed req' hi hne _ hactive _ hnext =>
      refine .set hn hj hclient hle hi hactive rfl le_rfl (fun hij heq => ?_) fun hij => ?_
      all_goals rw [hnext]
      case refine_1 => exact ⟨rfl, .inr (.inr (.inl rfl))⟩
      case refine_2 => exact ⟨rfl, hp.imp_right (.imp_right (.imp_right fun h => absurd h.left hij))⟩
    case sent req' token rest hi _ hactive _ hnext =>
      refine .set hn hj hclient hle hi hactive rfl (Nat.le_succ _) (fun hij heq => ?_) fun hij => ?_
      all_goals rw [hnext]
      case refine_1 => exact ⟨rfl, .inr (.inl (heq ▸ Nat.lt_succ_of_le hle))⟩
      case refine_2 => exact ⟨rfl, hp.imp_right (.imp_right (.imp_right fun h => absurd h.left hij))⟩

theorem Pursues.work_correct (hphase : u.phase = .correct i results') (h : Pursues req₀ j n results u) :
    Pursues req₀ j n results (u.correct i results') := by
  have hcorrects := correct_corrects u i results'
  cases h
  case panicked hp => rw [hphase] at hp; cases hp
  case ended hp => rw [hphase] at hp; rcases hp with hp | ⟨_, hp⟩ <;> cases hp
  case going req hn hj hclient hle hp =>
    rw [hphase] at hp
    obtain ⟨rfl, hp⟩ := hp
    generalize u.correct i results' = t at hcorrects
    have hother (hij : i ≠ j) : i + 1 ≤ j ∨ req₀.generatedCount < req.generatedCount ∨ req.cancelled = true :=
      hp.imp_right fun hp => hp.imp_right fun hp => hp.resolve_right fun h => hij h.left
    cases hcorrects
    case missing heq => exact .panicked (by rw [heq]; rfl)
    case ended req' hi hrej heq =>
      subst heq
      refine .going hn hj hclient hle ⟨rfl, ?_⟩
      by_cases hij : i = j
      case neg => exact hother hij
      case pos =>
        subst hij
        cases hi.symm.trans hj
        rw [hrej] at hp
        exact .inr ((hp.resolve_left (lt_irrefl i)).imp_right fun hp => hp.resolve_right fun h => by simp at h)
    case corrected req' _ _ _ hi _ hactive hsame _ hcount _ _ hnext =>
      refine .set hn hj hclient hle hi hactive hsame (by omega) (fun hij heq => ?_) fun hij => ?_
      all_goals rw [hnext]
      case refine_1 => exact ⟨rfl, .inr (.inl (by rw [hcount, heq]; exact Nat.lt_succ_of_le hle))⟩
      case refine_2 => exact ⟨rfl, hother hij⟩

theorem Pursues.work_cleanup (hphase : u.phase = .cleanup i) (h : Pursues req₀ j n results u) :
    Pursues req₀ j n results (u.cleanup i) := by
  have hcleans := cleanup_cleans u i
  generalize u.cleanup i = t at hcleans
  have hleaves (hlen : u.active.length ≤ n) {req'} (hi : u.active[i]? = some req') (hactive : t.active = u.active.eraseIdx i)
      (hnext : t.phase = u.phase ∨ t.phase = .panicked) : Pursues req₀ j n results t := by
    rcases hnext with hnext | hnext
    case inr => exact .panicked hnext
    case inl =>
      have hlt := (List.getElem?_eq_some_iff.mp hi).1
      refine .ended ?_ (.inr ⟨i, hnext.trans hphase⟩)
      rw [hactive, length_eraseIdx, if_pos hlt]
      omega
  cases h
  case panicked hp => rw [hphase] at hp; cases hp
  case ended hlt hp =>
    cases hcleans
    case ended heq => exact .ended (by rw [heq]; exact hlt) (.inl (by rw [heq]; rfl))
    case stays heq => exact .ended (by rw [heq]; exact hlt) (.inr ⟨i + 1, by rw [heq]; rfl⟩)
    case leaves hi hactive _ _ _ hnext => exact hleaves hlt.le hi hactive hnext
  case going req hn hj hclient hle hp =>
    rw [hphase] at hp
    cases hcleans
    case ended hnone heq =>
      subst heq
      have hlt := (List.getElem?_eq_some_iff.mp hj).1
      have hge : u.active.length ≤ i := getElem?_eq_none_iff.mp hnone
      exact .going hn hj hclient hle (hp.resolve_right fun h => by omega)
    case stays req' hi _ hlive heq =>
      subst heq
      refine .going hn hj hclient hle (hp.imp_right fun hc => ⟨hc.left, ?_⟩)
      refine Nat.lt_of_le_of_ne hc.right fun hij => ?_
      subst hij
      cases hi.symm.trans hj
      simp [hlive] at hc
    case leaves hi hactive _ _ _ hnext => exact hleaves hn.le hi hactive hnext

-- Only the requests and the phase count.
theorem Pursues.of_eq (h : Pursues req₀ j n results u) (hactive : s'.active = u.active) (hphase : s'.phase = u.phase) :
    Pursues req₀ j n results s' := by
  cases h
  case panicked hp => exact .panicked (hphase.trans hp)
  case ended hlt hp => exact .ended (hactive ▸ hlt) (hphase ▸ hp)
  case going hn hj hclient hle hp => exact .going (hactive ▸ hn) (hactive ▸ hj) hclient hle (hphase ▸ hp)

variable [MemoryRuntime R] [DraftModel μ δ] [TargetModel μ τ]

theorem Pursues.next {a : Action} (hc : Complete results n)
    (hdraft : ∃ drafted, results.drafted[j]? = some drafted ∧ drafted ≠ []) (hphase : u.phase.isCommands = false)
    (h : Pursues req₀ j n results u) : Pursues req₀ j n results (u.next a) := by
  cases a
  case work =>
    have hnot (phase : Phase) (heq : u.phase = phase) (hno : ∀ req, ¬phase.Pursued j req₀.generatedCount results req)
        (hp : phase ≠ .panicked) (hcl : ∀ i, phase ≠ .cleanup i) (hco : phase ≠ .commands) : False := by
      cases h
      case panicked hp' => exact hp (heq.symm.trans hp')
      case ended hp' => exact hp'.elim (fun h => hco (heq.symm.trans h)) fun ⟨i, h⟩ => hcl i (heq.symm.trans h)
      case going hp' => exact hno _ (heq ▸ hp')
    unfold VeloScheduler.next VeloScheduler.work
    dsimp only
    split
    case h_1 heq => simp [heq, Phase.isCommands] at hphase
    case h_2 heq => exact (hnot _ heq (fun _ => id) nofun nofun nofun).elim
    case h_3 heq => exact (hnot _ heq (fun _ => id) nofun nofun nofun).elim
    case h_4 heq => exact (hnot _ heq (fun _ => id) nofun nofun nofun).elim
    case h_5 heq => exact (hnot _ heq (fun _ => id) nofun nofun nofun).elim
    case h_6 heq => exact h.work_commit hc hdraft heq
    case h_7 heq => exact h.work_send heq
    case h_8 heq => exact h.work_correct heq
    case h_9 heq => exact h.work_cleanup heq
    case h_10 => exact h
    case h_11 heq => exact .panicked heq
  case prefetch => rw [VeloScheduler.next, VeloScheduler.prefetch]; split <;> exact h.of_eq rfl rfl
  all_goals exact h.of_eq rfl rfl

end Pursues

section Iteration

variable [MemoryRuntime R] [DraftModel μ δ] [TargetModel μ τ]

-- A step of the worker, with whatever the clients do meanwhile: from the calls of the models to the next commands.
def Iterates (s t : VeloScheduler R μ δ τ) : Prop :=
  Run (fun u _ => u.phase.isCommands = false) (s.next .work) t ∧ t.phase = .commands

-- The draft model has a token for one of the active requests.
def DraftsSome (s : VeloScheduler R μ δ τ) : Prop :=
  ∃ drafts ms d, DraftModel.draftBatch (draftRequests s.machine.engine.decoder.draftWindow s.active) s.machine.models.draft =
    (.ok drafts, ms, d) ∧ ∃ predictions ∈ drafts, predictions ≠ []

omit [MemoryRuntime R] in
-- With models that answer, the worker goes on with a draft and its verified steps for each request.
theorem callModels_complete (hδ : DraftModel.RepliesBatch δ fun r ps => ps.length ≤ r.maxTokens)
    (hτ : TargetModel.StepsBatch τ) (s : VeloScheduler R μ δ τ) : ∃ models results,
      s.callModels = { s with machine := { s.machine with models }, phase := .commit 0 results } ∧
      Complete results s.active.length ∧
      (∃ ms d, DraftModel.draftBatch (draftRequests s.machine.engine.decoder.draftWindow s.active) s.machine.models.draft =
        (.ok results.drafted, ms, d)) ∧
      ∀ (j : Nat) ps, results.drafted[j]? = some ps → ∃ req, s.active[j]? = some req ∧
        ps.length ≤ req.maxNewTokens - req.generatedCount := by
  obtain ⟨drafts, ms, d, hd, hdrafts⟩ :=
    hδ s.machine.models.draft (draftRequests s.machine.engine.decoder.draftWindow s.active)
  obtain ⟨steps, ms', t, hv, hsteps⟩ := hτ s.machine.models.target (verifyRequests s.active drafts)
  rw [draftRequests, forall₂_map_left_iff] at hdrafts
  rw [verifyRequests, forall₂_map_left_iff] at hsteps
  have hlen : ¬drafts.length < s.active.length := hdrafts.length_eq.le.not_gt
  refine ⟨⟨d, t⟩, ⟨drafts, steps⟩, ?_, fun i hi => ?_, ⟨ms, d, hd⟩, fun j ps hps => ?_⟩
  case refine_1 =>
    unfold VeloScheduler.callModels
    simp only [hd, if_neg hlen, hv]
  case refine_2 =>
    obtain ⟨ps, hps, _⟩ := forall₂_getElem? hdrafts (getElem?_eq_getElem hi)
    have hzip : (s.active.zip drafts)[i]? = some (s.active[i], ps) :=
      getElem?_zip_eq_some.mpr ⟨getElem?_eq_getElem hi, hps⟩
    obtain ⟨vs, hvs, hle⟩ := forall₂_getElem? hsteps hzip
    exact ⟨ps, vs, hps, hvs, by simpa using hle⟩
  case refine_3 =>
    obtain ⟨req, hreq, hle⟩ := forall₂_getElem? hdrafts.flip hps
    exact ⟨req, hreq, hle.trans (min_le_right ..)⟩

theorem Iterates.moves (hδ : DraftModel.RepliesBatch δ fun r ps => ps.length ≤ r.maxTokens)
    (hτ : TargetModel.StepsBatch τ) (hphase : s.phase = .step) (hsome : DraftsSome s) (h : Iterates s t) : Moves s t := by
  have ⟨models, results, hcall, hc, ⟨_, _, hd⟩, hasked⟩ := callModels_complete hδ hτ s
  have ⟨_, _, _, hd', ps, hmem, hne⟩ := hsome
  cases hd.symm.trans hd'
  have ⟨j, hps⟩ := getElem?_of_mem hmem
  have ⟨req₀, hreq₀, hle⟩ := hasked j ps hps
  have hlt : req₀.generatedCount < req₀.maxNewTokens := by
    have := length_pos_iff.mpr hne
    omega
  have hnext : s.next .work = s.callModels := by
    rw [VeloScheduler.next, VeloScheduler.work, hphase]
  have hstart : Pursues req₀ j s.active.length results (s.next .work) := by
    rw [hnext, hcall]
    exact .going rfl hreq₀ rfl le_rfl ⟨rfl, .inl j.zero_le⟩
  have ht := h.left.invariant hstart fun u a hu _ hphase => hu.next hc ⟨ps, hps, hne⟩ hphase
  cases ht
  case panicked hp => cases h.right.symm.trans hp
  case ended hlt _ => exact .inl hlt
  case going req hn hj hclient _ hp =>
    rw [h.right] at hp
    exact .inr ⟨j, req₀, req, hreq₀, hj, hclient, hlt, hp⟩

-- The step comes to its end, when only the worker goes on.

-- A step of the worker, before the commands are looked at
def Within (u : VeloScheduler R μ δ τ) (a : Action) : Prop :=
  u.phase.isCommands = false ∧ a.isWork = true

theorem Run.mono {P Q : VeloScheduler R μ δ τ → Action → Prop} (hpq : ∀ u a, P u a → Q u a) (h : Run P s t) : Run Q s t := by
  induction h
  case refl => exact .refl
  case step he hp hi => exact hi.step he (hpq _ _ hp)

theorem Run.work (hphase : u.phase.isCommands = false) (h : Run Within u.work t) : Run Within u t :=
  (Run.step (a := .work) .refl trivial ⟨hphase, rfl⟩).trans h

theorem work_eq_commit (h : u.phase = .commit i results) : u.work = u.commit i results := by
  rw [VeloScheduler.work, h]

theorem work_eq_send (h : u.phase = .send i accepted results) : u.work = u.send i accepted results := by
  rw [VeloScheduler.work, h]

theorem work_eq_correct (h : u.phase = .correct i results) : u.work = u.correct i results := by
  rw [VeloScheduler.work, h]

theorem work_eq_cleanup (h : u.phase = .cleanup i) : u.work = u.cleanup i := by
  rw [VeloScheduler.work, h]

theorem correct_reaches (hphase : u.phase = .correct i results) (hi : i < u.active.length) :
    ∃ t, Run Within u t ∧ t.phase = .commit (i + 1) results ∧
      t.active.length = u.active.length := by
  refine ⟨u.work, .work (by rw [hphase]; rfl) .refl, ?_⟩
  have hc := correct_corrects u i results
  rw [work_eq_correct hphase]
  generalize u.correct i results = t at hc
  cases hc
  case missing hnone _ => exact absurd (getElem?_eq_none_iff.mp hnone) (Nat.not_le.mpr hi)
  case ended heq => exact heq ▸ ⟨rfl, rfl⟩
  case corrected hactive _ _ _ _ _ hnext => exact ⟨hnext, by rw [hactive, length_set]⟩

theorem send_reaches (hphase : u.phase = .send i accepted results) (hi : i < u.active.length) :
    ∃ t, Run Within u t ∧ t.phase = .commit (i + 1) results ∧
      t.active.length = u.active.length := by
  -- Each round of the loop leaves fewer tokens to send.
  induction hn : accepted.length using Nat.strong_induction_on generalizing u accepted
  case h n hind =>
    have hs := send_sends u i accepted results
    have hrun (t : VeloScheduler R μ δ τ) : Run Within u.work t →
        Run Within u t := .work (by rw [hphase]; rfl)
    rw [work_eq_send hphase] at hrun
    generalize u.send i accepted results = v at hs hrun
    have hlater (rest : List TokenId) (hrest : rest.length < n) (hnext : v.phase = .send i rest results)
        (hlen : v.active.length = u.active.length) : ∃ t, Run Within u t ∧
          t.phase = .commit (i + 1) results ∧ t.active.length = u.active.length := by
      obtain ⟨t, ht, hp, hl⟩ := hind _ hrest hnext (hlen ▸ hi) rfl
      exact ⟨t, hrun _ ht, hp, hl.trans hlen⟩
    cases hs
    case missing hnone _ => exact absurd (getElem?_eq_none_iff.mp hnone) (Nat.not_le.mpr hi)
    case ended req _ _ heq =>
      subst heq
      by_cases hc : req.cancelled = true
      case pos => exact ⟨_, hrun _ .refl, by simp [withPhase, hc], rfl⟩
      case neg =>
        have hnext : (u.withPhase (if req.cancelled then .commit (i + 1) results else .correct i results)).phase =
            .correct i results := by simp [withPhase, hc]
        obtain ⟨t, ht, hp, hl⟩ := correct_reaches hnext hi
        exact ⟨t, hrun _ ht, hp, hl⟩
    case closed hne _ hactive _ hnext =>
      exact hlater [] (hn ▸ length_pos_iff.mpr hne) hnext (by rw [hactive, length_set])
    case sent heq hactive _ hnext =>
      exact hlater _ (by rw [← hn, heq]; exact Nat.lt_succ_self _) hnext (by rw [hactive, length_set])

theorem commit_reaches (hphase : u.phase = .commit i results) (hc : Complete results u.active.length) :
    ∃ t, Run Within u t ∧ t.phase = .cleanup 0 := by
  induction hn : u.active.length - i using Nat.strong_induction_on generalizing u i
  case h n hind =>
    have hs := commit_commits u i results
    have hrun (t : VeloScheduler R μ δ τ) : Run Within u.work t →
        Run Within u t := .work (by rw [hphase]; rfl)
    rw [work_eq_commit hphase] at hrun
    generalize u.commit i results = v at hs hrun
    have hfound {req} (hreq : u.active[i]? = some req) := hc i (List.getElem?_eq_some_iff.mp hreq).1
    cases hs
    case ended => exact ⟨_, hrun _ .refl, rfl⟩
    case missing hreq hmissing =>
      obtain ⟨_, _, hd, hv, _⟩ := hfound hreq
      simp [hd, hv] at hmissing
    case failed hreq hd hv hcommit =>
      obtain ⟨_, _, hd', hv', hlen⟩ := hfound hreq
      cases hd.symm.trans hd'
      cases hv.symm.trans hv'
      cases (SpeculativeSession.commit_eq hlen).symm.trans hcommit
    case accepted req _ _ accepted session hreq _ _ _ =>
      have hi := (List.getElem?_eq_some_iff.mp hreq).1
      have hnext : ((u.setActive i { req with session }).withPhase (.send i accepted results)).phase =
          .send i accepted results := rfl
      obtain ⟨v, hv, hnext, hlen⟩ := send_reaches hnext (by simpa [setActive, withPhase])
      have hlen : v.active.length = u.active.length := by simpa [setActive, withPhase] using hlen
      obtain ⟨t, ht, hp⟩ := hind (v.active.length - (i + 1)) (by omega) hnext (hlen ▸ hc) rfl
      exact ⟨t, hrun _ (hv.trans ht), hp⟩

omit [MemoryRuntime R] [DraftModel μ δ] [TargetModel μ τ] in
theorem cleanup_phase_ne (hphase : u.phase = .cleanup i) (hacc : Accounts False u) : (u.cleanup i).phase ≠ .panicked := by
  unfold VeloScheduler.cleanup
  split
  case h_1 => nofun
  case h_2 req hreq =>
    have ⟨pool, hrel, _⟩ := SlotPool.release_of_lt (hacc.slot_lt _ (mem_map_of_mem (mem_of_getElem? hreq)))
    dsimp only
    split
    case isFalse => nofun
    case isTrue =>
      rw [hrel]
      dsimp only
      split
      case isTrue  => simp [onClient, hphase]
      case isFalse => simp [hphase]

theorem cleanup_reaches (hphase : u.phase = .cleanup i) (hacc : Accounts False u) :
    ∃ t, Run Within u t ∧ t.phase = .commands := by
  induction hn : u.active.length - i using Nat.strong_induction_on generalizing u i
  case h n hind =>
    have hacc' := hacc.cleanup i
    have hs := cleanup_cleans u i
    have hno := cleanup_phase_ne hphase hacc
    have hrun (t : VeloScheduler R μ δ τ) : Run Within u.work t →
        Run Within u t := .work (by rw [hphase]; rfl)
    rw [work_eq_cleanup hphase] at hrun
    generalize u.cleanup i = v at hs hrun hacc' hno
    have hlater (i' : Nat) (hnext : v.phase = .cleanup i') (hlt : v.active.length - i' < n) :
        ∃ t, Run Within u t ∧ t.phase = .commands := by
      have ⟨t, ht, hp⟩ := hind _ hlt hnext hacc' rfl
      exact ⟨t, hrun _ ht, hp⟩
    cases hs
    case ended heq => exact ⟨v, hrun _ .refl, by rw [heq]; rfl⟩
    case stays hreq _ _ heq =>
      have hi := (List.getElem?_eq_some_iff.mp hreq).1
      refine hlater (i + 1) (by rw [heq]; rfl) ?_
      rw [heq]
      simp only [withPhase]
      omega
    case leaves hreq hactive _ _ _ hnext =>
      have hi := (List.getElem?_eq_some_iff.mp hreq).1
      refine hlater i ((hnext.resolve_right hno).trans hphase) ?_
      rw [hactive, length_eraseIdx, if_pos hi]
      omega

theorem exists_iterates (hδ : DraftModel.RepliesBatch δ fun r ps => ps.length ≤ r.maxTokens)
    (hτ : TargetModel.StepsBatch τ) (hphase : s.phase = .step) (hacc : Accounts False s) : ∃ t, Iterates s t := by
  obtain ⟨models, results, hcall, hc, _⟩ := callModels_complete hδ hτ s
  have hacc' := hacc.next (a := .work) fun p => p.elim
  have hnext : s.next .work = s.callModels := by
    rw [VeloScheduler.next, VeloScheduler.work, hphase]
  rw [hnext, hcall] at hacc'
  have hcommit : { s with machine := { s.machine with models }, phase := Phase.commit 0 results }.phase =
      .commit 0 results := rfl
  obtain ⟨u, hu, hup⟩ := commit_reaches hcommit hc
  have hacc'' : Accounts False u := hu.invariant hacc' fun _ _ h _ _ => h.next fun p => p.elim
  obtain ⟨t, ht, htp⟩ := cleanup_reaches hup hacc''
  exact ⟨t, by rw [Iterates, hnext, hcall]; exact ⟨(hu.trans ht).mono fun _ _ hw => hw.left, htp⟩⟩

-- A round of the batch gets on just when a draft has a token, and where all rounds do, the loop ends after at most as
-- many of them as tokens are asked for. A step of the scheduler in which a draft has a token gets on as well, and
-- `generate` always ends.
theorem generation_progresses [CfgMatcher μ] (hδ : DraftModel.RepliesBatch δ fun r ps => ps.length ≤ r.maxTokens)
    (hτ : TargetModel.StepsBatch τ) :
    (∀ draftWindow active (m : Models δ τ), active.any (·.unfinished) → ∃ drafts steps active' m',
      VeloEngine.Answered draftWindow active m drafts steps ∧
      VeloEngine.round draftWindow active m = (.ok (.inl active'), m') ∧
      (VeloEngine.Progresses active active' ↔ ∃ predictions ∈ drafts, predictions ≠ [])) ∧
    (∀ fuel reqs (m : Machine R μ δ τ) active e models, VeloEngine.prepareAll reqs m.engine = (.ok active, e) →
      VeloEngine.bindAll active m.models = (.ok (), models) → m.DraftsSome reqs →
      (reqs.map (·.maxNewTokens)).sum < fuel → ∃ active' m', Machine.decode fuel reqs m = (.ok active', m')) ∧
    (∀ (m : Machine R μ δ τ) s, Run (fun _ _ => True) (start m) s → s.phase = .step → DraftsSome s →
      (∃ t, Iterates s t) ∧ ∀ t, Iterates s t → Moves s t) ∧
    (DraftModel.Replies δ → TargetModel.Steps τ → ∀ fuel decoder prompt n (m : Models δ τ), n < fuel →
      ∃ out m', SpeculativeDecoder.generate fuel decoder prompt n m = (.ok out, m')) := by
  refine ⟨fun w active m hu => VeloEngine.round_progresses_iff w hδ hτ hu m,
    fun _ _ _ _ _ _ hp hb hsome hfuel => Machine.decode_isOk hδ hτ hp hb hsome hfuel, fun m s h hphase hsome => ?_,
    fun hd ht _ decoder prompt _ m hfuel => decoder.generate_isOk hd ht prompt m hfuel⟩
  have hacc : Accounts False s := h.invariant (serving_start (f := fun _ => 0) m).accounts
    fun _ _ ht _ _ => ht.next fun p => p.elim
  exact ⟨exists_iterates hδ hτ hphase hacc, fun t ht => ht.moves hδ hτ hphase hsome⟩

-- A draft of one token at a time.
theorem generation_progresses_one : ∃ e : VeloEngine CpuMemoryRuntime Empty, VeloEngine.new ⟨2, ⟨1, 4, 8, 2⟩⟩ = .ok e ∧
    let m : Machine CpuMemoryRuntime Empty _ _ := ⟨e, ⟨(⟨⟩ : Drafter List.sum (min 1)), (⟨0⟩ : Oracle List.sum)⟩⟩
    (∃ active' m', Machine.decode 6 [⟨[1, 2], 3, none⟩, ⟨[3], 2, none⟩] m = (.ok active', m')) ∧
      (∃ s, Run (fun _ _ => True) (start m) s ∧ s.phase = .step ∧ (∃ t, Iterates s t) ∧ ∀ t, Iterates s t → Moves s t) ∧
      ∃ out m', SpeculativeDecoder.generate 4 e.decoder [1, 2] 3 m.models = (.ok out, m') := by
  obtain ⟨e, he, hok⟩ : ∃ e : VeloEngine CpuMemoryRuntime Empty, VeloEngine.new ⟨2, ⟨1, 4, 8, 2⟩⟩ = .ok e ∧
      let m : Machine CpuMemoryRuntime Empty _ _ := ⟨e, ⟨(⟨⟩ : Drafter List.sum (min 1)), (⟨0⟩ : Oracle List.sum)⟩⟩
      let s := ([Action.submit [1, 2] 3] ++ replicate 6 Action.work).foldl next (start m)
      (VeloEngine.prepareAll [⟨[1, 2], 3, none⟩, ⟨[3], 2, none⟩] e).1.toBool = true ∧
        Traced (fun _ _ => True) (start m) ([.submit [1, 2] 3] ++ replicate 6 .work) ∧ s.phase.isStep = true ∧
        (DraftModel.draftBatch (draftRequests s.machine.engine.decoder.draftWindow s.active)
          s.machine.models.draft).1.toOption = some [[⟨3⟩]] :=
    ⟨_, rfl, by decide +kernel⟩
  refine ⟨e, he, ?_⟩
  intro m
  have hδ : DraftModel.RepliesBatch (Drafter List.sum (min 1)) fun r ps => ps.length = min 1 r.maxTokens :=
    Drafter.repliesBatch
  have hall := generation_progresses (R := CpuMemoryRuntime) (hδ.mono fun r ps h => h ▸ min_le_right ..)
    (Oracle.stepsBatch (f := List.sum))
  refine ⟨?_, ?_, ?_⟩
  case refine_1 =>
    have hsome : m.DraftsSome [⟨[1, 2], 3, none⟩, ⟨[3], 2, none⟩] :=
      .of_repliesBatch (hδ.mono fun r ps h hpos => length_pos_iff.mp (by omega))
    rcases hp : VeloEngine.prepareAll [⟨[1, 2], 3, none⟩, ⟨[3], 2, none⟩] e with ⟨_ | active, e'⟩
    case error => simp [hp, Except.toBool] at hok
    case ok =>
      obtain ⟨_, models, hb, _⟩ : Eff.Returns (VeloEngine.bindAll active) m.models fun _ _ => True :=
        VeloEngine.bindAll_returns Drafter.binds Oracle.binds m.models
      exact hall.right.left 6 _ m active e' models hp hb hsome (by decide)
  case refine_2 =>
    have hrun := Traced.run (P := fun _ _ => True) (s := start m) _ hok.right.left
    have hphase := Phase.eq_step_of_isStep hok.right.right.left
    refine ⟨_, hrun, hphase, hall.right.right.left m _ hrun hphase ?_⟩
    have hdraft := hok.right.right.right
    generalize [Action.submit [1, 2] 3] ++ replicate 6 Action.work = as at hdraft
    rcases hd : DraftModel.draftBatch (draftRequests (as.foldl next (start m)).machine.engine.decoder.draftWindow
        (as.foldl next (start m)).active) (as.foldl next (start m)).machine.models.draft with ⟨_ | drafts, ms, d⟩
    case error => simp [m, hd, Except.toOption] at hdraft
    case ok =>
      have : drafts = [[⟨3⟩]] := by simpa [m, hd, Except.toOption] using hdraft
      exact ⟨drafts, ms, d, hd, [⟨3⟩], by simp [this], cons_ne_nil _ _⟩
  case refine_3 =>
    exact hall.right.right.right (Drafter.replies (min_le_right 1)) Oracle.steps 4 e.decoder _ 3 m.models (by decide)

-- A draft model that has no token. The batch goes on for ever, and a step of the scheduler changes nothing.
theorem exists_no_progress : ∃ e : VeloEngine CpuMemoryRuntime Empty, VeloEngine.new ⟨2, ⟨1, 4, 8, 2⟩⟩ = .ok e ∧
    let m : Machine CpuMemoryRuntime Empty _ _ := ⟨e, ⟨(⟨⟩ : Drafter List.sum fun _ => 0), (⟨0⟩ : Oracle List.sum)⟩⟩
    (∀ fuel, (Machine.generateBatch fuel [⟨[1], 1, none⟩] m).1 = .error .unfinished) ∧
      ∃ s t, Run (fun _ _ => True) (start m) s ∧ s.phase = .step ∧ Iterates s t ∧ ¬Moves s t := by
  obtain ⟨e, he, hok⟩ : ∃ e : VeloEngine CpuMemoryRuntime Empty, VeloEngine.new ⟨2, ⟨1, 4, 8, 2⟩⟩ = .ok e ∧
      let m : Machine CpuMemoryRuntime Empty _ _ := ⟨e, ⟨(⟨⟩ : Drafter List.sum fun _ => 0), (⟨0⟩ : Oracle List.sum)⟩⟩
      let s := ([Action.submit [1] 1] ++ replicate 6 Action.work).foldl next (start m)
      let t := (replicate 6 Action.work).foldl next (s.next .work)
      ((VeloEngine.prepareAll [⟨[1], 1, none⟩] e).1.toOption.map fun active => active.any (·.unfinished)) = some true ∧
        Traced (fun _ _ => True) (start m) ([.submit [1] 1] ++ replicate 6 .work) ∧ s.phase.isStep = true ∧
        Traced (fun u _ => u.phase.isCommands = false) (s.next .work) (replicate 6 .work) ∧ t.phase.isCommands = true ∧
        s.active.map (·.generatedCount) = [0] ∧ t.active.map (·.generatedCount) = [0] :=
    ⟨_, rfl, by decide +kernel⟩
  refine ⟨e, he, ?_⟩
  intro m
  obtain ⟨hprepared, hrun, hphase, hiterates, hcommands, hs, ht⟩ := hok
  refine ⟨fun fuel => ?_, _, _, Traced.run _ hrun, Phase.eq_step_of_isStep hphase,
    ⟨Traced.run _ hiterates, Phase.eq_commands_of_isCommands hcommands⟩, fun hmoves => ?_⟩
  case refine_1 =>
    rcases hp : VeloEngine.prepareAll [⟨[1], 1, none⟩] e with ⟨_ | active, e'⟩
    case error => simp [hp, Except.toOption] at hprepared
    case ok =>
      obtain ⟨_, models, hb, _⟩ : Eff.Returns (VeloEngine.bindAll active) m.models fun _ _ => True :=
        VeloEngine.bindAll_returns Drafter.binds Oracle.binds m.models
      have hδ : DraftModel.RepliesBatch (Drafter List.sum fun _ => 0) fun r ps => ps.length = 0 := Drafter.repliesBatch
      refine Machine.generateBatch_unfinished (hδ.mono fun _ _ => length_eq_zero_iff.mp) Oracle.stepsBatch hp hb ?_ fuel
      simpa [hp, Except.toOption] using hprepared
  case refine_2 =>
    rcases hmoves with hlt | ⟨j, req, req', hreq, hreq', _, _, hlt⟩
    case inl =>
      have hs := congrArg length hs
      have ht := congrArg length ht
      rw [length_map] at hs ht
      exact absurd (hs.trans ht.symm) hlt.ne'
    case inr =>
      have hs := (congrArg (·[j]?) hs).symm.trans (getElem?_map.trans (congrArg (Option.map (·.generatedCount)) hreq))
      have ht := (congrArg (·[j]?) ht).symm.trans (getElem?_map.trans (congrArg (Option.map (·.generatedCount)) hreq'))
      exact hlt.ne (Option.some.inj (hs.symm.trans ht))

end Iteration
end VeloScheduler
