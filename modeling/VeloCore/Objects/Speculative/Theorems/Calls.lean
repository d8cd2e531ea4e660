import VeloCore.Objects.Speculative.Decoder
import VeloCore.Objects.Speculative.Theorems.Batch
import VeloCore.Objects.Speculative.Theorems.Session
import VeloCore.Primitives.Steps

open List

namespace SpeculativeSession

variable {μ δ τ : Type} [DraftModel μ δ] [TargetModel μ τ] {s s' : SpeculativeSession}

-- What a call with the result `r` that made `s'` of `s` has logged. A call that drafts nothing sets no token.
def logged (s : SpeculativeSession) (r : Except SpeculativeError (List TokenId)) (s' : SpeculativeSession) : List TokenId :=
  match r with
  | .error _     => []
  | .ok accepted =>
    accepted ++ if s.stats.draftedTokens < s'.stats.draftedTokens then s'.rejectedToken.toList else []

-- A call on a session. A draft comes with the models as they are at that time.
inductive Call (δ τ : Type)
  | draft (maxNewTokens : Nat) (models : Models δ τ)
  | commit (drafted : List NextTokenPrediction) (verified : List VerifyStep)
  | takeRejectedToken

namespace Call

def result (s : SpeculativeSession) : Call δ τ → Except SpeculativeError (List TokenId)
  | draft maxNewTokens models => (s.draft maxNewTokens models).1
  | commit drafted verified   => (s.commit drafted verified).1
  | takeRejectedToken         => .ok []

def next (s : SpeculativeSession) : Call δ τ → SpeculativeSession
  | draft maxNewTokens models => (s.draft maxNewTokens models).2.1
  | commit drafted verified   => (s.commit drafted verified).2
  | takeRejectedToken         => s.takeRejectedToken.2

-- The tokens that are returned as accepted or set as the corrected token
def log (s : SpeculativeSession) (c : Call δ τ) : List TokenId :=
  logged s (c.result s) (c.next s)

end Call

-- What the draft model answers to `draft`, and what the target model answers to that
section Answers

variable (s : SpeculativeSession) (maxNewTokens : Nat) (m : Models δ τ)

def predictions : Except SpeculativeError (List NextTokenPrediction) :=
  (DraftModel.draft s.context (min maxNewTokens s.draftWindow) none m.draft).1

def verification (predictions : List NextTokenPrediction) : Except SpeculativeError (List VerifyStep) :=
  (TargetModel.verify s.context (predictions.map (·.token)) none m.target).1

end Answers

-- The ways in which a call to `draft` can end
inductive Drafts (s : SpeculativeSession) (maxNewTokens : Nat) (m : Models δ τ) :
    Except SpeculativeError (List TokenId) → SpeculativeSession → Prop
  | failed (h : s.predictions maxNewTokens m = .error e) : Drafts s maxNewTokens m (.error e) s
  | tooMany (h : s.predictions maxNewTokens m = .ok ps) (hlen : min maxNewTokens s.draftWindow < ps.length) :
    Drafts s maxNewTokens m (.error (.draftReturnedTooMany (min maxNewTokens s.draftWindow) ps.length)) s.recordDraftCall
  | empty (h : s.predictions maxNewTokens m = .ok []) : Drafts s maxNewTokens m (.ok []) s.recordDraftCall
  | refused (h : s.predictions maxNewTokens m = .ok ps) (hne : ps ≠ []) (hlen : ps.length ≤ min maxNewTokens s.draftWindow)
    (hv : s.verification m ps = .error e) :
    Drafts s maxNewTokens m (.error e) (s.recordDraftCall.recordDrafted ps.length)
  | mismatched (h : s.predictions maxNewTokens m = .ok ps) (hne : ps ≠ [])
    (hlen : ps.length ≤ min maxNewTokens s.draftWindow) (hv : s.verification m ps = .ok verified)
    (hvl : verified.length ≠ ps.length) :
    Drafts s maxNewTokens m (.error (.targetReturnedWrongLength ps.length verified.length))
      (s.recordDraftCall.recordDrafted ps.length).recordTargetCall
  | verified (h : s.predictions maxNewTokens m = .ok ps) (hne : ps ≠ []) (hlen : ps.length ≤ min maxNewTokens s.draftWindow)
    (hv : s.verification m ps = .ok verified) (hvl : verified.length = ps.length) :
    Drafts s maxNewTokens m
      (.ok ((s.recordDraftCall.recordDrafted ps.length).recordTargetCall.resolve (ps.map (·.token)) verified).1)
      ((s.recordDraftCall.recordDrafted ps.length).recordTargetCall.resolve (ps.map (·.token)) verified).2

theorem draft_drafts (s : SpeculativeSession) (maxNewTokens : Nat) (m : Models δ τ) :
    Drafts s maxNewTokens m (s.draft maxNewTokens m).1 (s.draft maxNewTokens m).2.1 := by
  unfold draft
  dsimp only
  split
  case h_1 e _ _ h => exact .failed (congrArg Prod.fst h)
  case h_2 ps _ _ h =>
    have h : s.predictions maxNewTokens m = .ok ps := congrArg Prod.fst h
    split
    case isTrue hlen => exact .tooMany h hlen
    case isFalse hlen =>
      split
      case isTrue hempty => exact .empty (isEmpty_iff.mp hempty ▸ h)
      case isFalse hempty =>
        have hne : ps ≠ [] := fun he => hempty (isEmpty_iff.mpr he)
        rw [length_map]
        split
        case h_1 e _ _ hv => exact .refused h hne (not_lt.mp hlen) (congrArg Prod.fst hv)
        case h_2 verified _ _ hv =>
          have hv : s.verification m ps = .ok verified := congrArg Prod.fst hv
          split
          case isTrue hvl  => exact .mismatched h hne (not_lt.mp hlen) hv hvl
          case isFalse hvl => exact .verified h hne (not_lt.mp hlen) hv (not_not.mp hvl)


section Resolve

variable {drafted : List TokenId} {verified : List VerifyStep}

@[simp] theorem accept_draftedTokens : (s.accept l).stats.draftedTokens = s.stats.draftedTokens := by
  unfold accept; split <;> rfl

@[simp] theorem accept_rejectedTokens : (s.accept l).stats.rejectedTokens = s.stats.rejectedTokens := by
  unfold accept; split <;> rfl

@[simp] theorem accept_acceptedTokens : (s.accept l).stats.acceptedTokens = s.stats.acceptedTokens + l.length := by
  unfold accept; split <;> simp_all

@[simp] theorem accept_maxWindow : (s.accept l).maxWindow = s.maxWindow := by
  unfold accept; split <;> rfl

@[simp] theorem reject_draftedTokens : (s.reject n r).stats.draftedTokens = s.stats.draftedTokens := by
  unfold reject; split <;> rfl

@[simp] theorem reject_acceptedTokens : (s.reject n r).stats.acceptedTokens = s.stats.acceptedTokens := by
  unfold reject; split <;> rfl

@[simp] theorem reject_rejectedTokens : (s.reject n r).stats.rejectedTokens =
    s.stats.rejectedTokens + ((r.map fun r => n - r.1).getD 0) := by
  unfold reject; split <;> simp

@[simp] theorem reject_maxWindow : (s.reject n r).maxWindow = s.maxWindow := by
  unfold reject; split <;> rfl

@[simp] theorem adjustWindow_maxWindow : (s.adjustWindow a d).maxWindow = s.maxWindow := by
  unfold adjustWindow; split <;> (try split) <;> rfl

-- The number of leading tokens that the target agrees with
def agreed (drafted : List TokenId) (verified : List VerifyStep) : Nat :=
  commonPrefixLen drafted (verified.map (·.expected))

theorem agreed_le : agreed drafted verified ≤ drafted.length :=
  commonPrefixLen_le_left

theorem resolve_draftedTokens : (s.resolve drafted verified).2.stats.draftedTokens = s.stats.draftedTokens := by
  simp [resolve]

theorem resolve_maxWindow : (s.resolve drafted verified).2.maxWindow = s.maxWindow := by
  simp [resolve]

-- Each token of the draft is either accepted or rejected.
theorem resolve_balance (h : verified.length = drafted.length) :
    (s.resolve drafted verified).2.stats.acceptedTokens + (s.resolve drafted verified).2.stats.rejectedTokens =
      s.stats.acceptedTokens + s.stats.rejectedTokens + drafted.length := by
  have hle : agreed drafted verified ≤ drafted.length := agreed_le
  simp only [resolve, compare_eq h, ← agreed.eq_def, adjustWindow_stats, reject_acceptedTokens, reject_rejectedTokens,
    accept_acceptedTokens, accept_rejectedTokens, Nat.zero_add, length_take, Option.map_map]
  by_cases hlt : agreed drafted verified < drafted.length
  case pos =>
    rw [getElem?_eq_getElem (h ▸ hlt)]
    simp only [Option.map_some, Option.getD_some, Function.comp]
    omega
  case neg =>
    rw [getElem?_eq_none (h ▸ not_lt.mp hlt)]
    simp only [Option.map_none, Option.getD_none]
    omega

theorem resolve_window (h : verified.length = drafted.length) :
    (s.resolve drafted verified).2.draftWindow =
      if agreed drafted verified = drafted.length then
        if s.draftWindow < s.maxWindow then s.draftWindow + 1 else s.draftWindow
      else agreed drafted verified + 1 := by
  simp only [resolve, compare_eq h, ← agreed.eq_def, Nat.zero_add, adjustWindow]
  split
  case isTrue  => simp only [reject_draftWindow, accept_draftWindow, reject_maxWindow, accept_maxWindow]; split <;> simp
  case isFalse => simp

end Resolve

section Accounting

-- The fields that an error must leave as they are
def core (s : SpeculativeSession) : List TokenId × Nat × Option TokenId × Nat × Nat × Nat :=
  (s.context, s.draftWindow, s.rejectedToken, s.stats.draftedTokens, s.stats.acceptedTokens, s.stats.rejectedTokens)

def Balanced (s : SpeculativeSession) : Prop :=
  s.stats.acceptedTokens + s.stats.rejectedTokens = s.stats.draftedTokens

namespace Call

-- A session with all that its calls have logged
def run (v : SpeculativeSession × List TokenId) (c : Call δ τ) : SpeculativeSession × List TokenId :=
  (c.next v.1, v.2 ++ c.log v.1)

-- After the call the accounts are right, and an error has left them alone.
def Accounted (prompt : List TokenId) (v : SpeculativeSession × List TokenId) (c : Call δ τ) : Prop :=
  Balanced (run v c).1 ∧ (run v c).1.context = prompt ++ (run v c).2 ∧
    ∀ e, c.result v.1 = .error e → core (run v c).1 = core v.1

-- Whatever is drafted is verified.
def Verifies (v : SpeculativeSession × List TokenId) : Call δ τ → Prop
  | draft maxNewTokens m => ∀ ps, v.1.predictions maxNewTokens m = .ok ps → ps ≠ [] →
      ps.length ≤ min maxNewTokens v.1.draftWindow →
        ∃ verified, v.1.verification m ps = .ok verified ∧ verified.length = ps.length
  | commit _ _ | takeRejectedToken => True

end Call

variable {prompt : List TokenId} {v : SpeculativeSession × List TokenId}

-- The accounts before a call
def Sound (prompt : List TokenId) (v : SpeculativeSession × List TokenId) : Prop :=
  Balanced v.1 ∧ v.1.context = prompt ++ v.2

theorem Sound.resolve {drafted : List TokenId} {verified : List VerifyStep} (hv : Sound prompt v)
    (hc : s.context = v.1.context) (hd : s.stats.draftedTokens = v.1.stats.draftedTokens + drafted.length)
    (ha : s.stats.acceptedTokens = v.1.stats.acceptedTokens) (hr : s.stats.rejectedTokens = v.1.stats.rejectedTokens)
    (h : verified.length = drafted.length) :
    Sound prompt ((s.resolve drafted verified).2, v.2 ++ ((s.resolve drafted verified).1 ++
      if v.1.stats.draftedTokens < (s.resolve drafted verified).2.stats.draftedTokens then
        (s.resolve drafted verified).2.rejectedToken.toList else [])) := by
  have hb := resolve_balance (s := s) h
  refine ⟨?_, ?_⟩
  case refine_1 =>
    have hv := hv.left
    rw [Balanced] at hv ⊢
    rw [hb, resolve_draftedTokens, ha, hr, hd, hv]
  case refine_2 =>
    have hlog : (if v.1.stats.draftedTokens < (s.resolve drafted verified).2.stats.draftedTokens then
        (s.resolve drafted verified).2.rejectedToken.toList else []) = (s.resolve drafted verified).2.rejectedToken.toList := by
      rw [resolve_draftedTokens, hd]
      cases drafted
      case nil =>
        cases length_eq_zero_iff.mp h
        simp [SpeculativeSession.resolve, compare]
      case cons => simp
    rw [hlog]
    change (s.resolve drafted verified).2.context = _
    rw [resolve_context, hc, hv.right, emitted, append_assoc]

-- A call that only counts itself changes no account.
theorem Sound.still (hv : Sound prompt v) (hs : core s = core v.1) : Sound prompt (s, v.2 ++ []) := by
  simp only [core, Prod.mk.injEq] at hs
  have ⟨hc, _, _, hd, ha, hr⟩ := hs
  refine ⟨?_, ?_⟩
  case refine_1 => rw [Balanced, ha, hr, hd]; exact hv.left
  case refine_2 => rw [append_nil, hc]; exact hv.right

theorem draft_accounted_iff (hv : Sound prompt v) (maxNewTokens : Nat) (m : Models δ τ) :
    (Call.draft maxNewTokens m).Accounted prompt v ↔ (Call.draft maxNewTokens m).Verifies v := by
  have hd := draft_drafts v.1 maxNewTokens m
  simp only [Call.Accounted, Call.run, Call.next, Call.log, Call.result, Call.Verifies]
  generalize (v.1.draft maxNewTokens m).1 = r, (v.1.draft maxNewTokens m).2.1 = s at hd ⊢
  cases hd
  case failed h =>
    exact iff_of_true ⟨(hv.still rfl).left, (hv.still rfl).right, fun _ _ => rfl⟩ fun ps hps => by cases h.symm.trans hps
  case tooMany h hlen =>
    refine iff_of_true ⟨(hv.still rfl).left, (hv.still rfl).right, fun _ _ => rfl⟩ fun ps hps _ hle => ?_
    cases h.symm.trans hps
    exact absurd hle hlen.not_ge
  case empty h =>
    have hs : Sound prompt (v.1.recordDraftCall, v.2 ++ []) := hv.still rfl
    refine iff_of_true ⟨hs.left, by simpa [logged, recordDraftCall] using hs.right, nofun⟩ fun ps hps hne => ?_
    cases h.symm.trans hps
    exact absurd rfl hne
  case refused ps e h hne hlen hverify =>
    refine iff_of_false (fun ha => ?_) fun hver => ?_
    case refine_1 =>
      have hcore := ha.right.right e rfl
      simp [core, recordDrafted, recordDraftCall, hne] at hcore
    case refine_2 =>
      have ⟨verified, hok, _⟩ := hver ps h hne hlen
      cases hverify.symm.trans hok
  case mismatched ps verified h hne hlen hverify hvl =>
    refine iff_of_false (fun ha => ?_) fun hver => ?_
    case refine_1 =>
      have hcore := ha.right.right _ rfl
      simp [core, recordDrafted, recordDraftCall, recordTargetCall, hne] at hcore
    case refine_2 =>
      have ⟨verified', hok, hl⟩ := hver ps h hne hlen
      cases hverify.symm.trans hok
      exact hvl hl
  case verified ps verified h hne hlen hverify hvl =>
    have hl : verified.length = (ps.map (·.token)).length := by rw [length_map, hvl]
    have hs := hv.resolve (s := (v.1.recordDraftCall.recordDrafted ps.length).recordTargetCall) rfl
      (by simp [recordDrafted, recordDraftCall, recordTargetCall]) rfl rfl hl
    refine iff_of_true ⟨hs.left, hs.right, nofun⟩ fun ps' hps' _ _ => ?_
    cases h.symm.trans hps'
    exact ⟨verified, hverify, hvl⟩

theorem commit_accounted (hv : Sound prompt v) (drafted : List NextTokenPrediction) (verified : List VerifyStep) :
    (Call.commit drafted verified : Call δ τ).Accounted prompt v := by
  simp only [Call.Accounted, Call.run, Call.next, Call.log, Call.result]
  by_cases h : verified.length = drafted.length
  case pos =>
    rw [commit_eq h]
    have hl : verified.length = (drafted.map (·.token)).length := by rw [length_map, h]
    have hs := hv.resolve (s := v.1.recordDrafted drafted.length) rfl (by simp [recordDrafted]) rfl rfl hl
    exact ⟨hs.left, hs.right, nofun⟩
  case neg =>
    rw [commit, if_pos h]
    exact ⟨(hv.still rfl).left, (hv.still rfl).right, fun _ _ => rfl⟩

theorem accounted_iff (hv : Sound prompt v) (c : Call δ τ) : c.Accounted prompt v ↔ c.Verifies v := by
  cases c
  case draft maxNewTokens m    => exact draft_accounted_iff hv maxNewTokens m
  case commit drafted verified => exact iff_of_true (commit_accounted hv drafted verified) trivial
  case takeRejectedToken       =>
    refine iff_of_true ⟨hv.left, ?_, nofun⟩ trivial
    simpa [Call.run, Call.log, logged, Call.result, Call.next, takeRejectedToken] using hv.right

-- The accounts of a session are right after every call, and untouched by errors, if and only if every draft is verified.
theorem accounted_iff_verified (decoder : SpeculativeDecoder) (prompt : List TokenId) (calls : List (Call δ τ)) :
    Steps.Along Call.run (Call.Accounted prompt) (decoder.begin prompt, []) calls ↔
      Steps.Along Call.run Call.Verifies (decoder.begin prompt, []) calls := by
  have hs : Sound prompt (decoder.begin prompt, []) := ⟨rfl, (append_nil prompt).symm⟩
  refine Steps.along_iff_along (P := fun _ _ => True) (Steps.Along.of_forall fun _ _ => trivial) hs
    (fun v c hv _ => accounted_iff hv c) fun v c hv _ hc => ?_
  have ha := (accounted_iff hv c).mpr hc
  exact ⟨ha.left, ha.right.left⟩

-- The target model fails, and the token that it was to verify stays counted.
theorem not_accounted :
    ¬∀ (decoder : SpeculativeDecoder) (prompt : List TokenId)
      (calls : List (Call (Guesser fun _ => 0) (Poisoned (fun _ => 0) fun _ => true))),
      Steps.Along Call.run (Call.Accounted prompt) (decoder.begin prompt, []) calls := by
  intro h
  have hone := (h ⟨1, 2, one_pos⟩ [] [.draft 1 ⟨{}, {}⟩]).left.left
  have hstats : (Call.run ((SpeculativeDecoder.mk 1 2 one_pos).begin [], [])
      (.draft 1 ⟨{}, {}⟩ : Call (Guesser fun _ => 0) (Poisoned (fun _ => 0) fun _ => true))).1.stats =
        { draftCalls := 1, draftedTokens := 1 } := by decide
  rw [Balanced, hstats] at hone
  exact absurd hone (by decide)

end Accounting

section Window

-- The number of tokens that are accepted before the first rejection, if there is one
def acceptedAtRejection (drafted : List TokenId) (verified : List VerifyStep) : Option Nat :=
  if agreed drafted verified < drafted.length then some (agreed drafted verified) else none

def InWindow (s : SpeculativeSession) : Prop :=
  1 ≤ s.currentWindow ∧ s.currentWindow ≤ s.maxWindow

theorem resolve_inWindow_iff {drafted : List TokenId} {verified : List VerifyStep} (hs : 0 < s.draftWindow)
    (h : verified.length = drafted.length) :
    InWindow (s.resolve drafted verified).2 ↔
      (acceptedAtRejection drafted verified).elim (s.draftWindow ≤ s.maxWindow) (· < s.maxWindow) := by
  have hle : agreed drafted verified ≤ drafted.length := agreed_le
  rw [InWindow, currentWindow, resolve_window h, resolve_maxWindow, acceptedAtRejection]
  by_cases hall : agreed drafted verified = drafted.length
  case pos =>
    rw [if_pos hall, if_neg (not_lt.mpr hall.ge), Option.elim_none]
    split <;> omega
  case neg =>
    rw [if_neg hall, if_pos (lt_of_le_of_ne hle hall), Option.elim_some]
    omega

namespace Call

def acceptedAtRejection (s : SpeculativeSession) : Call δ τ → Option Nat
  | draft maxNewTokens m =>
    match s.predictions maxNewTokens m with
    | .error _ => none
    | .ok ps   =>
      match s.verification m ps with
      | .error _     => none
      | .ok verified =>
        if ps.length ≤ min maxNewTokens s.draftWindow ∧ verified.length = ps.length then
          SpeculativeSession.acceptedAtRejection (ps.map (·.token)) verified
        else
          none
  | commit drafted verified =>
    if verified.length = drafted.length then
      SpeculativeSession.acceptedAtRejection (drafted.map (·.token)) verified
    else
      none
  | takeRejectedToken => none

-- A call that rejects a token has accepted fewer than `max_window` tokens before it. Any other call finds a window of
-- at most that size.
def Fits (s : SpeculativeSession) (c : Call δ τ) : Prop :=
  (c.acceptedAtRejection s).elim (s.draftWindow ≤ s.maxWindow) (· < s.maxWindow)

end Call

-- A call that leaves the window alone
theorem still_inWindow_iff {c : Call δ τ} (hs : 0 < s.draftWindow) (hw : s'.draftWindow = s.draftWindow)
    (hm : s'.maxWindow = s.maxWindow) (hc : c.acceptedAtRejection s = none) : InWindow s' ↔ c.Fits s := by
  rw [InWindow, currentWindow, hw, hm, Call.Fits, hc, Option.elim_none]
  exact and_iff_right hs

theorem next_inWindow_iff (hs : 0 < s.draftWindow) (c : Call δ τ) : InWindow (c.next s) ↔ c.Fits s := by
  cases c
  case takeRejectedToken => exact still_inWindow_iff hs rfl rfl rfl
  case commit drafted verified =>
    rw [Call.next]
    by_cases h : verified.length = drafted.length
    case neg =>
      rw [commit, if_pos h]
      exact still_inWindow_iff hs rfl rfl (if_neg h)
    case pos =>
      have hl : verified.length = (drafted.map (·.token)).length := by rw [length_map, h]
      rw [commit_eq h, Call.Fits, Call.acceptedAtRejection, if_pos h]
      exact resolve_inWindow_iff (s := s.recordDrafted drafted.length) hs hl
  case draft maxNewTokens m =>
    have hd := draft_drafts s maxNewTokens m
    rw [Call.next]
    generalize (s.draft maxNewTokens m).1 = r, (s.draft maxNewTokens m).2.1 = s' at hd ⊢
    cases hd
    case failed h => exact still_inWindow_iff hs rfl rfl (by simp only [Call.acceptedAtRejection, h])
    case tooMany h hlen =>
      refine still_inWindow_iff hs rfl rfl ?_
      simp only [Call.acceptedAtRejection, h, hlen.not_ge, false_and, if_false]
      split <;> rfl
    case empty h =>
      refine still_inWindow_iff hs rfl rfl ?_
      simp only [Call.acceptedAtRejection, h, SpeculativeSession.acceptedAtRejection, map_nil, length_nil, Nat.not_lt_zero,
        if_false, ite_self]
      split <;> rfl
    case refused h _ _ hv => exact still_inWindow_iff hs rfl rfl (by simp only [Call.acceptedAtRejection, h, hv])
    case mismatched h _ _ hv hvl =>
      exact still_inWindow_iff hs rfl rfl (by simp only [Call.acceptedAtRejection, h, hv, hvl, and_false, if_false])
    case verified ps verified h _ hlen hv hvl =>
      have hl : verified.length = (ps.map (·.token)).length := by rw [length_map, hvl]
      simp only [Call.Fits, Call.acceptedAtRejection, h, hv]
      rw [if_pos ⟨hlen, hvl⟩]
      exact resolve_inWindow_iff (s := (s.recordDraftCall.recordDrafted ps.length).recordTargetCall) hs hl

-- The window of a session is in its range after every call if and only if every call fits.
theorem inWindow_iff_fit (decoder : SpeculativeDecoder) (prompt : List TokenId) (calls : List (Call δ τ)) :
    Steps.Along (fun s c => c.next s) (fun s c => InWindow (c.next s)) (decoder.begin prompt) calls ↔
      Steps.Along (fun s c => c.next s) (fun s c => c.Fits s) (decoder.begin prompt) calls :=
  Steps.along_iff_along (I := (0 < ·.draftWindow)) (P := fun _ _ => True) (Steps.Along.of_forall fun _ _ => trivial)
    decoder.draftWindow_pos (fun _ c hs _ => next_inWindow_iff hs c) fun _ c hs _ hc =>
      ((next_inWindow_iff hs c).mpr hc).left

-- A rejection after five accepted tokens makes the window six, whatever its maximum.
theorem not_inWindow :
    ¬∀ (decoder : SpeculativeDecoder) (prompt : List TokenId)
      (calls : List (Call (Guesser fun _ => 0) (Oracle fun _ => 0))),
      SpeculativeDecoder.withMaxWindow 1 2 = .ok decoder →
        Steps.Along (fun s c => c.next s) (fun s c => InWindow (c.next s)) (decoder.begin prompt) calls := by
  intro h
  have hone := (h ⟨1, 2, one_pos⟩ [] [.commit (replicate 6 ⟨0⟩) (replicate 5 ⟨0⟩ ++ [⟨1⟩])] rfl).left.right
  exact absurd hone (by decide)

end Window

end SpeculativeSession
