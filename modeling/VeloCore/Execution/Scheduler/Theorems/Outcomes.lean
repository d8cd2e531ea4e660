import VeloCore.Execution.Scheduler.Theorems.Stream

open List

-- What a client has got so far, and how much it asked for.
def Client.share (c : Client) : List TokenId × Nat :=
  (c.tokens, c.maxNewTokens)

-- A client gets these tokens.
def Client.receive (tokens : List TokenId) (c : Client) : Client :=
  { c with tokens := c.tokens ++ tokens }

namespace VeloScheduler

variable {R μ δ τ : Type} {s s' : VeloScheduler R μ δ τ} {i : Nat} {results : StepResults} {accepted : List TokenId}

-- What the commit of the request at position `i` comes to.
inductive Commits (i : Nat) (results : StepResults) (s : VeloScheduler R μ δ τ) : VeloScheduler R μ δ τ → Prop
  | ended : s.active[i]? = none → Commits i results s (s.withPhase (.cleanup 0))
  | missing {req} : s.active[i]? = some req → results.drafted[i]? = none ∨ results.verified[i]? = none →
    Commits i results s (s.withPhase .panicked)
  | failed {req drafted verified e session} : s.active[i]? = some req → results.drafted[i]? = some drafted →
    results.verified[i]? = some verified → req.session.commit drafted verified = (.error e, session) →
    Commits i results s ((s.setActive i { req with session }).withPhase (.cleanup 0))
  | accepted {req drafted verified accepted session} : s.active[i]? = some req → results.drafted[i]? = some drafted →
    results.verified[i]? = some verified → req.session.commit drafted verified = (.ok accepted, session) →
    Commits i results s ((s.setActive i { req with session }).withPhase (.send i accepted results))

theorem commit_commits (s : VeloScheduler R μ δ τ) (i : Nat) (results : StepResults) :
    Commits i results s (s.commit i results) := by
  unfold commit
  split
  case h_1 hnone => exact .ended hnone
  case h_2 req hreq =>
    split
    case h_1 drafted verified hd hv =>
      split
      case h_1 hc => exact .accepted hreq hd hv hc
      case h_2 hc => exact .failed hreq hd hv hc
    case h_2 hnot =>
      refine .missing hreq ?_
      cases hd : results.drafted[i]?
      case none => exact .inl rfl
      case some drafted =>
        cases hv : results.verified[i]?
        case none => exact .inr rfl
        case some verified => exact absurd hv (hnot drafted verified hd)

-- What sending the next of the accepted tokens comes to.
inductive Sends (i : Nat) (accepted : List TokenId) (results : StepResults) (s s' : VeloScheduler R μ δ τ) : Prop
  | missing : s.active[i]? = none → s' = s.withPhase .panicked → Sends i accepted results s s'
  | ended {req} : s.active[i]? = some req → accepted = [] →
    s' = s.withPhase (if req.cancelled then .commit (i + 1) results else .correct i results) → Sends i accepted results s s'
  | closed {req} : s.active[i]? = some req → accepted ≠ [] → s.isClosed req.client = true →
    s'.active = s.active.set i { req with firstTokenSent := true, cancelled := true } → s'.clients = s.clients →
    s'.phase = .send i [] results → Sends i accepted results s s'
  | sent {req token rest} : s.active[i]? = some req → accepted = token :: rest →
    s'.active = s.active.set i { req with firstTokenSent := true, generatedCount := req.generatedCount + 1 } →
    s'.clients = s.clients.modify req.client (.receive [token]) →
    s'.phase = .send i rest results → Sends i accepted results s s'

theorem sendToken_clients (hopen : s.isClosed client = false) :
    (s.sendToken client token).clients = s.clients.modify client (.receive [token]) := by
  unfold sendToken
  rw [if_neg (by simp [hopen])]
  rfl

theorem send_sends (s : VeloScheduler R μ δ τ) (i : Nat) (accepted : List TokenId) (results : StepResults) :
    Sends i accepted results s (s.send i accepted results) := by
  unfold send
  split
  case h_1 hnone => exact .missing hnone rfl
  case h_2 req hreq =>
    split
    case h_1 => exact .ended hreq rfl rfl
    case h_2 token rest =>
      have hquiet : Quiet s (s.markFirst i req) := .markFirst (by rw [hreq]; rfl)
      dsimp only
      split
      case isTrue hclosed =>
        rw [hquiet.isClosed] at hclosed
        exact .closed hreq nofun hclosed (markFirst_set _) markFirst_clients rfl
      case isFalse hopen =>
        have hactive (req') : ((s.markFirst i req).sendToken req.client token).active.set i req' = s.active.set i req' := by
          rw [sendToken_active, markFirst_set]
        have hclients : ((s.markFirst i req).sendToken req.client token).clients =
            s.clients.modify req.client (.receive [token]) := by
          rw [sendToken_clients (Bool.eq_false_iff.mpr hopen), markFirst_clients]
        generalize (s.markFirst i req).sendToken req.client token = s₁ at hactive hclients ⊢
        exact .sent hreq rfl (hactive _) hclients rfl

-- What sending the corrected token comes to.
inductive Corrects (i : Nat) (results : StepResults) (s s' : VeloScheduler R μ δ τ) : Prop
  | missing : s.active[i]? = none → s' = s.withPhase .panicked → Corrects i results s s'
  | ended {req} : s.active[i]? = some req → req.session.rejectedToken = none → s' = s.withPhase (.commit (i + 1) results) →
    Corrects i results s s'
  | corrected {req token req'} (out : List TokenId) : s.active[i]? = some req → req.session.rejectedToken = some token →
    s'.active = s.active.set i req' → req'.client = req.client → req'.maxNewTokens = req.maxNewTokens →
    req'.generatedCount = req.generatedCount + 1 → s'.clients = s.clients.modify req.client (.receive out) →
    out.length ≤ 1 → s'.phase = .commit (i + 1) results → Corrects i results s s'

theorem correct_corrects (s : VeloScheduler R μ δ τ) (i : Nat) (results : StepResults) :
    Corrects i results s (s.correct i results) := by
  unfold correct
  split
  case h_1 hnone => exact .missing hnone rfl
  case h_2 req hreq =>
    rw [SpeculativeSession.takeRejectedToken]
    cases hrej : req.session.rejectedToken
    case none => exact .ended hreq hrej rfl
    case some token =>
      have hactive (req') :
          ((s.markFirst i req).sendToken req.client token).active.set i req' = s.active.set i req' := by
        rw [sendToken_active, markFirst_set]
      obtain ⟨out, hlen, hclients⟩ : ∃ out : List TokenId, out.length ≤ 1 ∧
          ((s.markFirst i req).sendToken req.client token).clients = s.clients.modify req.client (.receive out) := by
        cases hclosed : (s.markFirst i req).isClosed req.client
        case true =>
          have hsame : (s.markFirst i req).sendToken req.client token = s.markFirst i req := if_pos hclosed
          have hid : Client.receive [] = id := funext fun c => by simp [Client.receive]
          exact ⟨[], Nat.zero_le 1, by rw [hsame, markFirst_clients, hid, modify_id]⟩
        case false => exact ⟨[token], le_refl 1, by rw [sendToken_clients hclosed, markFirst_clients]⟩
      dsimp only
      generalize (s.markFirst i req).sendToken req.client token = s₁ at hactive hclients ⊢
      exact .corrected out hreq hrej (hactive _) rfl rfl rfl hclients hlen rfl

-- What the cleanup does with the request at position `i`.
inductive Cleans (i : Nat) (s s' : VeloScheduler R μ δ τ) : Prop
  | ended : s.active[i]? = none → s' = s.withPhase .commands → Cleans i s s'
  | stays {req} : s.active[i]? = some req → req.generatedCount < req.maxNewTokens → req.cancelled = false →
    s' = s.withPhase (.cleanup (i + 1)) → Cleans i s s'
  | leaves {req} : s.active[i]? = some req → s'.active = s.active.eraseIdx i →
    s'.clients.map Client.share = s.clients.map Client.share → s'.requestRx = s.requestRx → s'.pending = s.pending →
    s'.phase = s.phase ∨ s'.phase = .panicked → Cleans i s s'

theorem onClient_share {g : Client → Client} (client : Nat) (hg : ∀ c, (g c).share = c.share) :
    (s.onClient client g).clients.map Client.share = s.clients.map Client.share := by
  refine ext_getElem? fun k => ?_
  rw [getElem?_map, getElem?_map, onClient, getElem?_modify]
  cases s.clients[k]?
  case none => rfl
  case some c =>
    by_cases hk : client = k
    case pos => simpa [hk] using hg c
    case neg => simp [hk]

theorem cleanup_cleans (s : VeloScheduler R μ δ τ) (i : Nat) : Cleans i s (s.cleanup i) := by
  unfold cleanup
  split
  case h_1 hnone => exact .ended hnone rfl
  case h_2 req hreq =>
    dsimp only
    split
    case isFalse hstay =>
      simp only [Bool.or_eq_true, not_or, decide_eq_true_eq, Bool.not_eq_true] at hstay
      exact .stays hreq (Nat.lt_of_not_le hstay.left.left) hstay.right.left rfl
    case isTrue =>
      split
      case h_1 => exact .leaves hreq rfl rfl rfl rfl (.inr rfl)
      case h_2 =>
        split
        case isFalse => exact .leaves hreq rfl rfl rfl rfl (.inl rfl)
        case isTrue  => exact .leaves hreq rfl (onClient_share req.client fun _ => rfl) rfl rfl (.inl rfl)

-- The calls of the models change nothing but the models.
theorem callModels_cases [DraftModel μ δ] [TargetModel μ τ] (s : VeloScheduler R μ δ τ) : ∃ models phase,
    s.callModels = { s with machine := { s.machine with models }, phase } ∧
      (phase = .cleanup 0 ∨ phase = .panicked ∨ ∃ results, phase = .commit 0 results) := by
  unfold callModels
  dsimp only
  split
  case h_1 => exact ⟨_, _, rfl, .inl rfl⟩
  case h_2 =>
    split
    case isTrue  => exact ⟨_, _, rfl, .inr (.inl rfl)⟩
    case isFalse =>
      split
      case h_1 => exact ⟨_, _, rfl, .inl rfl⟩
      case h_2 => exact ⟨_, _, rfl, .inr (.inr ⟨_, rfl⟩)⟩

end VeloScheduler
