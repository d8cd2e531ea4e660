import Mathlib
import VeloCore.Execution.Scheduler.Theorems.Room

open List

-- What the modification of one element does to a sum over a list
theorem List.sum_map_modify {α : Type} {l : List α} {k : Nat} {a : α} {g : α → α} (f : α → Nat) (h : l[k]? = some a) :
    ((l.modify k g).map f).sum + f a = (l.map f).sum + f (g a) := by
  induction l generalizing k
  case nil => simp at h
  case cons b l hi =>
    cases k
    case zero =>
      rw [getElem?_cons_zero, Option.some.injEq] at h
      subst h
      simp only [modify_zero_cons, map_cons, sum_cons]
      omega
    case succ k =>
      have hi := hi (getElem?_cons_succ ▸ h)
      simp only [modify_succ_cons, map_cons, sum_cons]
      omega

theorem List.countP_eq_sum_map {α : Type} (p : α → Bool) (l : List α) : l.countP p = (l.map fun a => (p a).toNat).sum := by
  induction l
  case nil => rfl
  case cons a l hi =>
    rw [countP_cons, hi, map_cons, sum_cons]
    cases p a <;> simp [Nat.add_comm]

theorem List.countP_modify {α : Type} {l : List α} {k : Nat} {a : α} {g : α → α} (p : α → Bool) (h : l[k]? = some a) :
    (l.modify k g).countP p + (p a).toNat = l.countP p + (p (g a)).toNat := by
  rw [countP_eq_sum_map, countP_eq_sum_map]
  exact sum_map_modify (fun a => (p a).toNat) h

namespace Client

-- What has been sent to a client
def told (c : Client) : List TokenId × List (Except EngineError Unit) :=
  (c.tokens, c.done)

def isStarted (c : Client) : Bool :=
  !c.tokens.isEmpty

def isAnswered (c : Client) : Bool :=
  c.done.any (·.isOk)

end Client

namespace VeloScheduler

variable {R μ δ τ : Type} {s s' : VeloScheduler R μ δ τ} {i : Nat} {results : StepResults} {accepted : List TokenId}

-- The metrics count what they are named after.
structure Truthful (s : VeloScheduler R μ δ τ) : Prop where
  activeSlots            : s.metrics.activeSlots = s.active.length
  totalTokensGenerated   : s.metrics.totalTokensGenerated = (s.clients.map (·.tokens.length)).sum
  requestsWithTtft       : s.metrics.requestsWithTtft = s.clients.countP Client.isStarted
  totalRequestsCompleted : s.metrics.totalRequestsCompleted = s.clients.countP Client.isAnswered

-- The step does not fail to send a first token, or a corrected one.
def Delivers (s : VeloScheduler R μ δ τ) (a : Action) : Prop :=
  a.isWork = true →
    match s.phase with
    | .send i (_ :: _) _ => ∀ req ∈ s.active[i]?, s.isClosed req.client = true → req.firstTokenSent = true
    | .correct i _       => ∀ req ∈ s.active[i]?, req.session.rejectedToken.isSome → s.isClosed req.client = false
    | _                  => True

instance {a : Action} : Decidable (Delivers s a) := by
  unfold Delivers
  split <;> infer_instance

-- The metrics are true unless the worker has panicked, and each request knows whether its client has got a token.
structure Told (s : VeloScheduler R μ δ τ) : Prop where
  accounts : Accounts False s
  slots    : s.phase ≠ .panicked → s.metrics.activeSlots = s.active.length
  tokens   : s.metrics.totalTokensGenerated = (s.clients.map (·.tokens.length)).sum
  started  : s.metrics.requestsWithTtft = s.clients.countP Client.isStarted
  answered : s.metrics.totalRequestsCompleted = s.clients.countP Client.isAnswered
  first    : ∀ req ∈ s.active, ∃ c, s.clients[req.client]? = some c ∧ c.isStarted = req.firstTokenSent
  queued   : ∀ r ∈ s.requestRx ++ s.pending, ∃ c, s.clients[r.client]? = some c ∧ c.tokens = []

namespace Told

theorem truthful (h : Told s) (hp : s.phase ≠ .panicked) : Truthful s :=
  ⟨h.slots hp, h.tokens, h.started, h.answered⟩

theorem told_getElem? {clients clients' : List Client} {k : Nat} (h : clients'.map Client.told = clients.map Client.told)
    (hc : clients[k]? = some c) : ∃ c', clients'[k]? = some c' ∧ c'.told = c.told := by
  have hget := congrArg (·[k]?) h
  simp only [getElem?_map, hc, Option.map_some] at hget
  exact Option.map_eq_some_iff.mp hget

theorem sums_congr {clients clients' : List Client} (h : clients'.map Client.told = clients.map Client.told) :
    (clients'.map (·.tokens.length)).sum = (clients.map (·.tokens.length)).sum ∧
      clients'.countP Client.isStarted = clients.countP Client.isStarted ∧
      clients'.countP Client.isAnswered = clients.countP Client.isAnswered := by
  have htokens (l : List Client) : l.map (·.tokens.length) = (l.map Client.told).map (·.1.length) := by rw [map_map]; rfl
  have hstarted (l : List Client) : l.countP Client.isStarted = (l.map Client.told).countP (!·.1.isEmpty) := by
    rw [countP_map]; rfl
  have hanswered (l : List Client) : l.countP Client.isAnswered = (l.map Client.told).countP (·.2.any (·.isOk)) := by
    rw [countP_map]; rfl
  rw [htokens, htokens, hstarted, hstarted, hanswered, hanswered, h]
  exact ⟨rfl, rfl, rfl⟩

-- Nothing is sent, and no request goes on.
theorem move (h : Told s) (hacc : Accounts False s') (hclients : s'.clients.map Client.told = s.clients.map Client.told)
    (hmetrics : s'.metrics = s.metrics) (hactive : s'.active = s.active)
    (hqueued : ∀ r ∈ s'.requestRx ++ s'.pending, r ∈ s.requestRx ++ s.pending)
    (hphase : s'.phase ≠ .panicked → s.phase ≠ .panicked) : Told s' := by
  have ⟨htokens, hstarted, hanswered⟩ := sums_congr hclients
  refine ⟨hacc, fun hp => ?_, ?_, ?_, ?_, fun req hreq => ?_, fun r hr => ?_⟩
  case refine_1 => rw [hmetrics, hactive, h.slots (hphase hp)]
  case refine_2 => rw [hmetrics, htokens, h.tokens]
  case refine_3 => rw [hmetrics, hstarted, h.started]
  case refine_4 => rw [hmetrics, hanswered, h.answered]
  case refine_5 =>
    have ⟨c, hc, hfirst⟩ := h.first req (hactive ▸ hreq)
    have ⟨c', hc', htold⟩ := told_getElem? hclients hc
    exact ⟨c', hc', (congrArg (fun t : List TokenId × List (Except EngineError Unit) => !t.1.isEmpty) htold).trans hfirst⟩
  case refine_6 =>
    have ⟨c, hc, hnil⟩ := h.queued r (hqueued r hr)
    have ⟨c', hc', htold⟩ := told_getElem? hclients hc
    exact ⟨c', hc', (congrArg (·.1) htold).trans hnil⟩

-- One request goes on, and its client gets the tokens `out`.
theorem update {req : ActiveRequestInternal} (h : Told s) (req' : ActiveRequestInternal) (out : List TokenId)
    (hacc : Accounts False s') (hreq : s.active[i]? = some req) (hquiet : Quiet s s')
    (hclients : s'.clients = s.clients.modify req.client (.receive out)) (hactive : s'.active = s.active.set i req')
    (hclient : req'.client = req.client) (hfirst : req'.firstTokenSent = (req.firstTokenSent || !out.isEmpty))
    (hmetrics : s'.metrics = { s.metrics with
      totalTokensGenerated := s.metrics.totalTokensGenerated + out.length
      requestsWithTtft     := s.metrics.requestsWithTtft + (!req.firstTokenSent && !out.isEmpty).toNat })
    (hphase : s.phase ≠ .panicked) : Told s' := by
  obtain ⟨c, hc, hstarted⟩ := h.first req (mem_of_getElem? hreq)
  have hreceive : (c.receive out).isStarted = (req.firstTokenSent || !out.isEmpty) := by
    rw [← hstarted, Client.isStarted, Client.isStarted, Client.receive]
    cases c.tokens <;> rfl
  refine ⟨hacc, fun _ => ?_, ?_, ?_, ?_, fun r hr => ?_, fun r hr => ?_⟩
  case refine_1 => rw [hmetrics, hactive, length_set, h.slots hphase]
  case refine_2 =>
    have hsum := sum_map_modify (g := Client.receive out) (fun c : Client => c.tokens.length) hc
    have hlen : (c.receive out).tokens.length = c.tokens.length + out.length := length_append
    rw [hmetrics, hclients, h.tokens]
    dsimp only at hsum ⊢
    omega
  case refine_3 =>
    have hcount := countP_modify (g := Client.receive out) Client.isStarted hc
    rw [hreceive, hstarted] at hcount
    rw [hmetrics, hclients, h.started]
    dsimp only
    cases hf : req.firstTokenSent <;> cases ho : out.isEmpty <;> rw [hf, ho] at hcount <;> simp at hcount ⊢ <;> omega
  case refine_4 =>
    have hcount := countP_modify (g := Client.receive out) Client.isAnswered hc
    rw [hmetrics, hclients, h.answered]
    exact (Nat.add_right_cancel hcount).symm
  case refine_5 =>
    obtain ⟨j, hj⟩ := getElem?_of_mem hr
    obtain ⟨hlt, _⟩ := List.getElem?_eq_some_iff.mp hreq
    rw [hactive] at hj
    by_cases hij : i = j
    case pos =>
      subst hij
      rw [getElem?_set_self hlt, Option.some.injEq] at hj
      subst hj
      refine ⟨c.receive out, ?_, hreceive.trans hfirst.symm⟩
      rw [hclients, hclient, getElem?_modify_eq, hc]
      rfl
    case neg =>
      rw [getElem?_set_ne hij] at hj
      obtain ⟨c', hc', hf⟩ := h.first r (mem_of_getElem? hj)
      refine ⟨c', ?_, hf⟩
      rw [hclients, getElem?_modify_ne _ _ (client_ne h.accounts.active_nodup hreq hj hij), hc']
  case refine_6 =>
    rw [hquiet.requestRx, hquiet.pending] at hr
    obtain ⟨c', hc', hnil⟩ := h.queued r hr
    refine ⟨c', ?_, hnil⟩
    rw [hclients, getElem?_modify_ne _ _ (h.accounts.ne_of_waiting hr (mem_of_getElem? hreq)).symm, hc']

theorem markFirst_metrics (req : ActiveRequestInternal) : (s.markFirst i req).metrics = { s.metrics with
    requestsWithTtft := s.metrics.requestsWithTtft + (!req.firstTokenSent).toNat } := by
  unfold markFirst
  split
  case isTrue h  => rw [h]; rfl
  case isFalse h => rw [Bool.eq_false_iff.mpr h]; rfl

theorem sendToken_metrics (client : Nat) (token : TokenId) : (s.sendToken client token).metrics = s.metrics := by
  unfold sendToken
  split <;> rfl

theorem commit (h : Told s) (hphase : s.phase = .commit i results) : Told (s.commit i results) := by
  have hacc := h.accounts.quiet (commit_quiet i results).left (h.accounts.honest.commit i results)
  have hquiet := (commit_quiet (s := s) i results).left
  have hne : s.phase ≠ .panicked := by rw [hphase]; exact nofun
  have hclients : s.clients = s.clients.modify i (.receive []) := by rw [receive_nil, modify_id]
  have hc := commit_commits s i results
  generalize s.commit i results = t at hacc hquiet hc
  cases hc
  case ended   => exact h.move hacc rfl rfl rfl (fun _ => id) fun _ => hne
  case missing => exact h.move hacc rfl rfl rfl (fun _ => id) fun _ => hne
  case failed req _ _ _ session hreq _ _ _ =>
    refine h.update { req with session } [] hacc hreq hquiet ?_ rfl rfl (Bool.or_false _).symm ?_ hne
    case refine_1 => rw [receive_nil, modify_id]; rfl
    case refine_2 => simp [withPhase, setActive]
  case accepted req _ _ _ session hreq _ _ _ =>
    refine h.update { req with session } [] hacc hreq hquiet ?_ rfl rfl (Bool.or_false _).symm ?_ hne
    case refine_1 => rw [receive_nil, modify_id]; rfl
    case refine_2 => simp [withPhase, setActive]

theorem send (h : Told s) (hphase : s.phase = .send i accepted results) (hd : Delivers s .work) :
    Told (s.send i accepted results) := by
  have hquiet := (send_quiet (s := s) i accepted results).left
  have hacc := h.accounts.quiet hquiet (h.accounts.honest.send i accepted results)
  have hne : s.phase ≠ .panicked := by rw [hphase]; exact nofun
  have hd := hd rfl
  rw [hphase] at hd
  unfold VeloScheduler.send at hacc hquiet ⊢
  split at hacc
  case h_1 => exact h.move hacc rfl rfl rfl (fun _ => id) fun _ => hne
  case h_2 req hreq =>
    split at hacc
    case h_1 => exact h.move hacc rfl rfl rfl (fun _ => id) fun _ => hne
    case h_2 token rest =>
      have hmark : Quiet s (s.markFirst i req) := .markFirst (by rw [hreq]; rfl)
      rw [hreq] at hquiet
      dsimp only at hacc hquiet hd ⊢
      by_cases hclosed : (s.markFirst i req).isClosed req.client = true
      case pos =>
        rw [if_pos hclosed] at hacc hquiet ⊢
        have hfirst := hd req hreq (hmark.isClosed _ ▸ hclosed)
        refine h.update { req with firstTokenSent := true, cancelled := true } [] hacc hreq hquiet ?_ (markFirst_set _) rfl
          (by rw [hfirst]; rfl) ?_ hne
        case refine_1 => rw [receive_nil, modify_id]; exact markFirst_clients
        case refine_2 => exact (markFirst_metrics req).trans (by rw [hfirst]; rfl)
      case neg =>
        rw [if_neg hclosed] at hacc hquiet ⊢
        let req' : ActiveRequestInternal := { req with firstTokenSent := true, generatedCount := req.generatedCount + 1 }
        refine h.update req' [token] hacc hreq hquiet ?_ ?_ rfl (Bool.or_true _).symm ?_ hne
        case refine_1 =>
          exact (sendToken_clients (Bool.eq_false_iff.mpr hclosed)).trans (by rw [markFirst_clients])
        case refine_2 =>
          exact (congrArg (·.set i req') (sendToken_active _ _)).trans (markFirst_set req')
        case refine_3 =>
          simp only [withPhase, countToken, sendToken_metrics, markFirst_metrics]
          simp

theorem correct (h : Told s) (hphase : s.phase = .correct i results) (hd : Delivers s .work) :
    Told (s.correct i results) := by
  have hquiet := (correct_quiet (s := s) i results).left
  have hacc := h.accounts.quiet hquiet (h.accounts.honest.correct i results)
  have hne : s.phase ≠ .panicked := by rw [hphase]; exact nofun
  have hd := hd rfl
  rw [hphase] at hd
  unfold VeloScheduler.correct at hacc hquiet ⊢
  split at hacc
  case h_1 => exact h.move hacc rfl rfl rfl (fun _ => id) fun _ => hne
  case h_2 req hreq =>
    rw [hreq] at hquiet
    simp only [SpeculativeSession.takeRejectedToken] at hacc hquiet ⊢
    cases hrej : req.session.rejectedToken
    case none =>
      rw [hrej] at hacc
      exact h.move hacc rfl rfl rfl (fun _ => id) fun _ => hne
    case some token =>
      have hopen := hd req hreq (by rw [hrej]; rfl)
      have hmark : Quiet s (s.markFirst i req) := .markFirst (by rw [hreq]; rfl)
      rw [hrej] at hacc hquiet
      dsimp only at hacc hquiet ⊢
      rw [hmark.isClosed, hopen] at hacc hquiet ⊢
      let req' : ActiveRequestInternal := { req with
        session := { req.session with rejectedToken := none }, firstTokenSent := true
        cancelled := req.cancelled || false, generatedCount := req.generatedCount + 1 }
      refine h.update req' [token] hacc hreq hquiet ?_ ?_ rfl (Bool.or_true _).symm ?_ hne
      case refine_1 => exact (sendToken_clients (hmark.isClosed _ ▸ hopen)).trans (by rw [markFirst_clients])
      case refine_2 => exact (congrArg (·.set i req') (sendToken_active _ _)).trans (markFirst_set req')
      case refine_3 =>
        simp only [withPhase, countToken, sendToken_metrics, markFirst_metrics]
        simp

-- A request that leaves is answered at most once.
theorem cleanup (h : Told s) (hphase : s.phase = .cleanup i) : Told (s.cleanup i) := by
  have hacc := h.accounts.cleanup i
  have hne : s.phase ≠ .panicked := by rw [hphase]; exact nofun
  unfold VeloScheduler.cleanup at hacc ⊢
  split at hacc
  case h_1 => exact h.move hacc rfl rfl rfl (fun _ => id) fun _ => hne
  case h_2 req hreq =>
    dsimp only at hacc ⊢
    obtain ⟨c, hc, _⟩ := h.first req (mem_of_getElem? hreq)
    have hdone := h.accounts.done_eq_nil (mem_of_getElem? hreq) hc
    have hfirst : ∀ r ∈ s.active.eraseIdx i, ∃ c, s.clients[r.client]? = some c ∧ c.isStarted = r.firstTokenSent :=
      fun r hr => h.first r (mem_of_mem_eraseIdx hr)
    split at hacc
    case isFalse hstay => rw [if_neg hstay]; exact h.move hacc rfl rfl rfl (fun _ => id) fun _ => hne
    case isTrue hleave =>
      rw [if_pos hleave]
      split at hacc
      case h_1 => exact ⟨hacc, absurd rfl, h.tokens, h.started, h.answered, hfirst, h.queued⟩
      case h_2 slotPool hrel =>
        split at hacc
        case isFalse hno =>
          rw [if_neg hno]
          exact ⟨hacc, fun _ => rfl, h.tokens, h.started, h.answered, hfirst, h.queued⟩
        case isTrue hyes =>
          rw [if_pos hyes]
          let answer (c : Client) : Client := { c with done := c.done ++ [.ok ()] }
          have hget {k : Nat} {c : Client} (hk : s.clients[k]? = some c) : ∃ c',
              (s.clients.modify req.client answer)[k]? = some c' ∧ c'.tokens = c.tokens := by
            refine ⟨_, by rw [getElem?_modify, hk]; rfl, ?_⟩
            split <;> rfl
          refine ⟨hacc, fun _ => rfl, ?_, ?_, ?_, fun r hr => ?_, fun r hr => ?_⟩
          case refine_1 =>
            have hsum := sum_map_modify (g := answer) (fun c : Client => c.tokens.length) hc
            exact h.tokens.trans (Nat.add_right_cancel hsum).symm
          case refine_2 =>
            have hcount := countP_modify (g := answer) Client.isStarted hc
            exact h.started.trans (Nat.add_right_cancel hcount).symm
          case refine_3 =>
            have hcount := countP_modify (g := answer) Client.isAnswered hc
            have hbefore : c.isAnswered = false := by rw [Client.isAnswered, hdone]; rfl
            have hafter : (answer c).isAnswered = true := by simp [answer, Client.isAnswered, hdone, Except.isOk, Except.toBool]
            rw [hbefore, hafter] at hcount
            exact (congrArg (· + 1) h.answered).trans hcount.symm
          case refine_4 =>
            obtain ⟨c, hc, hf⟩ := hfirst r hr
            obtain ⟨c', hc', ht⟩ := hget hc
            exact ⟨c', hc', (congrArg (fun tokens : List TokenId => !tokens.isEmpty) ht).trans hf⟩
          case refine_5 =>
            obtain ⟨c, hc, hnil⟩ := h.queued r hr
            obtain ⟨c', hc', ht⟩ := hget hc
            exact ⟨c', hc', ht.trans hnil⟩

theorem pollRequest (h : Told s) (hphase : s.phase = .requests) (hacc : Accounts False s.pollRequest) :
    Told s.pollRequest := by
  have hne : s.phase ≠ .panicked := by rw [hphase]; exact nofun
  unfold VeloScheduler.pollRequest at hacc ⊢
  split at hacc
  case h_1 => exact h.move hacc rfl rfl rfl (fun _ => id) fun _ => hne
  case h_2 req rest hrx =>
    refine h.move hacc rfl rfl rfl (fun r hr => ?_) fun _ => hne
    rw [hrx]
    simp only [mem_append, mem_cons, not_mem_nil, or_false] at hr ⊢
    tauto

theorem await (h : Told s) (hphase : s.phase = .idle) (hacc : Accounts False s.await) : Told s.await := by
  have hne : s.phase ≠ .panicked := by rw [hphase]; exact nofun
  unfold VeloScheduler.await at hacc ⊢
  split at hacc
  case isTrue hempty =>
    rw [if_pos hempty]
    split at hacc
    case h_1 req rest hrx =>
      refine h.move hacc rfl rfl rfl (fun r hr => ?_) fun _ => hne
      rw [hrx]
      simp only [mem_append, mem_cons, not_mem_nil, or_false] at hr ⊢
      tauto
    case h_2 =>
      split at hacc
      case isTrue  hup => rw [if_pos hup]; exact h.move hacc rfl rfl rfl (fun _ => id) fun _ => hne
      case isFalse hup => rw [if_neg hup]; exact h
  case isFalse hsome =>
    rw [if_neg hsome]
    split at hacc
    case isTrue  hno => rw [if_pos hno]; exact h.move hacc rfl rfl rfl (fun _ => id) fun _ => hne
    case isFalse hno => rw [if_neg hno]; exact h.move hacc rfl rfl rfl (fun _ => id) fun _ => hne

theorem submit (h : Told s) (prompt : List TokenId) (n : Nat) : Told (s.submit prompt n) where
  accounts := h.accounts.submit prompt n
  slots    := h.slots
  tokens   := by simp [VeloScheduler.submit, h.tokens]
  started  := by simp [VeloScheduler.submit, h.started, Client.isStarted]
  answered := by simp [VeloScheduler.submit, h.answered, Client.isAnswered]
  first req hreq := by
    obtain ⟨c, hc, hf⟩ := h.first req hreq
    exact ⟨c, (getElem?_append_left (List.getElem?_eq_some_iff.mp hc).1).trans hc, hf⟩
  queued r hr := by
    have hold : ∀ r ∈ s.requestRx ++ s.pending, ∃ c, (s.submit prompt n).clients[r.client]? = some c ∧ c.tokens = [] := by
      intro r hr
      obtain ⟨c, hc, hnil⟩ := h.queued r hr
      exact ⟨c, (getElem?_append_left (List.getElem?_eq_some_iff.mp hc).1).trans hc, hnil⟩
    rw [VeloScheduler.submit] at hr
    dsimp only at hr
    split at hr
    case isFalse => exact hold r hr
    case isTrue =>
      rw [append_assoc, mem_append, mem_append, mem_singleton, or_left_comm] at hr
      rcases hr with rfl | hr
      case inl => exact ⟨_, getElem?_concat_length, rfl⟩
      case inr => exact hold r (mem_append.mpr hr)

section Models

variable [MemoryRuntime R] [DraftModel μ δ] [TargetModel μ τ] {a : Action}

theorem admitNext (h : Told s) (hphase : s.phase = .admission) (hacc : Accounts False s.admitNext) : Told s.admitNext := by
  have hne : s.phase ≠ .panicked := by rw [hphase]; exact nofun
  unfold VeloScheduler.admitNext at hacc ⊢
  split at hacc
  case isFalse hfull => rw [if_neg hfull]; exact h.move hacc rfl rfl rfl (fun _ => id) fun _ => hne
  case isTrue hfree =>
    rw [if_pos hfree]
    split at hacc
    case h_1 => exact h.move hacc rfl rfl rfl (fun _ => id) fun _ => hne
    case h_2 req rest hp =>
      have hqueued : ∀ r ∈ s.requestRx ++ rest, r ∈ s.requestRx ++ s.pending := fun r hr => by
        rw [hp]
        simp only [mem_append, mem_cons] at hr ⊢
        tauto
      split at hacc
      case h_1 activeReq m hadmitted =>
        have ⟨pool, out, hadm⟩ := admitRequest_eq_ok hadmitted
        refine ⟨hacc, fun _ => ?_, h.tokens, h.started, h.answered, fun r hr => ?_, fun r hr => h.queued r (hqueued r hr)⟩
        case refine_1 => rw [length_append, length_singleton]
        case refine_2 =>
          rcases mem_append.mp hr with hr | hr
          case inl => exact h.first r hr
          case inr =>
            have ⟨c, hc, hnil⟩ := h.queued req (by rw [hp]; simp)
            rw [mem_singleton.mp hr, hadm.request]
            exact ⟨c, hc, by rw [Client.isStarted, hnil]; rfl⟩
      all_goals exact h.move hacc rfl rfl rfl hqueued fun _ => hne

theorem work (h : Told s) (hd : Delivers s .work) : Told s.work := by
  have hacc := h.accounts.work fun p => p.elim
  unfold VeloScheduler.work at hacc ⊢
  split at hacc
  case h_1 hphase =>
    have hne : s.phase ≠ .panicked := by rw [hphase]; exact nofun
    unfold pollCommand at hacc ⊢
    split at hacc <;> exact h.move hacc rfl rfl rfl (fun _ => id) fun _ => hne
  case h_2 hphase => exact h.pollRequest hphase hacc
  case h_3 hphase => exact h.admitNext hphase hacc
  case h_4 hphase => exact h.await hphase hacc
  case h_5 hphase =>
    have ⟨models, phase, hcall, _⟩ := s.callModels_cases
    rw [hcall] at hacc ⊢
    exact h.move hacc rfl rfl rfl (fun _ => id) fun _ => by rw [hphase]; exact nofun
  case h_6 hphase => exact h.commit hphase
  case h_7 hphase => exact h.send hphase hd
  case h_8 hphase => exact h.correct hphase hd
  case h_9 hphase => exact h.cleanup hphase
  case h_10 => exact h
  case h_11 hphase =>
    exact ⟨hacc, fun hp => absurd hphase hp, h.tokens, h.started, h.answered, by simp [VeloScheduler.unwind],
      by simp [VeloScheduler.unwind]⟩

theorem next (h : Told s) (hd : Delivers s a) : Told (s.next a) := by
  have hacc := h.accounts.next (a := a) fun p => p.elim
  cases a
  case work            => exact h.work hd
  case submit prompt n => exact h.submit prompt n
  case drop client =>
    refine h.move hacc ?_ rfl rfl (fun _ => id) id
    refine ext_getElem? fun k => ?_
    simp only [VeloScheduler.next, onClient, getElem?_map, getElem?_modify]
    cases s.clients[k]?
    case none   => rfl
    case some c => by_cases hk : client = k <;> simp [hk, Client.told]
  case prefetch name path =>
    rw [VeloScheduler.next, VeloScheduler.prefetch] at hacc ⊢
    split at hacc
    case isTrue  halive => rw [if_pos halive]; exact h.move hacc rfl rfl rfl (fun _ => id) id
    case isFalse halive => rw [if_neg halive]; exact h
  all_goals exact h.move hacc rfl rfl rfl (fun _ => id) id

end Models
end Told

theorem told_start (m : Machine R μ δ τ) : Told (start m) where
  accounts := (roomy_start m).accounts
  slots _  := rfl
  tokens   := rfl
  started  := rfl
  answered := rfl
  first    := by simp [start]
  queued   := by simp [start]

variable [MemoryRuntime R] [DraftModel μ δ] [TargetModel μ τ] {m : Machine R μ δ τ}

-- As long as no first token and no corrected token is lost because its client has gone, the metrics are true whenever
-- the worker is between two iterations, and wherever else it has not panicked.
theorem metrics_true (h : Run Delivers (start m) s) (hp : s.phase ≠ .panicked) : Truthful s :=
  (h.invariant (told_start m) fun _ _ ht _ hd => ht.next hd).truthful hp

-- The second client goes after its first token.
theorem metrics_true_two : ∃ e : VeloEngine CpuMemoryRuntime Empty, VeloEngine.new ⟨2, ⟨1, 4, 8, 2⟩⟩ = .ok e ∧
    Truthful (([Action.submit [1, 2] 1, Action.submit [3] 4] ++ replicate 15 Action.work ++ Action.drop 1 ::
      replicate 6 Action.work).foldl next (start ⟨e, ⟨(⟨⟩ : Guesser List.sum), (⟨0⟩ : Oracle List.sum)⟩⟩)) := by
  obtain ⟨e, he, htraced, hphase⟩ : ∃ e : VeloEngine CpuMemoryRuntime Empty, VeloEngine.new ⟨2, ⟨1, 4, 8, 2⟩⟩ = .ok e ∧
      let s := start ⟨e, ⟨(⟨⟩ : Guesser List.sum), (⟨0⟩ : Oracle List.sum)⟩⟩
      let actions := [Action.submit [1, 2] 1, Action.submit [3] 4] ++ replicate 15 Action.work ++
        Action.drop 1 :: replicate 6 Action.work
      Traced Delivers s actions ∧ (actions.foldl next s).phase.isCommands = true := ⟨_, rfl, by decide +kernel⟩
  refine ⟨e, he, metrics_true (Traced.run _ htraced) fun hp => ?_⟩
  rw [hp] at hphase
  cases hphase

-- The client goes before its first token, which is counted nevertheless.
theorem exists_not_truthful : ∃ e : VeloEngine CpuMemoryRuntime Empty, VeloEngine.new ⟨2, ⟨1, 4, 8, 2⟩⟩ = .ok e ∧
    ∃ s, Run (fun _ _ => True) (start ⟨e, ⟨(⟨⟩ : Guesser List.sum), (⟨0⟩ : Oracle List.sum)⟩⟩) s ∧ s.phase.isCommands = true ∧
      ¬Truthful s := by
  refine ⟨_, rfl, _, Traced.run (.submit [1, 2] 1 :: replicate 8 .work ++ .drop 0 :: replicate 5 .work) (by decide +kernel),
    by decide +kernel, fun h => ?_⟩
  have hcount := h.requestsWithTtft
  revert hcount
  decide +kernel

end VeloScheduler
