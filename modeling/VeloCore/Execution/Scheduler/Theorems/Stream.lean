import Mathlib
import VeloCore.Execution.Scheduler.Theorems.Delivery
import VeloCore.Execution.Engine.Theorems.Lockstep
import VeloCore.Objects.Speculative.Theorems.Session

open List

-- What a client gets: the beginning of the continuation of its prompt, and the final answer only after the last token.
structure Served (f : List TokenId → TokenId) (c : Client) : Prop where
  follows : Follows f c.prompt c.tokens
  done    : c.done = [] ∨ c.done = [.ok ()] ∧ c.tokens.length = c.maxNewTokens

-- A request whose client has still to get the tokens `out` of this round.
structure Sending (f : List TokenId → TokenId) (out : List TokenId) (c : Client) (req : ActiveRequestInternal) :
    Prop where
  max      : req.maxNewTokens = c.maxNewTokens
  context  : req.session.context = c.prompt ++ (c.tokens ++ out)
  follows  : Follows f c.prompt (c.tokens ++ out)
  count    : req.generatedCount = c.tokens.length
  le       : c.tokens.length + out.length ≤ c.maxNewTokens
  live     : req.cancelled = false
  finished : req.finished = false

-- After its commit, a request has sent everything or lost its client.
def Sent (f : List TokenId → TokenId) (c : Client) (req : ActiveRequestInternal) : Prop :=
  (req.cancelled = true ∧ c.closed = true) ∨ Sending f [] c req

-- The results of the models for a request that has not been committed yet.
structure Expects (f : List TokenId → TokenId) (results : StepResults) (j : Nat) (req : ActiveRequestInternal) :
    Prop where
  results : ∃ drafted verified, results.drafted[j]? = some drafted ∧ results.verified[j]? = some verified ∧
    drafted.length ≤ req.maxNewTokens - req.generatedCount ∧
    verified.map (·.expected) = expectedAfter f req.session.context (drafted.map (·.token))

-- The draft for a request that is still to get tokens has some.
def Drafts (results : StepResults) (j : Nat) (req : ActiveRequestInternal) : Prop :=
  ∃ drafted, results.drafted[j]? = some drafted ∧ (req.generatedCount < req.maxNewTokens → 0 < drafted.length)

-- How far the request at position `j` is in each phase.
def Stage (f : List TokenId → TokenId) (j : Nat) (c : Client) (req : ActiveRequestInternal) : Phase → Prop
  | .commit i results => if j < i then Sent f c req else Sending f [] c req ∧ Expects f results j req
  | .send i accepted results =>
    if j < i then
      Sent f c req
    else if j = i then
      (req.cancelled = true ∧ c.closed = true ∧ accepted = []) ∨
        Sending f (accepted ++ req.session.rejectedToken.toList) c req
    else
      Sending f [] c req ∧ Expects f results j req
  | .correct i results =>
    if j < i then
      Sent f c req
    else if j = i then
      Sending f req.session.rejectedToken.toList c req
    else
      Sending f [] c req ∧ Expects f results j req
  | .cleanup i => if j < i then Sending f [] c req else Sent f c req
  | .panicked => True
  | _ => Sending f [] c req

-- The stages of all active requests.
def Stages (f : List TokenId → TokenId) (phase : Phase) (active : List ActiveRequestInternal) (clients : List Client) :
    Prop :=
  ∀ (j : Nat) req, active[j]? = some req → ∃ c, clients[req.client]? = some c ∧ Stage f j c req phase

section Stages

variable {f : List TokenId → TokenId} {phase phase' : Phase} {active : List ActiveRequestInternal}
  {clients clients' : List Client} {req req' : ActiveRequestInternal} {c c' c'' : Client} {i j : Nat}
  {out : List TokenId} {results : StepResults}

-- The requests at different positions are those of different clients.
theorem client_ne (hnodup : (active.map (·.client)).Nodup) (hi : active[i]? = some req) (hj : active[j]? = some req')
    (hij : i ≠ j) : req.client ≠ req'.client := by
  intro hsame
  have ⟨hlt, _⟩ := List.getElem?_eq_some_iff.mp hi
  refine hij ((getElem?_inj (by simpa using hlt) hnodup).mp ?_)
  rw [getElem?_map, getElem?_map, hi, hj, Option.map_some, Option.map_some, hsame]

-- One request and its client go on, and the others stay where they are.
theorem Stages.set (h : Stages f phase active clients) (hnodup : (active.map (·.client)).Nodup)
    (hreq : active[i]? = some req) (hclient : req'.client = req.client) (hget : clients'[req.client]? = some c')
    (hrest : ∀ k ≠ req.client, clients'[k]? = clients[k]?) (hstage : Stage f i c' req' phase')
    (hothers : ∀ j ≠ i, ∀ r c, Stage f j c r phase → Stage f j c r phase') :
    Stages f phase' (active.set i req') clients' := by
  have ⟨hlt, heq⟩ := List.getElem?_eq_some_iff.mp hreq
  intro j r hj
  by_cases hij : i = j
  case pos =>
    subst hij
    rw [getElem?_set_self hlt, Option.some.injEq] at hj
    subst hj
    exact ⟨c', hclient ▸ hget, hstage⟩
  case neg =>
    rw [getElem?_set_ne hij] at hj
    have ⟨c, hc, hs⟩ := h j r hj
    exact ⟨c, (hrest _ (client_ne hnodup hj hreq (Ne.symm hij))).trans hc, hothers j (Ne.symm hij) r c hs⟩

theorem Stages.mono (h : Stages f phase active clients)
    (hstage : ∀ (j : Nat) r c, active[j]? = some r → Stage f j c r phase → Stage f j c r phase') :
    Stages f phase' active clients :=
  fun j r hj =>
    have ⟨c, hc, hs⟩ := h j r hj
    ⟨c, hc, hstage j r c hj hs⟩

-- A token is sent.
theorem Sending.send (h : Sending f (token :: out) c req) (hm : req'.maxNewTokens = req.maxNewTokens)
    (hctx : req'.session.context = req.session.context) (hcount : req'.generatedCount = req.generatedCount + 1)
    (hlive : req'.cancelled = false) (hfin : req'.finished = req.finished) :
    Sending f out { c with tokens := c.tokens ++ [token] } req' where
  max      := hm.trans h.max
  context  := by rw [hctx, h.context]; simp
  follows  := by simpa using h.follows
  count    := by simp [hcount, h.count]
  le       := by have := h.le; simp at this ⊢; omega
  live     := hlive
  finished := hfin.trans h.finished

-- The session of a round has everything that is to be sent.
theorem Sending.commit (h : Sending f [] c req) (hx : Expects f results i req) : ∃ drafted verified accepted session,
    results.drafted[i]? = some drafted ∧ results.verified[i]? = some verified ∧
    req.session.commit drafted verified = (.ok accepted, session) ∧
    Sending f (accepted ++ session.rejectedToken.toList) c { req with session } := by
  have ⟨drafted, verified, hd, hv, hle, hmap⟩ := hx.results
  have ⟨accepted, session, hcommit, he⟩ := SpeculativeSession.commit_emits hmap
  refine ⟨drafted, verified, accepted, session, hd, hv, hcommit, ⟨h.max, ?_, ?_, h.count, ?_, h.live, h.finished⟩⟩
  case refine_1 => simp [he.context, h.context, SpeculativeSession.emitted]
  case refine_2 =>
    have hfollows := he.follows
    rw [h.context, append_nil] at hfollows
    exact Follows.append (by simpa using h.follows) hfollows
  case refine_3 =>
    have hlen := he.length_le
    rw [SpeculativeSession.emitted] at hlen
    have hcount := h.count
    have hmax := h.max
    have hle' := h.le
    rw [length_nil] at hle'
    omega

-- A client that goes away keeps everything else.
theorem Sending.close (h : Sending f out c req) : Sending f out { c with closed := true } req :=
  ⟨h.max, h.context, h.follows, h.count, h.le, h.live, h.finished⟩

theorem Sent.close (h : Sent f c req) : Sent f { c with closed := true } req :=
  h.imp (fun h => ⟨h.left, rfl⟩) Sending.close

theorem Stage.close (h : Stage f j c req phase) : Stage f j { c with closed := true } req phase := by
  cases phase
  case commit =>
    simp only [Stage] at h ⊢
    split at h
    case isTrue  hlt => simpa [hlt] using Sent.close h
    case isFalse hlt => simpa [hlt] using ⟨h.left.close, h.right⟩
  case send =>
    simp only [Stage] at h ⊢
    split at h
    case isTrue  hlt => simpa [hlt] using Sent.close h
    case isFalse hlt =>
      rw [if_neg hlt]
      split at h
      case isTrue  heq => simpa [heq] using h.imp (fun h => ⟨h.left, h.right.right⟩) Sending.close
      case isFalse heq => simpa [heq] using ⟨h.left.close, h.right⟩
  case correct =>
    simp only [Stage] at h ⊢
    split at h
    case isTrue  hlt => simpa [hlt] using Sent.close h
    case isFalse hlt =>
      rw [if_neg hlt]
      split at h
      case isTrue  heq => simpa [heq] using Sending.close h
      case isFalse heq => simpa [heq] using ⟨h.left.close, h.right⟩
  case cleanup =>
    simp only [Stage] at h ⊢
    split at h
    case isTrue  hlt => simpa [hlt] using Sending.close h
    case isFalse hlt => simpa [hlt] using Sent.close h
  case panicked => trivial
  all_goals exact Sending.close h

theorem Served.answer (h : Served f c) (hdone : c.done = []) (hlen : c.tokens.length = c.maxNewTokens) :
    Served f { c with done := c.done ++ [.ok ()] } :=
  ⟨h.follows, .inr ⟨by simp [hdone], hlen⟩⟩

-- What the channels of a client carry is never taken back.
structure Later (c c' : Client) : Prop where
  prompt       : c'.prompt = c.prompt
  maxNewTokens : c'.maxNewTokens = c.maxNewTokens
  tokens       : c.tokens <+: c'.tokens
  done         : c.done <+: c'.done

theorem Later.refl : Later c c :=
  ⟨rfl, rfl, prefix_rfl, prefix_rfl⟩

theorem Later.trans (h : Later c c') (h' : Later c' c'') : Later c c'' :=
  ⟨h'.prompt.trans h.prompt, h'.maxNewTokens.trans h.maxNewTokens, h.tokens.trans h'.tokens, h.done.trans h'.done⟩

-- After the answer nothing more comes.
theorem Served.settled (h : Served f c) (h' : Served f c') (hl : Later c c') (hdone : c.done ≠ []) :
    c'.tokens = c.tokens ∧ c'.done = c.done := by
  have ⟨hd, hlen⟩ := h.done.resolve_left hdone
  have ⟨hd', hlen'⟩ := h'.done.resolve_left fun hnil => hdone (prefix_nil.mp (hnil ▸ hl.done))
  exact ⟨(hl.tokens.eq_of_length (hlen.trans (hl.maxNewTokens.symm.trans hlen'.symm))).symm, hd'.trans hd.symm⟩

end Stages

namespace VeloScheduler

variable {R μ δ τ : Type} {f : List TokenId → TokenId} {s s' : VeloScheduler R μ δ τ} {c : Client} {i : Nat}

-- The invariant of all runs with models that answer.
structure Serving (f : List TokenId → TokenId) (s : VeloScheduler R μ δ τ) : Prop where
  accounts : Accounts False s
  served   : ∀ (i : Nat) c, s.clients[i]? = some c → Served f c
  queued   : ∀ r ∈ s.requestRx ++ s.pending, ∃ c, s.clients[r.client]? = some c ∧ c.prompt = r.prompt ∧
    c.maxNewTokens = r.maxNewTokens ∧ c.tokens = []
  stages   : Stages f s.phase s.active s.clients

theorem Accounts.active_nodup (h : Accounts P s) : (s.active.map (·.client)).Nodup :=
  (nodup_append.mp h.accounted.nodup).right.left

-- The clients of the waiting requests are not those of the active ones.
theorem Accounts.ne_of_waiting (h : Accounts P s) {r : SchedulerRequest} {req : ActiveRequestInternal}
    (hr : r ∈ s.requestRx ++ s.pending) (hreq : req ∈ s.active) : r.client ≠ req.client :=
  (nodup_append.mp h.accounted.nodup).right.right _ (map_append ▸ mem_map_of_mem hr) _ (mem_map_of_mem hreq)

theorem Accounts.done_eq_nil (h : Accounts P s) {req : ActiveRequestInternal} (hreq : req ∈ s.active)
    (hc : s.clients[req.client]? = some c) : c.done = [] := by
  have ⟨c', hc', hdone⟩ := h.accounted.waiting req.client (mem_append_right _ (mem_map_of_mem hreq))
  cases hc.symm.trans hc'
  exact hdone

-- Where one client of an active request changes.
structure Updates (s s' : VeloScheduler R μ δ τ) (client : Nat) (c' : Client) : Prop where
  get       : s'.clients[client]? = some c'
  rest      : ∀ k ≠ client, s'.clients[k]? = s.clients[k]?
  requestRx : s'.requestRx = s.requestRx
  pending   : s'.pending = s.pending

-- One request goes on.
theorem Serving.update {req : ActiveRequestInternal} (h : Serving f s) (req' : ActiveRequestInternal)
    (hacc : Accounts False s') (hreq : s.active[i]? = some req) (hu : Updates s s' req.client c)
    (hserved : Served f c) (hactive : s'.active = s.active.set i req')
    (hclient : req'.client = req.client) (hstage : Stage f i c req' s'.phase)
    (hothers : ∀ j ≠ i, ∀ r c, Stage f j c r s.phase → Stage f j c r s'.phase) :
    Serving f s' where
  accounts := hacc
  served k c' hk := by
    by_cases heq : k = req.client
    case pos =>
      subst heq
      cases hu.get.symm.trans hk
      exact hserved
    case neg => exact h.served k c' (hu.rest k heq ▸ hk)
  queued r hr := by
    rw [hu.requestRx, hu.pending] at hr
    have ⟨c', hc', hrest⟩ := h.queued r hr
    exact ⟨c', (hu.rest _ (h.accounts.ne_of_waiting hr (mem_of_getElem? hreq))).trans hc', hrest⟩
  stages := by
    rw [hactive]
    exact h.stages.set h.accounts.active_nodup hreq hclient hu.get hu.rest hstage hothers

-- Nothing but the phase and the models changes.
theorem Serving.move (h : Serving f s) (hacc : Accounts False s') (hclients : s'.clients = s.clients)
    (hactive : s'.active = s.active) (hrx : s'.requestRx = s.requestRx) (hpending : s'.pending = s.pending)
    (hstage : ∀ (j : Nat) r c, s.active[j]? = some r → Stage f j c r s.phase → Stage f j c r s'.phase) :
    Serving f s' where
  accounts  := hacc
  served    := hclients ▸ h.served
  queued    := by rw [hclients, hrx, hpending]; exact h.queued
  stages    := by rw [hactive, hclients]; exact h.stages.mono hstage

theorem sendToken_get (hopen : s.isClosed client = false) (hc : s.clients[client]? = some c) :
    Updates s (s.sendToken client token) client { c with tokens := c.tokens ++ [token] } := by
  unfold sendToken
  rw [if_neg (by simp [hopen])]
  refine ⟨?_, fun k hk => ?_, rfl, rfl⟩
  case refine_1 => rw [onClient, getElem?_modify_eq, hc]; rfl
  case refine_2 => rw [onClient, getElem?_modify_ne _ _ (Ne.symm hk)]

section Loops

variable {req r : ActiveRequestInternal} {results : StepResults} {accepted : List TokenId} {j : Nat}

theorem stage_commit_of_ne (hj : j ≠ i) (h : Stage f j c r (.commit i results)) :
    Stage f j c r (.send i accepted results) := by
  simp only [Stage] at h ⊢
  split
  case isTrue hlt => simpa [hlt] using h
  case isFalse hlt => simpa [hlt, hj] using h

theorem stage_send_of_ne (accepted' : List TokenId) (hj : j ≠ i) (h : Stage f j c r (.send i accepted results)) :
    Stage f j c r (.send i accepted' results) ∧ Stage f j c r (.commit (i + 1) results) ∧
      Stage f j c r (.correct i results) := by
  simp only [Stage] at h ⊢
  by_cases hlt : j < i
  case pos => simpa [hlt, show j < i + 1 by omega] using h
  case neg => simpa [hlt, hj, show ¬j < i + 1 by omega] using h

theorem stage_correct_of_ne (hj : j ≠ i) (h : Stage f j c r (.correct i results)) :
    Stage f j c r (.commit (i + 1) results) := by
  simp only [Stage] at h ⊢
  by_cases hlt : j < i
  case pos => simpa [hlt, show j < i + 1 by omega] using h
  case neg => simpa [hlt, hj, show ¬j < i + 1 by omega] using h

theorem Serving.commit (h : Serving f s) (hphase : s.phase = .commit i results) : Serving f (s.commit i results) := by
  have hacc := h.accounts.quiet (commit_quiet i results).left (h.accounts.honest.commit i results)
  have hstages := h.stages
  rw [hphase] at hstages
  unfold VeloScheduler.commit at hacc ⊢
  split at hacc
  case h_1 hnone =>
    refine h.move hacc rfl rfl rfl rfl fun j r c hj hs => ?_
    have hlt : j < i := (List.getElem?_eq_some_iff.mp hj).1.trans_le (getElem?_eq_none_iff.mp hnone)
    rw [hphase] at hs
    simpa [Stage, withPhase, hlt] using hs
  case h_2 req hreq =>
    obtain ⟨c, hc, hs⟩ := hstages i req hreq
    simp only [Stage, Nat.lt_irrefl, ↓reduceIte] at hs
    obtain ⟨drafted, verified, accepted, session, hd, hv, hcommit, hsending⟩ := hs.left.commit hs.right
    simp only [hd, hv, hcommit] at hacc ⊢
    refine h.update _ hacc hreq ⟨hc, fun _ _ => rfl, rfl, rfl⟩ (h.served _ _ hc) rfl rfl ?_ fun j hj r c hs => ?_
    case refine_1 => simpa [Stage, withPhase] using .inr hsending
    case refine_2 => exact stage_commit_of_ne hj (hphase ▸ hs)

-- Whether the first token is marked or not, the next step writes the request again.
theorem markFirst_set (req' : ActiveRequestInternal) : (s.markFirst i req).active.set i req' = s.active.set i req' := by
  unfold markFirst
  split
  case isTrue => rfl
  case isFalse => exact set_set ..

theorem markFirst_clients : (s.markFirst i req).clients = s.clients := by
  unfold markFirst
  split <;> rfl

theorem Updates.markFirst (h : Updates (s.markFirst i req) s' client c) : Updates s s' client c := by
  unfold VeloScheduler.markFirst at h
  split at h
  case isTrue => exact h
  case isFalse => exact ⟨h.get, h.rest, h.requestRx, h.pending⟩

theorem isClosed_of_getElem? {client : Nat} (hc : s.clients[client]? = some c) : s.isClosed client = c.closed := by
  rw [isClosed, hc]
  rfl

theorem Serving.send (h : Serving f s) (hphase : s.phase = .send i accepted results) :
    Serving f (s.send i accepted results) := by
  have hacc := h.accounts.quiet (send_quiet i accepted results).left (h.accounts.honest.send i accepted results)
  have hstages := h.stages
  rw [hphase] at hstages
  unfold VeloScheduler.send at hacc ⊢
  split at hacc
  case h_1 hnone =>
    exact h.move hacc rfl rfl rfl rfl fun _ _ _ _ _ => trivial
  case h_2 req hreq =>
    have ⟨c, hc, hs⟩ := hstages i req hreq
    simp only [Stage, Nat.lt_irrefl, ↓reduceIte] at hs
    have hdone := h.accounts.done_eq_nil (mem_of_getElem? hreq) hc
    split at hacc
    case h_1 =>
      refine h.move hacc rfl rfl rfl rfl fun j r c' hj hs' => ?_
      rw [hphase] at hs'
      by_cases hij : j = i
      case neg =>
        have ⟨_, hcommit, hcorrect⟩ := stage_send_of_ne [] hij hs'
        simp only [withPhase]
        split
        case isTrue => exact hcommit
        case isFalse => exact hcorrect
      case pos =>
        subst hij
        cases hreq.symm.trans hj
        simp only [Stage, Nat.lt_irrefl, ↓reduceIte, nil_append] at hs'
        simp only [withPhase]
        split
        case isTrue hcancelled =>
          simp only [Stage, Nat.lt_succ_self, ↓reduceIte]
          exact .inl ⟨hcancelled, (hs'.elim (·.right.left) fun hs => absurd hs.live (by simp [hcancelled]))⟩
        case isFalse hlive =>
          simp only [Stage, Nat.lt_irrefl, ↓reduceIte]
          exact hs'.resolve_left fun hlost => hlive hlost.left
    case h_2 token rest =>
      have hsending := hs.resolve_left fun hlost => by simp at hlost
      have hquiet : Quiet s (s.markFirst i req) := .markFirst (by rw [hreq]; rfl)
      dsimp only at hacc ⊢
      by_cases hclosed : (s.markFirst i req).isClosed req.client = true
      case pos =>
        rw [if_pos hclosed] at hacc ⊢
        rw [hquiet.isClosed, isClosed_of_getElem? hc] at hclosed
        refine h.update _ hacc hreq ⟨?_, fun k _ => ?_, hquiet.requestRx, hquiet.pending⟩ (h.served _ _ hc)
          (markFirst_set _) rfl ?_ fun j hj r c' hs => (stage_send_of_ne _ hj (hphase ▸ hs)).left
        case refine_1 => exact (congrArg (·[req.client]?) markFirst_clients).trans hc
        case refine_2 => exact congrArg (·[k]?) markFirst_clients
        case refine_3 => simpa [Stage, withPhase] using .inl hclosed
      case neg =>
        rw [if_neg hclosed] at hacc ⊢
        have hget : (s.markFirst i req).clients[req.client]? = some c := by rw [markFirst_clients, hc]
        have hu : Updates s ((s.markFirst i req).sendToken req.client token) req.client
            { c with tokens := c.tokens ++ [token] } :=
          (sendToken_get (Bool.eq_false_iff.mpr hclosed) hget).markFirst
        have hsent : Sending f (rest ++ req.session.rejectedToken.toList) { c with tokens := c.tokens ++ [token] }
            { req with firstTokenSent := true, generatedCount := req.generatedCount + 1 } :=
          hsending.send rfl rfl rfl hsending.live rfl
        have hactive (req') : ((s.markFirst i req).sendToken req.client token).active.set i req' = s.active.set i req' := by
          rw [sendToken_active, markFirst_set]
        generalize (s.markFirst i req).sendToken req.client token = s₁ at hacc hu hactive ⊢
        refine h.update { req with firstTokenSent := true, generatedCount := req.generatedCount + 1 } hacc hreq
          ⟨hu.get, hu.rest, hu.requestRx, hu.pending⟩ ⟨hsent.follows.of_append, .inl hdone⟩ (hactive _) rfl ?_
          fun j hj r c' hs => (stage_send_of_ne _ hj (hphase ▸ hs)).left
        simpa [Stage, withPhase] using .inr hsent

theorem Serving.correct (h : Serving f s) (hphase : s.phase = .correct i results) :
    Serving f (s.correct i results) := by
  have hacc := h.accounts.quiet (correct_quiet i results).left (h.accounts.honest.correct i results)
  have hstages := h.stages
  rw [hphase] at hstages
  unfold VeloScheduler.correct at hacc ⊢
  split at hacc
  case h_1 hnone => exact h.move hacc rfl rfl rfl rfl fun _ _ _ _ _ => trivial
  case h_2 req hreq =>
    have ⟨c, hc, hs⟩ := hstages i req hreq
    simp only [Stage, Nat.lt_irrefl, ↓reduceIte] at hs
    have hdone := h.accounts.done_eq_nil (mem_of_getElem? hreq) hc
    have hothers : ∀ j ≠ i, ∀ r c', Stage f j c' r s.phase → Stage f j c' r (.commit (i + 1) results) :=
      fun j hj r c' hs => stage_correct_of_ne hj (hphase ▸ hs)
    rw [SpeculativeSession.takeRejectedToken] at hacc ⊢
    cases hrej : req.session.rejectedToken
    case none =>
      rw [hrej] at hs hacc
      refine h.move hacc rfl rfl rfl rfl fun j r c' hj hs' => ?_
      by_cases hij : j = i
      case neg => exact hothers j hij r c' hs'
      case pos =>
        subst hij
        cases hreq.symm.trans hj
        rw [hphase] at hs'
        simp only [Stage, Nat.lt_irrefl, ↓reduceIte, hrej] at hs'
        simpa [Stage, withPhase] using .inr hs'
    case some token =>
      rw [hrej] at hs hacc
      have hquiet : Quiet s (s.markFirst i req) := .markFirst (by rw [hreq]; rfl)
      have hget : (s.markFirst i req).clients[req.client]? = some c := by rw [markFirst_clients, hc]
      have hactive (req') :
          ((s.markFirst i req).sendToken req.client token).active.set i req' = s.active.set i req' := by
        rw [sendToken_active, markFirst_set]
      dsimp only at hacc ⊢
      cases hclosed : (s.markFirst i req).isClosed req.client
      case true =>
        have hsame : (s.markFirst i req).sendToken req.client token = s.markFirst i req := if_pos hclosed
        rw [hclosed, hsame] at hacc
        rw [hsame]
        rw [hquiet.isClosed, isClosed_of_getElem? hc] at hclosed
        refine h.update _ hacc hreq ⟨?_, fun k _ => ?_, hquiet.requestRx, hquiet.pending⟩ (h.served _ _ hc)
          (markFirst_set _) rfl ?_ hothers
        case refine_1 => exact (congrArg (·[req.client]?) markFirst_clients).trans hc
        case refine_2 => exact congrArg (·[k]?) markFirst_clients
        case refine_3 => simpa [Stage, withPhase, Sent] using .inl hclosed
      case false =>
        rw [hclosed] at hacc
        have hu : Updates s ((s.markFirst i req).sendToken req.client token) req.client
            { c with tokens := c.tokens ++ [token] } :=
          (sendToken_get hclosed hget).markFirst
        have hsent : Sending f [] { c with tokens := c.tokens ++ [token] } { req with
            session := { req.session with rejectedToken := none }
            firstTokenSent := true
            cancelled := req.cancelled || false
            generatedCount := req.generatedCount + 1 } :=
          hs.send rfl rfl rfl (by simp [hs.live]) rfl
        generalize (s.markFirst i req).sendToken req.client token = s₁ at hacc hu hactive ⊢
        refine h.update _ hacc hreq ⟨hu.get, hu.rest, hu.requestRx, hu.pending⟩ ⟨hsent.follows.of_append, .inl hdone⟩
          (hactive _) rfl ?_ hothers
        simp only [Stage, withPhase, Nat.lt_succ_self, ↓reduceIte]
        exact .inr hsent

end Loops

theorem stage_cleanup_of_lt {j : Nat} {r : ActiveRequestInternal} (hj : i ≤ j) :
    Stage f j c r (.cleanup i) ↔ Sent f c r := by
  simp [Stage, Nat.not_lt.mpr hj]

theorem Serving.cleanup (h : Serving f s) (hphase : s.phase = .cleanup i) : Serving f (s.cleanup i) := by
  have hacc := h.accounts.cleanup i
  have hstages := h.stages
  rw [hphase] at hstages
  unfold VeloScheduler.cleanup at hacc ⊢
  split at hacc
  case h_1 hnone =>
    refine h.move hacc rfl rfl rfl rfl fun j r c hj hs => ?_
    have hlt : j < i := (List.getElem?_eq_some_iff.mp hj).1.trans_le (getElem?_eq_none_iff.mp hnone)
    rw [hphase] at hs
    simpa [Stage, withPhase, hlt] using hs
  case h_2 req hreq =>
    have hmem := mem_of_getElem? hreq
    obtain ⟨c, hc, hs⟩ := hstages i req hreq
    rw [stage_cleanup_of_lt le_rfl] at hs
    have hdone := h.accounts.done_eq_nil hmem hc
    dsimp only at hacc ⊢
    split at hacc
    case isFalse hstay =>
      rw [if_neg hstay]
      refine h.move hacc rfl rfl rfl rfl fun j r c' hj hs' => ?_
      rw [hphase] at hs'
      rcases Nat.lt_trichotomy j i with hlt | rfl | hgt
      case inl => simpa [Stage, withPhase, hlt, show j < i + 1 by omega] using hs'
      case inr.inl =>
        cases hreq.symm.trans hj
        rw [stage_cleanup_of_lt le_rfl] at hs'
        simp only [Bool.or_eq_true, not_or] at hstay
        simpa [Stage, withPhase] using hs'.resolve_left fun hlost => hstay.right.left hlost.left
      case inr.inr =>
        rw [stage_cleanup_of_lt hgt.le] at hs'
        simpa [withPhase, stage_cleanup_of_lt (show i + 1 ≤ j from hgt)] using hs'
    case isTrue hleave =>
      rw [if_pos hleave]
      have hne {k : Nat} {r} (hk : s.active[k]? = some r) (hki : k ≠ i) : r.client ≠ req.client :=
        client_ne h.accounts.active_nodup hk hreq hki
      -- The requests behind the one that leaves move up by one.
      have herase : ∀ {clients : List Client}, (∀ k ≠ req.client, clients[k]? = s.clients[k]?) →
          Stages f s.phase (s.active.eraseIdx i) clients := by
        intro clients hrest j r hj
        rw [getElem?_eraseIdx] at hj
        rw [hphase]
        split at hj
        case isTrue hlt =>
          obtain ⟨c', hc', hs'⟩ := hstages j r hj
          exact ⟨c', (hrest _ (hne hj hlt.ne)).trans hc', hs'⟩
        case isFalse hge =>
          obtain ⟨c', hc', hs'⟩ := hstages (j + 1) r hj
          rw [stage_cleanup_of_lt (by omega)] at hs'
          exact ⟨c', (hrest _ (hne hj (by omega))).trans hc', (stage_cleanup_of_lt (by omega)).mpr hs'⟩
      obtain ⟨pool, hrel, _⟩ := SlotPool.release_of_lt (h.accounts.slot_lt _ (mem_map_of_mem hmem))
      simp only [hrel] at hacc ⊢
      split at hacc
      case isFalse hno =>
        rw [if_neg hno]
        exact ⟨hacc, h.served, h.queued, herase fun _ _ => rfl⟩
      case isTrue hyes =>
        rw [if_pos hyes]
        simp only [Bool.and_eq_true, Bool.not_eq_true', Bool.or_eq_false_iff, Bool.or_eq_true, decide_eq_true_eq] at hyes
        have hsending := hs.resolve_left fun hlost => by simp [hlost.left] at hyes
        have hlen : c.tokens.length = c.maxNewTokens := by
          have hle := hsending.le
          have hcount := hsending.count
          have hmax := hsending.max
          rw [length_nil] at hle
          have := hyes.left.resolve_right (by simp [hsending.finished])
          omega
        have hrest : ∀ k ≠ req.client,
            (s.clients.modify req.client fun c => { c with done := c.done ++ [.ok ()] })[k]? = s.clients[k]? := fun k hk =>
          getElem?_modify_ne _ _ hk.symm
        refine ⟨hacc, fun k c' hk => ?_, fun r hr => ?_, herase hrest⟩
        case refine_1 =>
          by_cases heq : k = req.client
          case neg => exact h.served k c' ((hrest k heq).symm.trans hk)
          case pos =>
            subst heq
            simp only [onClient, getElem?_modify_eq, hc, Option.map_eq_map, Option.map_some, Option.some.injEq] at hk
            exact hk ▸ (h.served _ _ hc).answer hdone hlen
        case refine_2 =>
          obtain ⟨c', hc', hq⟩ := h.queued r hr
          exact ⟨c', (hrest _ (h.accounts.ne_of_waiting hr hmem)).trans hc', hq⟩

-- The next request moves from the channel to those that wait.
theorem Serving.poll {req : SchedulerRequest} {rest : List SchedulerRequest} (h : Serving f s) (hacc : Accounts False s')
    (hrx : s.requestRx = req :: rest) (hrx' : s'.requestRx = rest) (hpending : s'.pending = s.pending ++ [req])
    (hclients : s'.clients = s.clients) (hactive : s'.active = s.active)
    (hstage : ∀ (j : Nat) r c, s.active[j]? = some r → Stage f j c r s.phase → Stage f j c r s'.phase) :
    Serving f s' where
  accounts := hacc
  served   := hclients ▸ h.served
  queued r hr := by
    rw [hclients]
    refine h.queued r ?_
    rw [hrx', hpending] at hr
    rw [hrx]
    simp only [mem_append, mem_cons, not_mem_nil, or_false] at hr ⊢
    tauto
  stages   := by rw [hactive, hclients]; exact h.stages.mono hstage

theorem Serving.pollRequest (h : Serving f s) (hphase : s.phase = .requests) (hacc : Accounts False s.pollRequest) :
    Serving f s.pollRequest := by
  have hstage : ∀ (j : Nat) r c, s.active[j]? = some r → Stage f j c r s.phase → Sending f [] c r :=
    fun j r c _ hs => by rwa [hphase] at hs
  unfold VeloScheduler.pollRequest at hacc ⊢
  split at hacc
  case h_1 => exact h.move hacc rfl rfl rfl rfl hstage
  case h_2 hrx => exact h.poll hacc hrx rfl rfl rfl rfl fun _ _ _ _ hs => hs

theorem Serving.await (h : Serving f s) (hphase : s.phase = .idle) (hacc : Accounts False s.await) :
    Serving f s.await := by
  have hstage : ∀ (j : Nat) r c, s.active[j]? = some r → Stage f j c r s.phase → Sending f [] c r :=
    fun j r c _ hs => by rwa [hphase] at hs
  unfold VeloScheduler.await at hacc ⊢
  split at hacc
  case isTrue hempty =>
    rw [if_pos hempty]
    split at hacc
    case h_1 hrx => exact h.poll hacc hrx rfl rfl rfl rfl hstage
    case h_2 =>
      split at hacc
      case isTrue  hup => rw [if_pos hup]; exact h.move hacc rfl rfl rfl rfl hstage
      case isFalse hup => rw [if_neg hup]; exact h
  case isFalse hsome =>
    rw [if_neg hsome]
    split at hacc
    case isTrue  hno =>
      rw [if_pos hno]
      refine h.move hacc rfl rfl rfl rfl fun j r c hj hs => ?_
      simpa [Stage, withPhase] using .inr (hstage j r c hj hs)
    case isFalse hno => rw [if_neg hno]; exact h.move hacc rfl rfl rfl rfl hstage

theorem Serving.submit (h : Serving f s) (prompt : List TokenId) (n : Nat) : Serving f (s.submit prompt n) where
  accounts := h.accounts.submit prompt n
  served i c hc := by
    rcases Nat.lt_trichotomy i s.clients.length with hlt | rfl | hgt
    case inl => exact h.served i c (by rwa [VeloScheduler.submit, getElem?_append_left hlt] at hc)
    case inr.inl =>
      rw [VeloScheduler.submit, getElem?_concat_length, Option.some.injEq] at hc
      exact hc ▸ ⟨.nil, .inl rfl⟩
    case inr.inr => rw [VeloScheduler.submit, getElem?_eq_none (by simp; omega)] at hc; contradiction
  queued r hr := by
    have hold : ∀ r ∈ s.requestRx ++ s.pending, ∃ c, (s.submit prompt n).clients[r.client]? = some c ∧
        c.prompt = r.prompt ∧ c.maxNewTokens = r.maxNewTokens ∧ c.tokens = [] := fun r hr => by
      obtain ⟨c, hc, hrest⟩ := h.queued r hr
      exact ⟨c, (getElem?_append_left (List.getElem?_eq_some_iff.mp hc).1).trans hc, hrest⟩
    rw [VeloScheduler.submit] at hr
    dsimp only at hr
    split at hr
    case isFalse => exact hold r hr
    case isTrue =>
      rw [append_assoc, mem_append, mem_append, mem_singleton, or_left_comm] at hr
      rcases hr with rfl | hr
      case inl => exact ⟨_, getElem?_concat_length, rfl, rfl, rfl⟩
      case inr => exact hold r (mem_append.mpr hr)
  stages j req hj := by
    obtain ⟨c, hc, hs⟩ := h.stages j req hj
    exact ⟨c, (getElem?_append_left (List.getElem?_eq_some_iff.mp hc).1).trans hc, hs⟩

theorem Serving.drop (h : Serving f s) (client : Nat) :
    Serving f (s.onClient client fun c => { c with closed := true }) := by
  have hget {i : Nat} {c} (hc : s.clients[i]? = some c) :
      (s.onClient client fun c => { c with closed := true }).clients[i]? =
        some (if client = i then { c with closed := true } else c) := by
    rw [onClient, getElem?_modify, hc]
    rfl
  refine ⟨h.accounts.drop client, fun i c' hc' => ?_, fun r hr => ?_, fun j req hj => ?_⟩
  case refine_1 =>
    have hlt : i < s.clients.length := by simpa [onClient] using (List.getElem?_eq_some_iff.mp hc').1
    have hc := getElem?_eq_getElem hlt
    have hs := h.served i _ hc
    cases hc'.symm.trans (hget hc)
    split
    case isTrue  => exact ⟨hs.follows, hs.done⟩
    case isFalse => exact hs
  case refine_2 =>
    obtain ⟨c, hc, hprompt, hmax, htokens⟩ := h.queued r hr
    refine ⟨_, hget hc, ?_⟩
    split <;> exact ⟨hprompt, hmax, htokens⟩
  case refine_3 =>
    obtain ⟨c, hc, hs⟩ := h.stages j req hj
    refine ⟨_, hget hc, ?_⟩
    split
    case isTrue  => exact Stage.close hs
    case isFalse => exact hs

section Models

variable [MemoryRuntime R] [DraftModel μ δ] [TargetModel μ τ]

-- A request that has just been admitted has got nothing yet.
theorem Serving.admitNext (h : Serving f s) (hphase : s.phase = .admission) (hacc : Accounts False s.admitNext) :
    Serving f s.admitNext := by
  have hstage : ∀ (j : Nat) r c, s.active[j]? = some r → Stage f j c r s.phase → Sending f [] c r :=
    fun j r c _ hs => by rwa [hphase] at hs
  unfold VeloScheduler.admitNext at hacc ⊢
  split at hacc
  case isFalse hfull => rw [if_neg hfull]; exact h.move hacc rfl rfl rfl rfl hstage
  case isTrue hfree =>
    rw [if_pos hfree]
    split at hacc
    case h_1 => exact h.move hacc rfl rfl rfl rfl hstage
    case h_2 req rest hp =>
      have hqueued : ∀ r ∈ s.requestRx ++ rest, ∃ c, s.clients[r.client]? = some c ∧ c.prompt = r.prompt ∧
          c.maxNewTokens = r.maxNewTokens ∧ c.tokens = [] := fun r hr => by
        refine h.queued r ?_
        rw [hp]
        simp only [mem_append, mem_cons] at hr ⊢
        tauto
      split at hacc
      case h_1 activeReq m hadmitted =>
        have ⟨pool, out, hadm⟩ := admitRequest_eq_ok hadmitted
        refine ⟨hacc, h.served, hqueued, fun j r hj => ?_⟩
        rw [getElem?_append] at hj
        split at hj
        case isTrue => exact h.stages j r hj
        case isFalse =>
          have hr := mem_singleton.mp (mem_of_getElem? hj)
          have ⟨c, hc, hprompt, hmax, htokens⟩ := h.queued req (by rw [hp]; simp)
          rw [hr, hadm.request]
          refine ⟨c, hc, ?_⟩
          rw [hphase]
          exact ⟨hmax.symm, by simp [SpeculativeDecoder.begin, hprompt, htokens], by rw [htokens]; exact .nil,
            by simp [htokens], by simp [htokens], rfl, rfl⟩
      case h_2 => exact ⟨hacc, h.served, hqueued, h.stages⟩
      case h_3 =>
        refine ⟨hacc, h.served, hqueued, fun j r hj => ?_⟩
        have ⟨c, hc, _⟩ := h.stages j r hj
        exact ⟨c, hc, trivial⟩

-- What a step comes to: the models fail for a bad context and only they change, or they answer for every request,
-- at its position.
inductive Stepped (f : List TokenId → TokenId) (bad : List TokenId → Prop) (s : VeloScheduler R μ δ τ) :
    VeloScheduler R μ δ τ → Prop
  | failed (models : Models δ τ) {req : ActiveRequestInternal} :
    req ∈ s.active → bad req.session.context →
    Stepped f bad s { s with machine := { s.machine with models }, phase := .cleanup 0 }
  | answered (models : Models δ τ) (results : StepResults) :
    (∀ (j : Nat) req, s.active[j]? = some req → Expects f results j req ∧ Drafts results j req) →
    Stepped f bad s { s with machine := { s.machine with models }, phase := .commit 0 results }

variable {bad : List TokenId → Prop}

omit [MemoryRuntime R] in
theorem callModels_stepped (hδ : DraftModel.FailsOnly δ bad) (hτ : TargetModel.FailsOnly τ f bad)
    (s : VeloScheduler R μ δ τ) : Stepped f bad s s.callModels := by
  have hw := s.machine.engine.decoder.draftWindow_pos
  have hdraft := hδ s.machine.models.draft (draftRequests s.machine.engine.decoder.draftWindow s.active) fun r hr => by
    have ⟨_, _, he⟩ := mem_map.mp hr
    rw [← he]
  unfold VeloScheduler.callModels
  rcases hdraft with ⟨e, ms, d, hd, r, hr, hbad⟩ | ⟨drafted, ms, d, hd, hdrafted⟩
  case inl =>
    have ⟨req, hreq, he⟩ := mem_map.mp hr
    rw [← he] at hbad
    simp only [hd]
    exact .failed _ hreq hbad
  case inr =>
    rw [draftRequests, forall₂_map_left_iff] at hdrafted
    have hlen : ¬drafted.length < s.active.length := hdrafted.length_eq.le.not_gt
    have hverify := hτ s.machine.models.target (verifyRequests s.active drafted) fun r hr => by
      have ⟨_, _, he⟩ := mem_map.mp hr
      rw [← he]
    simp only [hd]
    rw [if_neg hlen]
    rcases hverify with ⟨e, ms, t, hv, r, hr, hbad⟩ | ⟨verified, ms, t, hv, hverified⟩
    case inl =>
      have ⟨p, hp, he⟩ := mem_map.mp hr
      rw [← he] at hbad
      simp only [hv]
      exact .failed _ (of_mem_zip hp).left hbad
    case inr =>
      rw [verifyRequests, forall₂_map_left_iff] at hverified
      simp only [hv]
      refine .answered _ _ fun j r hj => ?_
      have ⟨ps, hps, hle, hpos⟩ := forall₂_getElem? hdrafted hj
      have hzip : (s.active.zip drafted)[j]? = some (r, ps) := getElem?_zip_eq_some.mpr ⟨hj, hps⟩
      have ⟨vs, hvs, hmap⟩ := forall₂_getElem? hverified hzip
      refine ⟨⟨ps, vs, hps, hvs, hle.trans (min_le_right ..), hmap⟩, ps, hps, fun hlt => hpos ?_⟩
      dsimp only
      omega

omit [MemoryRuntime R] in
theorem Serving.callModels (h : Serving f s) (hphase : s.phase = .step) (hacc : Accounts False s.callModels)
    (hδ : DraftModel.FailsOnly δ bad) (hτ : TargetModel.FailsOnly τ f bad) : Serving f s.callModels := by
  have hs := callModels_stepped hδ hτ s
  generalize s.callModels = t at hs hacc ⊢
  cases hs
  case failed =>
    refine h.move hacc rfl rfl rfl rfl fun j r c hj hs => ?_
    rw [hphase] at hs
    exact (stage_cleanup_of_lt j.zero_le).mpr (.inr hs)
  case answered hx =>
    refine h.move hacc rfl rfl rfl rfl fun j r c hj hs => ?_
    rw [hphase] at hs
    exact ⟨hs, (hx j r hj).left⟩

variable {a : Action}

theorem Serving.work (h : Serving f s) (hδ : DraftModel.FailsOnly δ bad) (hτ : TargetModel.FailsOnly τ f bad) :
    Serving f s.work := by
  have hacc := h.accounts.work fun p => p.elim
  unfold VeloScheduler.work at hacc ⊢
  split at hacc
  case h_1 hphase =>
    unfold pollCommand at hacc ⊢
    split at hacc
    case h_1 => exact h.move hacc rfl rfl rfl rfl fun _ _ _ _ hs => by rwa [hphase] at hs
    all_goals exact h.move hacc rfl rfl rfl rfl fun _ _ _ _ hs => hs
  case h_2 hphase => exact h.pollRequest hphase hacc
  case h_3 hphase => exact h.admitNext hphase hacc
  case h_4 hphase => exact h.await hphase hacc
  case h_5 hphase => exact h.callModels hphase hacc hδ hτ
  case h_6 hphase => exact h.commit hphase
  case h_7 hphase => exact h.send hphase
  case h_8 hphase => exact h.correct hphase
  case h_9 hphase => exact h.cleanup hphase
  case h_10 => exact h
  case h_11 => exact ⟨hacc, h.served, by simp [VeloScheduler.unwind], by simp [Stages, VeloScheduler.unwind]⟩

theorem Serving.next (h : Serving f s) (hδ : DraftModel.FailsOnly δ bad) (hτ : TargetModel.FailsOnly τ f bad) :
    Serving f (s.next a) := by
  have hacc := h.accounts.next (a := a) fun p => p.elim
  cases a
  case work                => exact h.work hδ hτ
  case submit prompt n     => exact h.submit prompt n
  case drop client         => exact h.drop client
  case prefetch name path  =>
    rw [VeloScheduler.next, VeloScheduler.prefetch] at hacc ⊢
    split at hacc
    case isTrue  halive => rw [if_pos halive]; exact h.move hacc rfl rfl rfl rfl fun _ _ _ _ hs => hs
    case isFalse halive => rw [if_neg halive]; exact h
  all_goals exact h.move hacc rfl rfl rfl rfl fun _ _ _ _ hs => hs

end Models

section Growth

-- The clients stay where they are, and each may have got more.
def Grows (clients clients' : List Client) : Prop :=
  ∀ (i : Nat) c, clients[i]? = some c → ∃ c', clients'[i]? = some c' ∧ Later c c'

variable {clients clients' clients'' : List Client}

theorem Grows.refl : Grows clients clients :=
  fun _ c hc => ⟨c, hc, .refl⟩

theorem Grows.trans (h : Grows clients clients') (h' : Grows clients' clients'') : Grows clients clients'' := fun i c hc =>
  have ⟨c', hc', hl⟩ := h i c hc
  have ⟨c'', hc'', hl'⟩ := h' i c' hc'
  ⟨c'', hc'', hl.trans hl'⟩

theorem onClient_grows (client : Nat) {g : Client → Client} (hg : ∀ c, Later c (g c)) :
    Grows s.clients (s.onClient client g).clients := by
  intro i c hc
  refine ⟨if client = i then g c else c, ?_, ?_⟩
  case refine_1 => rw [VeloScheduler.onClient, getElem?_modify, hc]; rfl
  case refine_2 =>
    split
    case isTrue  => exact hg c
    case isFalse => exact .refl

theorem sendToken_grows (client : Nat) (token : TokenId) : Grows s.clients (s.sendToken client token).clients := by
  unfold VeloScheduler.sendToken
  split
  case isTrue  => exact .refl
  case isFalse => exact onClient_grows client fun c => ⟨rfl, rfl, prefix_append c.tokens _, prefix_rfl⟩

theorem send_grows (i : Nat) (accepted : List TokenId) (results : StepResults) :
    Grows s.clients (s.send i accepted results).clients := by
  unfold VeloScheduler.send
  split
  case h_1 => exact .refl
  case h_2 req _ =>
    split
    case h_1 => exact .refl
    case h_2 token rest =>
      have hmark : (s.markFirst i req).clients = s.clients := markFirst_clients
      dsimp only
      split
      case isTrue  => exact hmark ▸ .refl
      case isFalse =>
        have hgrows := hmark ▸ sendToken_grows (s := s.markFirst i req) req.client token
        generalize (s.markFirst i req).sendToken req.client token = s₁ at hgrows ⊢
        exact hgrows

theorem correct_grows (i : Nat) (results : StepResults) : Grows s.clients (s.correct i results).clients := by
  unfold VeloScheduler.correct
  split
  case h_1 => exact .refl
  case h_2 req _ =>
    split
    case h_1 => exact .refl
    case h_2 token _ _ =>
      have hmark : (s.markFirst i req).clients = s.clients := markFirst_clients
      have hgrows := hmark ▸ sendToken_grows (s := s.markFirst i req) req.client token
      dsimp only
      generalize (s.markFirst i req).sendToken req.client token = s₁ at hgrows ⊢
      exact hgrows

theorem cleanup_grows (i : Nat) : Grows s.clients (s.cleanup i).clients := by
  unfold VeloScheduler.cleanup
  split
  case h_1 => exact .refl
  case h_2 req _ =>
    dsimp only
    split
    case isFalse => exact .refl
    case isTrue =>
      split
      case h_1 => exact .refl
      case h_2 =>
        split
        case isFalse => exact .refl
        case isTrue  => exact onClient_grows req.client fun c => ⟨rfl, rfl, prefix_rfl, prefix_append c.done _⟩

theorem commit_clients (i : Nat) (results : StepResults) : (s.commit i results).clients = s.clients := by
  unfold VeloScheduler.commit
  split
  case h_1 => rfl
  case h_2 =>
    split
    case h_1 => split <;> rfl
    case h_2 => rfl

variable [MemoryRuntime R] [DraftModel μ δ] [TargetModel μ τ]

theorem work_grows : Grows s.clients s.work.clients := by
  unfold VeloScheduler.work
  split
  case h_1 => unfold pollCommand; split <;> exact .refl
  case h_2 => unfold VeloScheduler.pollRequest; split <;> exact .refl
  case h_3 =>
    unfold VeloScheduler.admitNext
    split
    case isFalse => exact .refl
    case isTrue =>
      split
      case h_1 => exact .refl
      case h_2 => split <;> exact .refl
  case h_4 =>
    unfold VeloScheduler.await
    split
    case isFalse => split <;> exact .refl
    case isTrue =>
      split
      case h_1 => exact .refl
      case h_2 => split <;> exact .refl
  case h_5 => rw [(callModels_active (s := s)).right]; exact .refl
  case h_6 => rw [commit_clients]; exact .refl
  case h_7 => exact send_grows _ _ _
  case h_8 => exact correct_grows _ _
  case h_9 => exact cleanup_grows _
  case h_10 => exact .refl
  case h_11 => exact .refl

theorem next_grows (a : Action) : Grows s.clients (s.next a).clients := by
  cases a
  case work => exact work_grows
  case submit =>
    intro i c hc
    exact ⟨c, (getElem?_append_left (List.getElem?_eq_some_iff.mp hc).1).trans hc, .refl⟩
  case drop client => exact onClient_grows client fun _ => ⟨rfl, rfl, prefix_rfl, prefix_rfl⟩
  case prefetch => rw [VeloScheduler.next, VeloScheduler.prefetch]; split <;> exact .refl
  all_goals exact .refl

theorem Run.grows {P : VeloScheduler R μ δ τ → Action → Prop} {t : VeloScheduler R μ δ τ} (h : Run P s t) :
    Grows s.clients t.clients :=
  h.invariant (I := fun t => Grows s.clients t.clients) .refl fun _ a hi _ _ => hi.trans (next_grows a)

end Growth

section Streams

variable [MemoryRuntime R] [DraftModel μ δ] [TargetModel μ τ]

omit [MemoryRuntime R] [DraftModel μ δ] [TargetModel μ τ] in
theorem serving_start (m : Machine R μ δ τ) : Serving f (start m) where
  accounts := ⟨⟨nodup_nil, by simp [ids, start], by simp [start]⟩, by simp [Honest, start], by simp [start]⟩
  served   := by simp [start]
  queued   := by simp [start]
  stages   := by simp [Stages, start]

theorem Run.serving {P : VeloScheduler R μ δ τ → Action → Prop} {t : VeloScheduler R μ δ τ}
    {bad : List TokenId → Prop} (h : Run P s t) (hs : Serving f s) (hδ : DraftModel.FailsOnly δ bad)
    (hτ : TargetModel.FailsOnly τ f bad) : Serving f t :=
  h.invariant hs fun _ _ ht _ _ => ht.next hδ hτ

-- Whatever the clients do and whenever they do it, each gets the continuation of its own prompt, and the answer
-- after the last token; what has been sent stays, and nothing follows the answer.
theorem streams (hδ : DraftModel.AnswersBatch δ 0) (hτ : TargetModel.VerifiesBatchBy τ f) {m : Machine R μ δ τ}
    (h : Run (fun _ _ => True) (start m) s) (i : Nat) (c : Client) (hc : s.clients[i]? = some c) :
    Served f c ∧ ∀ t, Run (fun _ _ => True) s t → ∃ c', t.clients[i]? = some c' ∧ Later c c' ∧
      (c.done ≠ [] → c'.tokens = c.tokens ∧ c'.done = c.done) := by
  have hδ := hδ.failsOnly fun _ => False
  have hτ := hτ.failsOnly fun _ => False
  have hs := h.serving (serving_start m) hδ hτ
  refine ⟨hs.served i c hc, fun t ht => ?_⟩
  have ⟨c', hc', hl⟩ := ht.grows i c hc
  exact ⟨c', hc', hl, (hs.served i c hc).settled ((ht.serving hs hδ hτ).served i c' hc') hl⟩

-- The second client leaves while the first one is being served.
theorem streams_two : ∃ e : VeloEngine CpuMemoryRuntime Empty, VeloEngine.new ⟨2, ⟨1, 4, 8, 2⟩⟩ = .ok e ∧
    ∃ s, Run (fun _ _ => True) (start ⟨e, ⟨(⟨⟩ : Guesser List.sum), (⟨0⟩ : Oracle List.sum)⟩⟩) s ∧
      s.clients.map (·.tokens) = [[3, 6, 12], [3, 6]] ∧
      ∀ c, s.clients[0]? = some c → Served List.sum c ∧ ∀ t, Run (fun _ _ => True) s t →
        ∃ c', t.clients[0]? = some c' ∧ Later c c' ∧ (c.done ≠ [] → c'.tokens = c.tokens ∧ c'.done = c.done) := by
  refine ⟨_, rfl, _, Traced.run
    ([.submit [1, 2] 3, .submit [3] 4] ++ replicate 20 .work ++ [.drop 1] ++ replicate 20 .work)
    (by decide +kernel), by decide +kernel, ?_⟩
  exact streams Guesser.answersBatch Oracle.verifiesBatchBy (Traced.run _ (by decide +kernel)) 0

end Streams

end VeloScheduler
