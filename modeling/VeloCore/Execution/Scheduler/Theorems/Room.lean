import Mathlib
import VeloCore.Execution.Scheduler.Theorems.Outcomes
import VeloCore.Execution.Engine.Theorems.Drafts

open List

namespace Phase

-- The results of the request at position `j`, if it is still to be committed.
def uncommitted (j : Nat) : Phase → Option StepResults
  | .commit i results => if i ≤ j then some results else none
  | .send i _ results | .correct i results => if i < j then some results else none
  | _ => none

-- How many tokens the request at position `j` is about to get.
def due (j : Nat) (req : ActiveRequestInternal) : Phase → Nat
  | .send i accepted _ => if j = i then accepted.length + req.session.rejectedToken.toList.length else 0
  | .correct i _ => if j = i then req.session.rejectedToken.toList.length else 0
  | _ => 0

end Phase

-- What the models returned for the request at position `j` leaves it within its bounds.
def StepResults.Suit (results : StepResults) (j : Nat) (req : ActiveRequestInternal) : Prop :=
  ∀ drafted ∈ results.drafted[j]?, ∀ verified ∈ results.verified[j]?,
    SpeculativeSession.Suits (req.maxNewTokens - req.generatedCount) drafted verified

instance (results : StepResults) (j : Nat) (req : ActiveRequestInternal) : Decidable (results.Suit j req) :=
  inferInstanceAs (Decidable (∀ drafted ∈ results.drafted[j]?, ∀ verified ∈ results.verified[j]?, _))

-- There is room for the tokens that a request is about to get.
structure Room (phase : Phase) (j : Nat) (c : Client) (req : ActiveRequestInternal) : Prop where
  max   : req.maxNewTokens = c.maxNewTokens
  sent  : c.tokens.length ≤ req.generatedCount
  due   : req.generatedCount + phase.due j req ≤ req.maxNewTokens
  suits : ∀ results, phase.uncommitted j = some results → results.Suit j req

namespace Room

variable {phase phase' : Phase} {i j : Nat} {c c' : Client} {req : ActiveRequestInternal}

theorem le (h : Room phase j c req) : req.generatedCount ≤ req.maxNewTokens ∧ c.tokens.length ≤ c.maxNewTokens := by
  have hdue := h.due
  have hsent := h.sent
  have hmax := h.max
  omega

theorem mono (h : Room phase j c req) (hdue : phase'.due j req ≤ phase.due j req)
    (hun : ∀ results, phase'.uncommitted j = some results → phase.uncommitted j = some results) : Room phase' j c req :=
  ⟨h.max, h.sent, by have := h.due; omega, fun results hr => h.suits results (hun results hr)⟩

-- Outside of the loops over the results nothing is due.
theorem calm (h : Room phase i c req) (hdue : phase'.due j req = 0) (hun : phase'.uncommitted j = none) :
    Room phase' j c req :=
  ⟨h.max, h.sent, by have := h.le; omega, fun results hr => by simp [hun] at hr⟩

theorem share (h : Room phase j c req) (hc : c'.share = c.share) : Room phase j c' req := by
  obtain ⟨htokens, hmax⟩ := Prod.mk.inj hc
  exact ⟨h.max.trans hmax.symm, (congrArg length htokens).le.trans h.sent, h.due, h.suits⟩

end Room

namespace VeloScheduler

variable {R μ δ τ : Type} {s s' : VeloScheduler R μ δ τ} {i : Nat} {results : StepResults} {accepted : List TokenId}

-- Nobody gets more than what was asked for.
structure Roomy (s : VeloScheduler R μ δ τ) : Prop where
  accounts : Accounts False s
  served   : ∀ c ∈ s.clients, c.tokens.length ≤ c.maxNewTokens
  queued   : ∀ r ∈ s.requestRx ++ s.pending, ∃ c, s.clients[r.client]? = some c ∧ c.share = ([], r.maxNewTokens)
  active   : ∀ (j : Nat) req, s.active[j]? = some req → ∃ c, s.clients[req.client]? = some c ∧ Room s.phase j c req

theorem share_getElem? {clients clients' : List Client} {k : Nat}
    (h : clients'.map Client.share = clients.map Client.share) (hc : clients[k]? = some c) :
    ∃ c', clients'[k]? = some c' ∧ c'.share = c.share := by
  have hget := congrArg (·[k]?) h
  simp only [getElem?_map, hc, Option.map_some] at hget
  exact Option.map_eq_some_iff.mp hget

-- No client gets a token.
theorem Roomy.move (h : Roomy s) (hacc : Accounts False s')
    (hclients : s'.clients.map Client.share = s.clients.map Client.share)
    (hqueued : ∀ r ∈ s'.requestRx ++ s'.pending, r ∈ s.requestRx ++ s.pending)
    (hactive : ∀ (j : Nat) req, s'.active[j]? = some req → ∃ j', s.active[j']? = some req ∧
      ∀ c, Room s.phase j' c req → Room s'.phase j c req) : Roomy s' where
  accounts := hacc
  served c' hmem := by
    have ⟨c, hc, hshare⟩ := mem_map.mp (hclients ▸ mem_map_of_mem hmem)
    obtain ⟨htokens, hmax⟩ := Prod.mk.inj hshare
    exact htokens ▸ hmax ▸ h.served c hc
  queued r hr := by
    have ⟨c, hc, hshare⟩ := h.queued r (hqueued r hr)
    have ⟨c', hc', hsame⟩ := share_getElem? hclients hc
    exact ⟨c', hc', hsame.trans hshare⟩
  active j req hj := by
    have ⟨j', hj', hroom⟩ := hactive j req hj
    have ⟨c, hc, hr⟩ := h.active j' req hj'
    have ⟨c', hc', hsame⟩ := share_getElem? hclients hc
    exact ⟨c', hc', (hroom c hr).share hsame⟩

-- Only the phase changes for the requests.
theorem Roomy.phase (h : Roomy s) (hacc : Accounts False s') (hclients : s'.clients = s.clients)
    (hactive : s'.active = s.active) (hqueued : ∀ r ∈ s'.requestRx ++ s'.pending, r ∈ s.requestRx ++ s.pending)
    (hroom : ∀ (j : Nat) req c, s.active[j]? = some req → Room s.phase j c req → Room s'.phase j c req) : Roomy s' :=
  h.move hacc (by rw [hclients]) hqueued fun j req hj =>
    have hj : s.active[j]? = some req := hactive ▸ hj
    ⟨j, hj, fun c => hroom j req c hj⟩

-- One request goes on, and its client may get some tokens.
theorem Roomy.update {req req' : ActiveRequestInternal} {out : List TokenId} (h : Roomy s) (hacc : Accounts False s')
    (hreq : s.active[i]? = some req) (hrx : s'.requestRx = s.requestRx) (hpending : s'.pending = s.pending)
    (hclients : s'.clients = s.clients.modify req.client (.receive out)) (hactive : s'.active = s.active.set i req')
    (hclient : req'.client = req.client) (hroom : ∀ c, Room s.phase i c req → Room s'.phase i (c.receive out) req')
    (hothers : ∀ j ≠ i, ∀ r c, Room s.phase j c r → Room s'.phase j c r) : Roomy s' where
  accounts := hacc
  served c' hmem := by
    have ⟨k, hk⟩ := getElem?_of_mem hmem
    have ⟨c, hc, hr⟩ := h.active i req hreq
    by_cases heq : req.client = k
    case pos =>
      subst heq
      rw [hclients, getElem?_modify_eq, hc] at hk
      cases hk
      exact (hroom c hr).le.right
    case neg =>
      rw [hclients, getElem?_modify_ne _ _ heq] at hk
      exact h.served c' (mem_of_getElem? hk)
  queued r hr := by
    rw [hrx, hpending] at hr
    have ⟨c, hc, hrest⟩ := h.queued r hr
    refine ⟨c, ?_, hrest⟩
    rw [hclients, getElem?_modify_ne _ _ (h.accounts.ne_of_waiting hr (mem_of_getElem? hreq)).symm, hc]
  active j r hj := by
    have ⟨hlt, _⟩ := List.getElem?_eq_some_iff.mp hreq
    rw [hactive] at hj
    by_cases hij : i = j
    case pos =>
      subst hij
      rw [getElem?_set_self hlt, Option.some.injEq] at hj
      subst hj
      have ⟨c, hc, hr⟩ := h.active i req hreq
      refine ⟨c.receive out, ?_, hroom c hr⟩
      rw [hclients, hclient, getElem?_modify_eq, hc]
      rfl
    case neg =>
      rw [getElem?_set_ne hij] at hj
      have ⟨c, hc, hr⟩ := h.active j r hj
      refine ⟨c, ?_, hothers j (Ne.symm hij) r c hr⟩
      rw [hclients, getElem?_modify_ne _ _ (client_ne h.accounts.active_nodup hreq hj hij), hc]

theorem receive_nil : Client.receive [] = id :=
  funext fun c => by simp [Client.receive]

theorem Roomy.commit (h : Roomy s) (hphase : s.phase = .commit i results) : Roomy (s.commit i results) := by
  have hacc := h.accounts.quiet (commit_quiet i results).left (h.accounts.honest.commit i results)
  have hc := commit_commits s i results
  have hkept {c : Client} {req : ActiveRequestInternal} (session : SpeculativeSession) (hr : Room s.phase i c req) :
      Room (.cleanup 0) i (c.receive []) { req with session } :=
    ⟨hr.max, by simpa [Client.receive] using hr.sent, hr.le.left, nofun⟩
  generalize s.commit i results = t at hacc hc
  cases hc
  case ended => exact h.phase hacc rfl rfl (fun _ => id) fun j r c _ hr => hr.calm rfl rfl
  case missing => exact h.phase hacc rfl rfl (fun _ => id) fun j r c _ hr => hr.calm rfl rfl
  case failed req _ _ _ session hreq _ _ _ =>
    refine h.update hacc hreq rfl rfl ?_ rfl rfl (fun c hr => hkept session hr) fun j _ r c hr => hr.calm rfl rfl
    rw [receive_nil, modify_id]
    rfl
  case accepted req drafted verified accepted session hreq hd hv hcommit =>
    have hclients : s.clients = s.clients.modify req.client (.receive []) := by rw [receive_nil, modify_id]
    refine h.update hacc hreq rfl rfl hclients rfl rfl (fun c hr => ?_) fun j hj r c hr => ?_
    case refine_1 =>
      have hsuits := hr.suits results (by simp [hphase, Phase.uncommitted]) drafted hd verified hv
      have hlen := SpeculativeSession.length_of_commit_eq_ok hcommit
      obtain ⟨_, _, hcommit', hgain⟩ := SpeculativeSession.commit_gain (s := req.session) hlen
      cases hcommit.symm.trans hcommit'
      rw [← SpeculativeSession.gain_le_iff, ← hgain, SpeculativeSession.emitted, length_append] at hsuits
      have hle := hr.le.left
      refine ⟨hr.max, by simpa [Client.receive] using hr.sent, ?_, fun _ hun => ?_⟩
      case refine_1 =>
        simp only [withPhase, Phase.due, ↓reduceIte]
        omega
      case refine_2 => simp [withPhase, Phase.uncommitted] at hun
    case refine_2 =>
      rw [hphase] at hr
      refine hr.mono (by simp [withPhase, Phase.due, hj]) fun _ hun => ?_
      simp only [withPhase, Phase.uncommitted] at hun ⊢
      split at hun
      case isTrue hlt => simpa [hlt.le] using hun
      case isFalse => cases hun

theorem Roomy.send (h : Roomy s) (hphase : s.phase = .send i accepted results) : Roomy (s.send i accepted results) := by
  have hquiet := (send_quiet (s := s) i accepted results).left
  have hacc := h.accounts.quiet hquiet (h.accounts.honest.send i accepted results)
  have hs := send_sends s i accepted results
  generalize s.send i accepted results = t at hquiet hacc hs
  have hothers (rest : List TokenId) (hnext : t.phase = .send i rest results) :
      ∀ j ≠ i, ∀ r c, Room s.phase j c r → Room t.phase j c r := fun j hj r c hr => by
    rw [hphase] at hr
    rw [hnext]
    exact hr.mono (by simp [Phase.due, hj]) fun _ => id
  cases hs
  case missing hnone heq => exact heq ▸ h.phase (heq ▸ hacc) rfl rfl (fun _ => id) fun j r c _ hr => hr.calm rfl rfl
  case ended req hreq hnil heq =>
    subst hnil heq
    refine h.phase hacc rfl rfl (fun _ => id) fun j r c hj hr => ?_
    rw [hphase] at hr
    simp only [withPhase]
    split
    case isTrue =>
      refine hr.mono (Nat.zero_le _) fun _ hun => ?_
      simpa [Phase.uncommitted, Nat.succ_le_iff] using hun
    case isFalse => exact hr.mono (by simp [Phase.due]) fun _ => id
  case closed req hreq _ _ hactive hclients hnext =>
    have hclients : t.clients = s.clients.modify req.client (.receive []) := by rw [hclients, receive_nil, modify_id]
    refine h.update hacc hreq hquiet.requestRx hquiet.pending hclients hactive rfl (fun c hr => ?_) (hothers _ hnext)
    rw [hphase] at hr
    have hdue := hr.due
    simp only [Phase.due, ↓reduceIte] at hdue
    refine ⟨hr.max, by simpa [Client.receive] using hr.sent, ?_, fun _ hun => ?_⟩
    case refine_1 =>
      simp only [hnext, Phase.due, ↓reduceIte, length_nil]
      omega
    case refine_2 => simp [hnext, Phase.uncommitted] at hun
  case sent req token rest hreq htokens hactive hclients hnext =>
    refine h.update hacc hreq hquiet.requestRx hquiet.pending hclients hactive rfl (fun c hr => ?_) (hothers _ hnext)
    rw [hphase, htokens] at hr
    have hdue := hr.due
    have hsent := hr.sent
    simp only [Phase.due, ↓reduceIte, length_cons] at hdue
    refine ⟨hr.max, by simpa [Client.receive] using hsent, ?_, fun _ hun => ?_⟩
    case refine_1 =>
      simp only [hnext, Phase.due, ↓reduceIte]
      omega
    case refine_2 => simp [hnext, Phase.uncommitted] at hun

theorem Roomy.correct (h : Roomy s) (hphase : s.phase = .correct i results) : Roomy (s.correct i results) := by
  have hquiet := (correct_quiet (s := s) i results).left
  have hacc := h.accounts.quiet hquiet (h.accounts.honest.correct i results)
  have hs := correct_corrects s i results
  generalize s.correct i results = t at hquiet hacc hs
  have hnext (j : Nat) (r : ActiveRequestInternal) (c : Client) (hr : Room s.phase j c r) :
      Room (.commit (i + 1) results) j c r := by
    rw [hphase] at hr
    refine hr.mono (Nat.zero_le _) fun _ hun => ?_
    simpa [Phase.uncommitted, Nat.succ_le_iff] using hun
  cases hs
  case missing hnone heq => exact heq ▸ h.phase (heq ▸ hacc) rfl rfl (fun _ => id) fun j r c _ hr => hr.calm rfl rfl
  case ended heq => exact heq ▸ h.phase (heq ▸ hacc) rfl rfl (fun _ => id) fun j r c _ hr => hnext j r c hr
  case corrected req token req' out hreq hrej hactive hclient hmax hcount hclients hout hphase' =>
    refine h.update hacc hreq hquiet.requestRx hquiet.pending hclients hactive hclient (fun c hr => ?_) fun j _ r c hr => ?_
    case refine_1 =>
      rw [hphase] at hr
      have hdue := hr.due
      have hsent := hr.sent
      simp only [Phase.due, ↓reduceIte, hrej, Option.toList_some, length_singleton] at hdue
      refine ⟨hmax.trans hr.max, ?_, ?_, fun _ hun => ?_⟩
      case refine_1 =>
        rw [Client.receive, length_append]
        omega
      case refine_2 =>
        simp only [hphase', Phase.due]
        omega
      case refine_3 => simp [hphase', Phase.uncommitted] at hun
    case refine_2 => exact hphase' ▸ hnext j r c hr

theorem Roomy.cleanup (h : Roomy s) (hphase : s.phase = .cleanup i) : Roomy (s.cleanup i) := by
  have hacc := h.accounts.cleanup i
  have hc := cleanup_cleans s i
  generalize s.cleanup i = t at hacc hc
  cases hc
  case ended heq => exact heq ▸ h.phase (heq ▸ hacc) rfl rfl (fun _ => id) fun j r c _ hr => hr.calm rfl rfl
  case stays heq => exact heq ▸ h.phase (heq ▸ hacc) rfl rfl (fun _ => id) fun j r c _ hr => hr.calm rfl rfl
  case leaves hreq hactive hclients hrx hpending hnext =>
    refine h.move hacc hclients (fun r hr => hrx ▸ hpending ▸ hr) fun j r hj => ?_
    have ⟨j', hj'⟩ := getElem?_of_mem (mem_of_mem_eraseIdx (mem_of_getElem? (hactive ▸ hj)))
    refine ⟨j', hj', fun c hr => ?_⟩
    rcases hnext with hnext | hnext
    case inl => rw [hnext, hphase]; exact hr.calm rfl rfl
    case inr => rw [hnext]; exact hr.calm rfl rfl

theorem Roomy.pollRequest (h : Roomy s) (hacc : Accounts False s.pollRequest) :
    Roomy s.pollRequest := by
  unfold VeloScheduler.pollRequest at hacc ⊢
  split at hacc
  case h_1 => exact h.phase hacc rfl rfl (fun _ => id) fun j r c _ hr => hr.calm rfl rfl
  case h_2 req rest hrx =>
    refine h.phase hacc rfl rfl (fun r hr => ?_) fun j r c _ hr => hr
    rw [hrx]
    simp only [mem_append, mem_cons, not_mem_nil, or_false] at hr ⊢
    tauto

theorem Roomy.await (h : Roomy s) (hacc : Accounts False s.await) : Roomy s.await := by
  unfold VeloScheduler.await at hacc ⊢
  split at hacc
  case isTrue hempty =>
    rw [if_pos hempty]
    split at hacc
    case h_1 req rest hrx =>
      refine h.phase hacc rfl rfl (fun r hr => ?_) fun j r c _ hr => hr.calm rfl rfl
      rw [hrx]
      simp only [mem_append, mem_cons, not_mem_nil, or_false] at hr ⊢
      tauto
    case h_2 =>
      split at hacc
      case isTrue  hup => rw [if_pos hup]; exact h.phase hacc rfl rfl (fun _ => id) fun j r c _ hr => hr.calm rfl rfl
      case isFalse hup => rw [if_neg hup]; exact h
  case isFalse hsome =>
    rw [if_neg hsome]
    split at hacc
    case isTrue  hno => rw [if_pos hno]; exact h.phase hacc rfl rfl (fun _ => id) fun j r c _ hr => hr.calm rfl rfl
    case isFalse hno => rw [if_neg hno]; exact h.phase hacc rfl rfl (fun _ => id) fun j r c _ hr => hr.calm rfl rfl

theorem Roomy.submit (h : Roomy s) (prompt : List TokenId) (n : Nat) : Roomy (s.submit prompt n) where
  accounts := h.accounts.submit prompt n
  served c hc := by
    rcases mem_append.mp hc with hc | hc
    case inl => exact h.served c hc
    case inr => rw [mem_singleton.mp hc]; exact Nat.zero_le n
  queued r hr := by
    have hold : ∀ r ∈ s.requestRx ++ s.pending, ∃ c, (s.submit prompt n).clients[r.client]? = some c ∧
        c.share = ([], r.maxNewTokens) := fun r hr => by
      obtain ⟨c, hc, hrest⟩ := h.queued r hr
      exact ⟨c, (getElem?_append_left (List.getElem?_eq_some_iff.mp hc).1).trans hc, hrest⟩
    rw [VeloScheduler.submit] at hr
    dsimp only at hr
    split at hr
    case isFalse => exact hold r hr
    case isTrue =>
      rw [append_assoc, mem_append, mem_append, mem_singleton, or_left_comm] at hr
      rcases hr with rfl | hr
      case inl => exact ⟨_, getElem?_concat_length, rfl⟩
      case inr => exact hold r (mem_append.mpr hr)
  active j req hj := by
    obtain ⟨c, hc, hr⟩ := h.active j req hj
    exact ⟨c, (getElem?_append_left (List.getElem?_eq_some_iff.mp hc).1).trans hc, hr⟩

section Models

variable [MemoryRuntime R] [DraftModel μ δ] [TargetModel μ τ] {a : Action}

theorem Roomy.admitNext (h : Roomy s) (hphase : s.phase = .admission) (hacc : Accounts False s.admitNext) :
    Roomy s.admitNext := by
  unfold VeloScheduler.admitNext at hacc ⊢
  split at hacc
  case isFalse hfull => rw [if_neg hfull]; exact h.phase hacc rfl rfl (fun _ => id) fun j r c _ hr => hr.calm rfl rfl
  case isTrue hfree =>
    rw [if_pos hfree]
    split at hacc
    case h_1 => exact h.phase hacc rfl rfl (fun _ => id) fun j r c _ hr => hr.calm rfl rfl
    case h_2 req rest hp =>
      have hqueued : ∀ r ∈ s.requestRx ++ rest, r ∈ s.requestRx ++ s.pending := fun r hr => by
        rw [hp]
        simp only [mem_append, mem_cons] at hr ⊢
        tauto
      split at hacc
      case h_1 activeReq m hadmitted =>
        have ⟨pool, out, hadm⟩ := admitRequest_eq_ok hadmitted
        refine ⟨hacc, h.served, fun r hr => h.queued r (hqueued r hr), fun j r hj => ?_⟩
        rw [getElem?_append] at hj
        split at hj
        case isTrue => exact h.active j r hj
        case isFalse =>
          have hr := mem_singleton.mp (mem_of_getElem? hj)
          have ⟨c, hc, hshare⟩ := h.queued req (by rw [hp]; simp)
          obtain ⟨htokens, hmax⟩ := Prod.mk.inj hshare
          rw [hr, hadm.request]
          refine ⟨c, hc, ?_⟩
          simp only [hphase]
          exact ⟨hmax.symm, by simp [htokens], by simp [Phase.due], nofun⟩
      case h_2 => exact h.phase hacc rfl rfl hqueued fun j r c _ hr => hr
      case h_3 => exact h.phase hacc rfl rfl hqueued fun j r c _ hr => hr.calm rfl rfl

-- What the models return in a step leaves each request within its bounds.
def Suited (s : VeloScheduler R μ δ τ) (a : Action) : Prop :=
  a.isWork = true → s.phase.isStep = true → ∀ results ∈ s.callModels.phase.uncommitted 0, ∀ p ∈ s.active.zipIdx,
    results.Suit p.2 p.1

instance : Decidable (Suited s a) :=
  inferInstanceAs (Decidable (_ → _ → ∀ results ∈ s.callModels.phase.uncommitted 0, _))

omit [MemoryRuntime R] in
theorem Roomy.callModels (h : Roomy s) (hphase : s.phase = .step) (hacc : Accounts False s.callModels)
    (hsuited : Suited s .work) : Roomy s.callModels := by
  have hsuited := hsuited rfl (by rw [hphase]; rfl)
  have ⟨models, phase, hcall, hcases⟩ := s.callModels_cases
  rw [hcall] at hacc hsuited ⊢
  rcases hcases with rfl | rfl | ⟨results, rfl⟩
  case inl     => exact h.phase hacc rfl rfl (fun _ => id) fun j r c _ hr => hr.calm rfl rfl
  case inr.inl => exact h.phase hacc rfl rfl (fun _ => id) fun j r c _ hr => hr.calm rfl rfl
  case inr.inr =>
    refine h.phase hacc rfl rfl (fun _ => id) fun j r c hj hr => ⟨hr.max, hr.sent, hr.le.left, fun _ hun => ?_⟩
    simp only [Phase.uncommitted, Nat.zero_le, ↓reduceIte, Option.some.injEq] at hun
    exact hun ▸ hsuited results (by simp [Phase.uncommitted]) (r, j) (mem_zipIdx_iff_getElem?.mpr hj)

theorem Roomy.work (h : Roomy s) (hsuited : Suited s .work) : Roomy s.work := by
  have hacc := h.accounts.work fun p => p.elim
  unfold VeloScheduler.work at hacc ⊢
  split at hacc
  case h_1 hphase =>
    unfold pollCommand at hacc ⊢
    split at hacc
    case h_1 => exact h.phase hacc rfl rfl (fun _ => id) fun j r c _ hr => hr.calm rfl rfl
    all_goals exact h.phase hacc rfl rfl (fun _ => id) fun _ _ _ _ hr => hr
  case h_2 => exact h.pollRequest hacc
  case h_3 hphase => exact h.admitNext hphase hacc
  case h_4 => exact h.await hacc
  case h_5 hphase => exact h.callModels hphase hacc hsuited
  case h_6 hphase => exact h.commit hphase
  case h_7 hphase => exact h.send hphase
  case h_8 hphase => exact h.correct hphase
  case h_9 hphase => exact h.cleanup hphase
  case h_10 => exact h
  case h_11 => exact ⟨hacc, h.served, by simp [VeloScheduler.unwind], by simp [VeloScheduler.unwind]⟩

theorem Roomy.next (h : Roomy s) (hsuited : Suited s a) : Roomy (s.next a) := by
  have hacc := h.accounts.next (a := a) fun p => p.elim
  cases a
  case work              => exact h.work hsuited
  case submit prompt n   => exact h.submit prompt n
  case drop client =>
    exact h.move hacc (onClient_share client fun _ => rfl) (fun _ => id) fun j r hj => ⟨j, hj, fun _ => id⟩
  case prefetch name path =>
    rw [VeloScheduler.next, VeloScheduler.prefetch] at hacc ⊢
    split at hacc
    case isTrue  halive => rw [if_pos halive]; exact h.phase hacc rfl rfl (fun _ => id) fun _ _ _ _ hr => hr
    case isFalse halive => rw [if_neg halive]; exact h
  all_goals exact h.phase hacc rfl rfl (fun _ => id) fun _ _ _ _ hr => hr

omit [MemoryRuntime R] [DraftModel μ δ] [TargetModel μ τ] in
theorem roomy_start (m : Machine R μ δ τ) : Roomy (start m) where
  accounts := (serving_start (f := fun _ => 0) m).accounts
  served   := by simp [start]
  queued   := by simp [start]
  active   := by simp [start]

theorem Run.roomy (h : Run Suited (start m) s) : Roomy s :=
  h.invariant (roomy_start m) fun _ _ ht _ hsuited => ht.next hsuited

-- Where the drafts suit what the requests still need, no request gets more than it asks for: for a batch this is just
-- when its outputs are within bounds, and for the scheduler it is so in every run.
theorem tokens_within [CfgMatcher μ] : (∀ fuel reqs outs (m m' : Machine R μ δ τ),
      Machine.generateBatch fuel reqs m = (.ok outs, m') → (Machine.Within reqs outs ↔ m.DraftsSuit reqs)) ∧
    (∀ reqs (m : Machine R μ δ τ), m.DraftsSuit reqs →
      ∀ draftWindow a m₁, Machine.Enters reqs m draftWindow a m₁ → VeloEngine.Bounded a) ∧
    ∀ (m : Machine R μ δ τ) s, Run Suited (start m) s →
      (∀ c ∈ s.clients, c.tokens.length ≤ c.maxNewTokens) ∧ ∀ req ∈ s.active, req.generatedCount ≤ req.maxNewTokens := by
  refine ⟨fun _ _ _ _ _ => Machine.generateBatch_within_iff, fun _ _ hsuit _ _ _ => Machine.Enters.bounded hsuit, fun m s h => ?_⟩
  have hr := h.roomy
  refine ⟨hr.served, fun req hreq => ?_⟩
  have ⟨j, hj⟩ := getElem?_of_mem hreq
  have ⟨_, _, hroom⟩ := hr.active j req hj
  exact hroom.le.left

-- The draft is too long each time, but the target disagrees with its first token.
theorem tokens_within_disagreeing : ∃ e : VeloEngine CpuMemoryRuntime Empty, VeloEngine.new ⟨2, ⟨1, 4, 8, 2⟩⟩ = .ok e ∧
    let m : Machine CpuMemoryRuntime Empty _ _ := ⟨e, ⟨(⟨⟩ : Drafter (fun _ => 7) (· + 1)), (⟨0⟩ : Oracle List.sum)⟩⟩
    m.DraftsSuit [⟨[1, 2], 2, none⟩] ∧ (∀ draftWindow a m₁, m.Enters [⟨[1, 2], 2, none⟩] draftWindow a m₁ → VeloEngine.Bounded a) ∧
      ∃ s, Run Suited (start m) s ∧ s.clients.map (·.tokens) = [[3, 6]] ∧ ∀ c ∈ s.clients, c.tokens.length ≤ c.maxNewTokens := by
  obtain ⟨e, he, hok⟩ : ∃ e : VeloEngine CpuMemoryRuntime Empty, VeloEngine.new ⟨2, ⟨1, 4, 8, 2⟩⟩ = .ok e ∧
      let m : Machine CpuMemoryRuntime Empty _ _ := ⟨e, ⟨(⟨⟩ : Drafter (fun _ => 7) (· + 1)), (⟨0⟩ : Oracle List.sum)⟩⟩
      ((Machine.generateBatch 4 [⟨[1, 2], 2, none⟩] m).1.toOption.map fun outs => outs.map (·.tokens)) = some [[3, 6]] ∧
        Traced Suited (start m) ([.submit [1, 2] 2] ++ replicate 30 .work) ∧
        (([Action.submit [1, 2] 2] ++ replicate 30 Action.work).foldl next (start m)).clients.map (·.tokens) = [[3, 6]] :=
    ⟨_, rfl, by decide +kernel⟩
  refine ⟨e, he, ?_⟩
  intro m
  have hall := tokens_within (R := CpuMemoryRuntime) (δ := Drafter (fun _ => 7) (· + 1)) (τ := Oracle List.sum)
  have hsuit : m.DraftsSuit [⟨[1, 2], 2, none⟩] := by
    rcases hb : Machine.generateBatch 4 [⟨[1, 2], 2, none⟩] m with ⟨_ | outs, m'⟩
    case error => simp [m, hb, Except.toOption] at hok
    case ok =>
      refine (hall.left _ _ _ _ _ hb).mp ?_
      have houts : outs.map (·.tokens) = [[3, 6]] := by simpa [m, hb, Except.toOption] using hok.left
      obtain ⟨out, rfl⟩ : ∃ out, outs = [out] := length_eq_one_iff.mp (by simpa using congrArg length houts)
      have hout : out.tokens = [3, 6] := by simpa using houts
      exact .cons (by simp [hout]) .nil
  refine ⟨hsuit, hall.right.left _ m hsuit, _, Traced.run _ hok.right.left, hok.right.right, ?_⟩
  exact (hall.right.right m _ (Traced.run _ hok.right.left)).left

-- A draft of one token too many, with which the target agrees.
theorem exists_too_many : ∃ e : VeloEngine CpuMemoryRuntime Empty, VeloEngine.new ⟨2, ⟨1, 4, 8, 2⟩⟩ = .ok e ∧
    let m : Machine CpuMemoryRuntime Empty _ _ := ⟨e, ⟨(⟨⟩ : Drafter List.sum (· + 1)), (⟨0⟩ : Oracle List.sum)⟩⟩
    (∃ outs m', Machine.generateBatch 4 [⟨[1], 1, none⟩] m = (.ok outs, m') ∧ ¬Machine.Within [⟨[1], 1, none⟩] outs) ∧
      ∃ s, Run (fun _ _ => True) (start m) s ∧ ∃ c ∈ s.clients, c.maxNewTokens < c.tokens.length := by
  obtain ⟨e, he, hok⟩ : ∃ e : VeloEngine CpuMemoryRuntime Empty, VeloEngine.new ⟨2, ⟨1, 4, 8, 2⟩⟩ = .ok e ∧
      let m : Machine CpuMemoryRuntime Empty _ _ := ⟨e, ⟨(⟨⟩ : Drafter List.sum (· + 1)), (⟨0⟩ : Oracle List.sum)⟩⟩
      ((Machine.generateBatch 4 [⟨[1], 1, none⟩] m).1.toOption.map fun outs => outs.map (·.tokens)) = some [[1, 2]] ∧
        Traced (fun _ _ => True) (start m) ([.submit [1] 1] ++ replicate 30 .work) ∧
        ∃ c ∈ (([Action.submit [1] 1] ++ replicate 30 Action.work).foldl next (start m)).clients, c.maxNewTokens < c.tokens.length :=
    ⟨_, rfl, by decide +kernel⟩
  refine ⟨e, he, ?_⟩
  intro m
  refine ⟨?_, _, Traced.run _ hok.right.left, hok.right.right⟩
  rcases hb : Machine.generateBatch 4 [⟨[1], 1, none⟩] m with ⟨_ | outs, m'⟩
  case error => simp [m, hb, Except.toOption] at hok
  case ok =>
    refine ⟨outs, m', rfl, fun hw => ?_⟩
    have houts : outs.map (·.tokens) = [[1, 2]] := by simpa [m, hb, Except.toOption] using hok.left
    cases hw
    case cons out rest hle _ =>
      rw [map_cons] at houts
      have := (cons.inj houts).left
      simp [this] at hle

end Models

end VeloScheduler
