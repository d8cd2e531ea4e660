import Mathlib
import VeloCore.Execution.Scheduler.Theorems.Progress
import VeloCore.Execution.Scheduler.Theorems.Switch

open List

namespace Phase

def isIdle : Phase → Bool
  | idle => true
  | _    => false

def isCleanup : Phase → Bool
  | cleanup _ => true
  | _         => false

theorem eq_idle_of_isIdle {phase : Phase} (h : phase.isIdle = true) : phase = .idle := by
  cases phase <;> first | rfl | cases h

end Phase

namespace VeloScheduler

variable {R μ δ τ : Type} {f : List TokenId → TokenId} {bad : List TokenId → Prop} {s t u : VeloScheduler R μ δ τ}
  {client i : Nat}

-- A request of the client is active, and the client is still there.
structure Attends (client : Nat) (s : VeloScheduler R μ δ τ) : Prop where
  active : client ∈ s.active.map (·.client)
  here   : s.isClosed client = false

-- The client has its answer.
def Completed (client : Nat) (s : VeloScheduler R μ δ τ) : Prop :=
  ∃ c, s.clients[client]? = some c ∧ c.done = [.ok ()]

-- The worker has not panicked, and no active request comes to a step with a bad context.
structure Calm (bad : List TokenId → Prop) (s : VeloScheduler R μ δ τ) : Prop where
  runs : s.phase ≠ .panicked
  good : s.phase = .step → ∀ req ∈ s.active, ¬bad req.session.context

-- The requests that wait, and all that are there
def waiting (s : VeloScheduler R μ δ τ) : Nat :=
  s.requestRx.length + s.pending.length

def total (s : VeloScheduler R μ δ τ) : Nat :=
  s.waiting + s.active.length

-- The cleanup has seen that these requests need more tokens.
def Swept (s : VeloScheduler R μ δ τ) : Prop :=
  match s.phase with
  | .cleanup i => ∀ k < i, ∀ req, s.active[k]? = some req → req.generatedCount < req.maxNewTokens
  | .commands  => ∀ req ∈ s.active, req.generatedCount < req.maxNewTokens
  | _          => True

section Attends

theorem Attends.quiet (h : Attends client s) (hq : Quiet s t) : Attends client t :=
  ⟨hq.active_clients ▸ h.active, (hq.isClosed client).trans h.here⟩

theorem Attends.of_eq (h : Attends client s) (hactive : ∀ k ∈ s.active.map (·.client), k ∈ t.active.map (·.client))
    (hclients : t.clients = s.clients) : Attends client t :=
  ⟨hactive _ h.active, by rw [← h.here, isClosed, isClosed, hclients]⟩

-- A request leaves with its answer, when its client is still there.
theorem Attends.cleanup (h : Attends client s) (hs : Serving f s) (hphase : s.phase = .cleanup i) :
    Attends client (s.cleanup i) ∨ Completed client (s.cleanup i) := by
  unfold VeloScheduler.cleanup
  split
  case h_1 => exact .inl (h.of_eq (fun _ => id) rfl)
  case h_2 req hreq =>
    dsimp only
    split
    case isFalse => exact .inl (h.of_eq (fun _ => id) rfl)
    case isTrue hleave =>
      have hmem := mem_of_getElem? hreq
      obtain ⟨pool, hrel, _⟩ := SlotPool.release_of_lt (hs.accounts.slot_lt _ (mem_map_of_mem hmem))
      rw [hrel]
      dsimp only
      by_cases heq : req.client = client
      case pos =>
        subst heq
        obtain ⟨c, hc, hstage⟩ := hs.stages i req hreq
        rw [hphase, stage_cleanup_of_lt le_rfl] at hstage
        have hopen : c.closed = false := (isClosed_of_getElem? hc).symm.trans h.here
        have hlive := (hstage.resolve_left fun hlost => by simp [hopen] at hlost).live
        have hdone := hs.accounts.done_eq_nil hmem hc
        simp only [hlive, h.here, Bool.or_self, Bool.or_false] at hleave ⊢
        rw [if_pos (by simpa using hleave)]
        exact .inr ⟨{ c with done := c.done ++ [.ok ()] }, by simp [onClient, getElem?_modify_eq, hc], by simp [hdone]⟩
      case neg =>
        have hactive : client ∈ (s.active.eraseIdx i).map (·.client) := by
          obtain ⟨req', hreq', hclient⟩ := mem_map.mp h.active
          refine mem_map.mpr ⟨req', mem_eraseIdx_iff_getElem?.mpr ?_, hclient⟩
          obtain ⟨k, hk⟩ := getElem?_of_mem hreq'
          refine ⟨k, fun hki => heq ?_, hk⟩
          rw [hki, hreq] at hk
          rw [Option.some.inj hk, hclient]
        left
        split
        case isFalse => exact ⟨hactive, h.here⟩
        case isTrue  => exact ⟨hactive, (isClosed_answer req.client client _).trans h.here⟩

variable [MemoryRuntime R] [DraftModel μ δ] [TargetModel μ τ]

theorem Attends.work (h : Attends client s) (hs : Serving f s) (hp : s.phase ≠ .panicked) :
    Attends client s.work ∨ Completed client s.work := by
  unfold VeloScheduler.work
  split
  case h_1 => left; unfold pollCommand; split <;> exact h.of_eq (fun _ => id) rfl
  case h_2 => left; unfold VeloScheduler.pollRequest; split <;> exact h.of_eq (fun _ => id) rfl
  case h_3 =>
    left
    unfold VeloScheduler.admitNext
    split
    case isFalse => exact h.of_eq (fun _ => id) rfl
    case isTrue =>
      split
      case h_1 => exact h.of_eq (fun _ => id) rfl
      case h_2 =>
        split
        case h_1 => exact h.of_eq (fun k hk => by rw [map_append]; exact mem_append_left _ hk) rfl
        case h_2 => exact h.of_eq (fun _ => id) rfl
        case h_3 => exact h.of_eq (fun _ => id) rfl
  case h_4 =>
    left
    unfold VeloScheduler.await
    split
    case isFalse => split <;> exact h.of_eq (fun _ => id) rfl
    case isTrue =>
      split
      case h_1 => exact h.of_eq (fun _ => id) rfl
      case h_2 => split <;> exact h.of_eq (fun _ => id) rfl
  case h_5 =>
    have ⟨hactive, hclients⟩ := callModels_active (s := s)
    exact .inl (h.of_eq (fun _ hk => by rwa [hactive]) hclients)
  case h_6 => exact .inl (h.quiet (commit_quiet _ _).left)
  case h_7 => exact .inl (h.quiet (send_quiet _ _ _).left)
  case h_8 => exact .inl (h.quiet (correct_quiet _ _).left)
  case h_9 hphase => exact h.cleanup hs hphase
  case h_10 => exact .inl h
  case h_11 hphase => exact absurd hphase hp

theorem Completed.work (h : Completed client s) (hs : Serving f s) (hs' : Serving f s.work) : Completed client s.work := by
  have ⟨c, hc, hdone⟩ := h
  have ⟨c', hc', hl⟩ := work_grows client c hc
  have hset := (hs.served client c hc).settled (hs'.served client c' hc') hl (by simp [hdone])
  exact ⟨c', hc', hset.right.trans hdone⟩

end Attends

section Order

theorem Quiet.total_le (h : Quiet s t) : t.waiting ≤ s.waiting ∧ t.total ≤ s.total := by
  have hlen := congrArg List.length h.owners
  simp only [length_map] at hlen
  simp [total, waiting, h.requestRx, h.pending, hlen]

theorem swept_of_ne (hcl : ∀ i, s.phase ≠ .cleanup i) (hco : s.phase ≠ .commands) : Swept s := by
  unfold Swept
  split
  case h_1 heq => exact absurd heq (hcl _)
  case h_2 heq => exact absurd heq hco
  case h_3 => trivial

theorem swept_of_cleanup_zero (h : s.phase = .cleanup 0) : Swept s := by
  unfold Swept
  rw [h]
  exact fun k hk => absurd hk (Nat.not_lt_zero k)

theorem Swept.cleanup (h : Swept s) (hphase : s.phase = .cleanup i) : Swept (s.cleanup i) := by
  unfold Swept at h
  rw [hphase] at h
  have hc := cleanup_cleans s i
  generalize s.cleanup i = t at hc ⊢
  cases hc
  case ended hnone heq =>
    subst heq
    refine fun req hreq => ?_
    have ⟨k, hk⟩ := getElem?_of_mem hreq
    exact h k ((List.getElem?_eq_some_iff.mp hk).1.trans_le (getElem?_eq_none_iff.mp hnone)) req hk
  case stays req hreq hlt _ heq =>
    subst heq
    refine fun k hk req' hreq' => ?_
    rcases Nat.lt_succ_iff_lt_or_eq.mp hk with hk | rfl
    case inl => exact h k hk req' hreq'
    case inr => cases hreq.symm.trans hreq'; exact hlt
  case leaves hactive _ _ _ hnext =>
    rcases hnext with hnext | hnext
    case inr => exact swept_of_ne (by simp [hnext]) (by simp [hnext])
    case inl =>
      unfold Swept
      rw [hnext, hphase, hactive]
      refine fun k hk req' hreq' => h k hk req' ?_
      rwa [getElem?_eraseIdx_of_lt hk] at hreq'

variable [MemoryRuntime R] [DraftModel μ δ] [TargetModel μ τ]

theorem Swept.work (h : Swept s) (hc : s.phase.isCommands = false) : Swept s.work := by
  unfold VeloScheduler.work
  split
  case h_1 heq => simp [heq, Phase.isCommands] at hc
  case h_2 heq =>
    unfold VeloScheduler.pollRequest
    split
    case h_1 => exact swept_of_ne (by simp [withPhase]) (by simp [withPhase])
    case h_2 => exact swept_of_ne (by simp [heq]) (by simp [heq])
  case h_3 heq =>
    unfold VeloScheduler.admitNext
    split
    case isFalse => exact swept_of_ne (by simp [withPhase]) (by simp [withPhase])
    case isTrue =>
      split
      case h_1 => exact swept_of_ne (by simp [withPhase]) (by simp [withPhase])
      case h_2 =>
        split
        case h_3 => exact swept_of_ne (by simp) (by simp)
        all_goals exact swept_of_ne (by simp [heq]) (by simp [heq])
  case h_4 heq =>
    unfold VeloScheduler.await
    split
    case isFalse =>
      split
      case isTrue  => exact swept_of_cleanup_zero rfl
      case isFalse => exact swept_of_ne (by simp [withPhase]) (by simp [withPhase])
    case isTrue hempty =>
      have hnil : s.active = [] := by simp at hempty; exact hempty.left
      split
      case h_1 => exact fun req hreq => by simp [hnil] at hreq
      case h_2 =>
        split
        case isTrue  => exact swept_of_ne (by simp [withPhase]) (by simp [withPhase])
        case isFalse => exact h
  case h_5 =>
    obtain ⟨models, phase, hcall, hp⟩ := callModels_cases s
    rw [hcall]
    rcases hp with rfl | rfl | ⟨results, rfl⟩
    case inl => exact swept_of_cleanup_zero rfl
    case inr.inl => exact swept_of_ne (by simp) (by simp)
    case inr.inr => exact swept_of_ne (by simp) (by simp)
  case h_6 i results _ =>
    have hs := commit_commits s i results
    generalize s.commit i results = t at hs ⊢
    cases hs
    case ended    => exact swept_of_cleanup_zero rfl
    case missing  => exact swept_of_ne (by simp [withPhase]) (by simp [withPhase])
    case failed   => exact swept_of_cleanup_zero rfl
    case accepted => exact swept_of_ne (by simp [withPhase]) (by simp [withPhase])
  case h_7 i accepted results _ =>
    have hs := send_sends s i accepted results
    generalize s.send i accepted results = t at hs ⊢
    cases hs
    case missing heq => subst heq; exact swept_of_ne (by simp [withPhase]) (by simp [withPhase])
    case ended heq =>
      subst heq
      refine swept_of_ne ?_ ?_ <;> simp only [withPhase] <;> split <;> simp
    case closed hnext => exact swept_of_ne (by simp [hnext]) (by simp [hnext])
    case sent hnext   => exact swept_of_ne (by simp [hnext]) (by simp [hnext])
  case h_8 i results _ =>
    have hs := correct_corrects s i results
    generalize s.correct i results = t at hs ⊢
    cases hs
    case missing heq      => subst heq; exact swept_of_ne (by simp [withPhase]) (by simp [withPhase])
    case ended heq        => subst heq; exact swept_of_ne (by simp [withPhase]) (by simp [withPhase])
    case corrected hnext  => exact swept_of_ne (by simp [hnext]) (by simp [hnext])
  case h_9 hphase => exact h.cleanup hphase
  case h_10 => exact h
  case h_11 hphase => exact swept_of_ne (by simp [unwind, hphase]) (by simp [unwind, hphase])

theorem work_total_le (s : VeloScheduler R μ δ τ) : s.work.waiting ≤ s.waiting ∧ s.work.total ≤ s.total := by
  unfold VeloScheduler.work
  split
  case h_1 => unfold pollCommand; split <;> exact ⟨le_rfl, le_rfl⟩
  case h_2 =>
    unfold VeloScheduler.pollRequest
    split
    case h_1 => exact ⟨le_rfl, le_rfl⟩
    case h_2 heq => simp [total, waiting, heq]; omega
  case h_3 =>
    unfold VeloScheduler.admitNext
    split
    case isFalse => exact ⟨le_rfl, le_rfl⟩
    case isTrue =>
      split
      case h_1 => exact ⟨le_rfl, le_rfl⟩
      case h_2 heq =>
        split
        all_goals
          simp only [total, waiting, heq, length_append, length_cons, length_nil]
          omega
  case h_4 =>
    unfold VeloScheduler.await
    split
    case isFalse => split <;> exact ⟨le_rfl, le_rfl⟩
    case isTrue =>
      split
      case h_1 heq => simp [total, waiting, heq]; omega
      case h_2 => split <;> exact ⟨le_rfl, le_rfl⟩
  case h_5 =>
    have ⟨models, phase, hcall, _⟩ := callModels_cases s
    rw [hcall]
    exact ⟨le_rfl, le_rfl⟩
  case h_6 => exact (commit_quiet _ _).left.total_le
  case h_7 => exact (send_quiet _ _ _).left.total_le
  case h_8 => exact (correct_quiet _ _).left.total_le
  case h_9 i _ =>
    have hc := cleanup_cleans s i
    generalize s.cleanup i = t at hc ⊢
    cases hc
    case ended heq => subst heq; exact ⟨le_rfl, le_rfl⟩
    case stays heq => subst heq; exact ⟨le_rfl, le_rfl⟩
    case leaves hactive _ hrx hpending _ =>
      have hle := length_eraseIdx_le s.active i
      simp only [total, waiting, hrx, hpending, hactive]
      omega
  case h_10 => exact ⟨le_rfl, le_rfl⟩
  case h_11 => exact ⟨Nat.zero_le _, Nat.zero_le _⟩

end Order

section Rounds

variable [MemoryRuntime R] [DraftModel μ δ] [TargetModel μ τ]

-- Only the worker goes on.
def Working (_ : VeloScheduler R μ δ τ) (a : Action) : Prop :=
  a.isWork = true

theorem Run.working (h : Run Working s.work t) : Run Working s t :=
  (Run.step (a := .work) .refl trivial rfl).trans h

theorem Run.of_iterate (n : Nat) : Run Working s (VeloScheduler.work^[n] s) := by
  induction n
  case zero => exact .refl
  case succ n hi =>
    rw [Function.iterate_succ_apply']
    exact Run.step (a := .work) hi trivial rfl

theorem Run.iterate (h : Run Working s t) : ∃ n, VeloScheduler.work^[n] s = t := by
  induction h
  case refl => exact ⟨0, rfl⟩
  case step _ a _ _ hp hi =>
    have ⟨n, hn⟩ := hi
    cases a
    case work => exact ⟨n + 1, by rw [Function.iterate_succ_apply', hn]; rfl⟩
    all_goals exact absurd hp Bool.false_ne_true

-- What each step of the worker keeps
theorem Run.working_invariant {I : VeloScheduler R μ δ τ → Prop} (h : Run Working s t) (hs : I s)
    (hwork : ∀ u, I u → I u.work) : I t := by
  refine h.invariant hs fun u a hu _ hp => ?_
  cases a
  case work => exact hwork u hu
  all_goals exact absurd hp Bool.false_ne_true

theorem Run.total_le (h : Run Working s t) : t.waiting ≤ s.waiting ∧ t.total ≤ s.total :=
  h.working_invariant (I := fun t => t.waiting ≤ s.waiting ∧ t.total ≤ s.total) ⟨le_rfl, le_rfl⟩ fun u hu =>
    ⟨(work_total_le u).left.trans hu.left, (work_total_le u).right.trans hu.right⟩

theorem Run.attends (h : Run Working s t) (hδ : DraftModel.FailsOnly δ bad) (hτ : TargetModel.FailsOnly τ f bad)
    (hs : Serving f s) (ha : Attends client s) (hp : t.phase ≠ .panicked) : Attends client t ∨ Completed client t := by
  refine ((h.not_panicked hp).invariant (I := fun t => Serving f t ∧ (Attends client t ∨ Completed client t)) ⟨hs, .inl ha⟩
    fun u a ⟨hu, hau⟩ _ ⟨hworking, hne⟩ => ?_).right
  cases a
  case work =>
    have hw := hu.work hδ hτ
    exact ⟨hw, hau.elim (fun h => h.work hu hne) fun h => .inr (h.work hu hw)⟩
  all_goals exact absurd hworking Bool.false_ne_true

theorem work_eq_pollCommand (h : u.phase = .commands) : u.work = u.pollCommand := by
  rw [VeloScheduler.work, h]

theorem work_eq_pollRequest (h : u.phase = .requests) : u.work = u.pollRequest := by
  rw [VeloScheduler.work, h]

theorem work_eq_admitNext (h : u.phase = .admission) : u.work = u.admitNext := by
  rw [VeloScheduler.work, h]

theorem work_eq_await (h : u.phase = .idle) : u.work = u.await := by
  rw [VeloScheduler.work, h]

theorem work_eq_callModels (h : u.phase = .step) : u.work = u.callModels := by
  rw [VeloScheduler.work, h]

theorem commands_reach (hphase : u.phase = .commands) : ∃ t, Run Working u t ∧ t.phase = .requests := by
  induction hn : u.commandRx generalizing u
  case nil =>
    refine ⟨u.work, .working .refl, ?_⟩
    rw [work_eq_pollCommand hphase]
    simp [pollCommand, hn, withPhase]
  case cons cmd rest hi =>
    have hnext : u.work.phase = .commands ∧ u.work.commandRx = rest := by
      rw [work_eq_pollCommand hphase]
      cases cmd <;> simp [pollCommand, hn, switchTo, hphase]
    obtain ⟨t, ht, hp⟩ := hi hnext.left hnext.right
    exact ⟨t, ht.working, hp⟩

theorem requests_reach (hphase : u.phase = .requests) : ∃ t, Run Working u t ∧ t.phase = .admission := by
  induction hn : u.requestRx generalizing u
  case nil =>
    refine ⟨u.work, .working .refl, ?_⟩
    rw [work_eq_pollRequest hphase]
    simp [VeloScheduler.pollRequest, hn, withPhase]
  case cons req rest hi =>
    have hnext : u.work.phase = .requests ∧ u.work.requestRx = rest := by
      rw [work_eq_pollRequest hphase]
      simp [VeloScheduler.pollRequest, hn, hphase]
    obtain ⟨t, ht, hp⟩ := hi hnext.left hnext.right
    exact ⟨t, ht.working, hp⟩

theorem admission_reach (hphase : u.phase = .admission) :
    ∃ t, Run Working u t ∧ (t.phase = .idle ∨ t.phase = .panicked) := by
  induction hn : u.pending generalizing u
  case nil =>
    refine ⟨u.work, .working .refl, .inl ?_⟩
    rw [work_eq_admitNext hphase]
    unfold VeloScheduler.admitNext
    simp only [hn]
    split <;> rfl
  case cons req rest hi =>
    have hnext : (u.work.phase = .idle ∨ u.work.phase = .panicked) ∨ u.work.phase = .admission ∧ u.work.pending = rest := by
      rw [work_eq_admitNext hphase]
      unfold VeloScheduler.admitNext
      simp only [hn]
      split
      case isFalse => exact .inl (.inl rfl)
      case isTrue =>
        split
        case h_1 => exact .inr ⟨hphase, rfl⟩
        case h_2 => exact .inr ⟨hphase, rfl⟩
        case h_3 => exact .inl (.inr rfl)
    rcases hnext with hnext | ⟨hnext, hrest⟩
    case inl => exact ⟨u.work, .working .refl, hnext⟩
    case inr =>
      have ⟨t, ht, hp⟩ := hi hnext hrest
      exact ⟨t, ht.working, hp⟩

-- With a request that stays active, the worker comes to the next step.
theorem step_reach (hphase : u.phase = .commands) (hruns : ∀ t, Run Working u t → t.phase ≠ .panicked)
    (hatt : ∀ t, Run Working u t → Attends client t) : ∃ t, Run Working u t ∧ t.phase = .step := by
  have ⟨t₁, h₁, hp₁⟩ := commands_reach hphase
  have ⟨t₂, h₂, hp₂⟩ := requests_reach hp₁
  have ⟨t₃, h₃, hp₃⟩ := admission_reach hp₂
  have hrun := h₁.trans (h₂.trans h₃)
  have hidle := hp₃.resolve_right (hruns t₃ hrun)
  have hne : t₃.active.isEmpty = false := by
    have ha := (hatt t₃ hrun).active
    cases hact : t₃.active
    case nil  => rw [hact] at ha; cases ha
    case cons => rfl
  refine ⟨t₃.work, hrun.trans (.working .refl), ?_⟩
  rw [work_eq_await hidle]
  simp [VeloScheduler.await, hne, withPhase]

variable {c : Client}

-- From one step to the next, a request has left, or the client has got a token.
theorem Serving.round (hs : Serving f s) (hδ : DraftModel.FailsOnly δ bad) (hτ : TargetModel.FailsOnly τ f bad)
    (hphase : s.phase = .step) (hcalm : ∀ t, Run Working s t → Calm bad t) (hatt : ∀ t, Run Working s t → Attends client t)
    (hc : s.clients[client]? = some c) : ∃ t c', Run Working s t ∧ t.phase = .commands ∧ t.clients[client]? = some c' ∧
      (t.total < s.total ∨ c'.maxNewTokens - c'.tokens.length < c.maxNewTokens - c.tokens.length) := by
  have hstep := callModels_stepped hδ hτ s
  rw [← work_eq_callModels hphase] at hstep
  have hworked := hs.work hδ hτ
  have hworking {t : VeloScheduler R μ δ τ} : Run Working s.work t → Run Working s t := .working
  generalize s.work = v at hstep hworked hworking
  cases hstep
  case failed req hreq hbad => exact absurd hbad ((hcalm s .refl).good hphase req hreq)
  case answered models results hx =>
    have hcomplete : Complete results s.active.length := fun i hi =>
      have ⟨drafted, verified, hd, hv, _, hmap⟩ := (hx i _ (getElem?_eq_getElem hi)).left.results
      ⟨drafted, verified, hd, hv, by simpa using congrArg length hmap⟩
    have hcommit : { s with machine := { s.machine with models }, phase := Phase.commit 0 results }.phase =
        .commit 0 results := rfl
    have ⟨u, hu, hup⟩ := commit_reaches hcommit hcomplete
    have ⟨t, ht, htp⟩ := cleanup_reaches hup (hu.serving hworked hδ hτ).accounts
    have hvt := hu.trans ht
    have hst := hworking (hvt.mono fun _ _ hw => hw.right)
    have hserving := hst.serving hs hδ hτ
    have ⟨c', hc', hl⟩ := hst.grows client c hc
    refine ⟨t, c', hst, htp, hc', ?_⟩
    -- The request of the client, before the step
    have ⟨req₀, hreq₀, hclient⟩ := mem_map.mp (hatt s .refl).active
    have ⟨j, hj⟩ := getElem?_of_mem hreq₀
    have hsending : Sending f [] c req₀ := by
      have ⟨c₀, hc₀, hstage⟩ := hs.stages j req₀ hj
      rw [hclient, hc] at hc₀
      rw [hphase, ← Option.some.inj hc₀] at hstage
      exact hstage
    have hlater {k : Nat} {req : ActiveRequestInternal} (hk : t.active[k]? = some req) (hcl : req.client = client) :
        Sending f [] c' req := by
      have ⟨c₁, hc₁, hstage⟩ := hserving.stages k req hk
      rw [hcl, hc'] at hc₁
      rw [htp, ← Option.some.inj hc₁] at hstage
      exact hstage
    have hmax := hl.maxNewTokens
    have hlen := hl.tokens.length_le
    have hcount := hsending.count
    have hmax₀ := hsending.max
    by_cases hlt : req₀.generatedCount < req₀.maxNewTokens
    case neg =>
      have hswept : Swept t := by
        refine hvt.invariant (swept_of_ne nofun nofun) fun u a hu _ hw => ?_
        cases a
        case work => exact hu.work hw.left
        all_goals exact absurd hw.right Bool.false_ne_true
      unfold Swept at hswept
      rw [htp] at hswept
      have ⟨req', hreq', hclient'⟩ := mem_map.mp (hatt t hst).active
      have ⟨k, hk⟩ := getElem?_of_mem hreq'
      have hsending' := hlater hk hclient'
      have hlt' := hswept req' hreq'
      have hcount' := hsending'.count
      have hmax' := hsending'.max
      omega
    case pos =>
      have ⟨drafted, hd, hpos⟩ := (hx j req₀ hj).right
      have hpursued := hvt.invariant (I := Pursues req₀ j s.active.length results)
        (.going rfl hj rfl le_rfl ⟨rfl, .inl j.zero_le⟩)
        fun u a hu _ hw => hu.next hcomplete ⟨drafted, hd, length_pos_iff.mp (hpos hlt)⟩ hw.left
      have hwaiting := hst.total_le.left
      cases hpursued
      case panicked hp => cases htp.symm.trans hp
      case ended hless _ => exact .inl (by rw [total, total]; omega)
      case going req _ hk hcl _ hp =>
        rw [htp] at hp
        have hsending' := hlater hk (hcl.trans hclient)
        have hcount' := hsending'.count
        have hp : req₀.generatedCount < req.generatedCount := hp
        exact .inr (by omega)

-- The rounds come to an end: there are fewer requests or fewer tokens to come after each.
theorem Serving.not_forever (hδ : DraftModel.FailsOnly δ bad) (hτ : TargetModel.FailsOnly τ f bad) (n m : Nat)
    (hs : Serving f s) (hphase : s.phase = .step) (hc : s.clients[client]? = some c) (hn : s.total ≤ n)
    (hm : c.maxNewTokens - c.tokens.length ≤ m) (hcalm : ∀ t, Run Working s t → Calm bad t) :
    ¬∀ t, Run Working s t → Attends client t := by
  induction n generalizing m s c
  case zero =>
    intro hatt
    have ha := (hatt s .refl).active
    have hnil : s.active = [] := length_eq_zero_iff.mp (by rw [total] at hn; omega)
    rw [hnil] at ha
    cases ha
  case succ n hin =>
    induction m generalizing s c
    all_goals
      intro hatt
      have ⟨t, c', ht, htp, hc', hless⟩ := hs.round hδ hτ hphase hcalm hatt hc
      have ⟨u, hu, hup⟩ := step_reach htp (fun v hv => (hcalm v (ht.trans hv)).runs) fun v hv => hatt v (ht.trans hv)
      have hsu := ht.trans hu
      have ⟨c'', hc'', hl⟩ := hu.grows client c' hc'
      have hle := hu.total_le.right
      have hserving := hsu.serving hs hδ hτ
      have hnot (m : Nat) (hlt : u.total ≤ n) (hm : c''.maxNewTokens - c''.tokens.length ≤ m) : False :=
        hin m hserving hup hc'' hlt hm (fun v hv => hcalm v (hsu.trans hv)) fun v hv => hatt v (hsu.trans hv)
    case zero =>
      exact hnot _ (by omega) le_rfl
    case succ m him =>
      rcases hless with hless | hless
      case inl => exact hnot _ (by omega) le_rfl
      case inr =>
        have hlen := hl.tokens.length_le
        have hmax := hl.maxNewTokens
        have htotal := hsu.total_le.right
        exact him hserving hup hc'' (by omega) (by omega) (fun v hv => hcalm v (hsu.trans hv)) fun v hv =>
          hatt v (hsu.trans hv)

theorem Serving.completes (hδ : DraftModel.FailsOnly δ bad) (hτ : TargetModel.FailsOnly τ f bad) (hs : Serving f s)
    (hphase : s.phase = .step) (ha : Attends client s) (hcalm : ∀ n, Calm bad (VeloScheduler.work^[n] s)) :
    ∃ n, Completed client (VeloScheduler.work^[n] s) := by
  by_contra hno
  obtain ⟨c, hc, _⟩ : ∃ c, s.clients[client]? = some c ∧ c.closed = false := by
    have hopen := ha.here
    cases hc : s.clients[client]?
    case none   => simp [isClosed, hc] at hopen
    case some c => exact ⟨c, rfl, (isClosed_of_getElem? hc).symm.trans hopen⟩
  refine hs.not_forever hδ hτ s.total (c.maxNewTokens - c.tokens.length) hphase hc le_rfl le_rfl (fun t ht => ?_)
    fun t ht => ?_
  case refine_1 =>
    obtain ⟨n, hn⟩ := ht.iterate
    exact hn ▸ hcalm n
  case refine_2 =>
    obtain ⟨n, hn⟩ := ht.iterate
    exact (ht.attends hδ hτ hs ha (hn ▸ hcalm n).runs).resolve_right fun hdone => hno ⟨n, hn ▸ hdone⟩

end Rounds

section Pairs

variable [MemoryRuntime R] [DraftModel μ δ] [TargetModel μ τ] {s' : VeloScheduler R μ δ τ} {client' : Nat} {c c' : Client}

-- Runs that come to rest

omit [MemoryRuntime R] [DraftModel μ δ] [TargetModel μ τ] in
theorem withPhase_self {phase : Phase} (h : s.phase = phase) : s.withPhase phase = s := by
  subst h
  rfl

omit [MemoryRuntime R] [DraftModel μ δ] [TargetModel μ τ] in
-- The worker waits for a request, and there is none.
def Rests (u : VeloScheduler R μ δ τ) : Prop :=
  u.phase.isIdle = true ∧ u.active = [] ∧ u.pending = [] ∧ u.requestRx = [] ∧ u.hungUp = false

instance : DecidablePred (Rests : VeloScheduler R μ δ τ → Prop) := fun u =>
  inferInstanceAs (Decidable (u.phase.isIdle = true ∧ u.active = [] ∧ u.pending = [] ∧ u.requestRx = [] ∧ u.hungUp = false))

theorem Rests.work (h : Rests u) : u.work = u := by
  have ⟨hphase, hactive, hpending, hrequests, hup⟩ := h
  rw [work_eq_await (Phase.eq_idle_of_isIdle hphase)]
  simp [VeloScheduler.await, hactive, hpending, hrequests, hup]

theorem Traced.iterate {P : VeloScheduler R μ δ τ → Prop} {k n : Nat} (h : Traced (fun u _ => P u) s (replicate k .work))
    (hn : n < k) : P (VeloScheduler.work^[n] s) := by
  induction n generalizing s k
  all_goals cases k
  case zero.succ => exact h.right.left
  case succ.succ n hi k => exact hi h.right.right (Nat.lt_of_succ_lt_succ hn)
  all_goals omega

theorem calm_of_rests {k : Nat}
    (h : Traced (fun u _ => u.isAlive = true ∧ ∀ req ∈ u.active, ¬bad req.session.context) s (replicate k .work))
    (hrests : Rests (VeloScheduler.work^[k] s)) (n : Nat) : Calm bad (VeloScheduler.work^[n] s) := by
  by_cases hn : n < k
  case pos =>
    have ⟨halive, hgood⟩ := h.iterate hn
    refine ⟨fun hp => ?_, fun _ => hgood⟩
    rw [isAlive, hp] at halive
    cases halive
  case neg =>
    obtain ⟨j, hj⟩ := Nat.exists_eq_add_of_le (Nat.not_lt.mp hn)
    rw [hj, Nat.add_comm, Function.iterate_add_apply, Function.iterate_fixed hrests.work]
    have hidle := Phase.eq_idle_of_isIdle hrests.left
    constructor <;> intro hp <;> cases hidle.symm.trans hp

-- A step that fails

omit [MemoryRuntime R] in
theorem callModels_refused {g : List TokenId → TokenId} {refuses : List TokenId → Bool}
    {s : VeloScheduler R Empty (Guesser g) (Poisoned f refuses)} (h : s.callModels.phase.isCleanup = true) :
    s.callModels = s.withPhase (.cleanup 0) := by
  have ⟨models, phase, hcall, hp⟩ := callModels_cases s
  rw [hcall] at h ⊢
  rcases hp with rfl | rfl | ⟨_, rfl⟩
  case inl =>
    have hsame : models = s.machine.models := by
      rcases models with ⟨⟨⟩, ⟨⟩⟩
      rfl
    rw [hsame]
    rfl
  all_goals cases h

-- Where a step fails and changes nothing, and no active request can leave, it fails for ever.
theorem stalls (hphase : s.phase = .step) (hfail : s.callModels = s.withPhase (.cleanup 0)) (hcommands : s.commandRx = [])
    (hrequests : s.requestRx = []) (hpending : s.pending = []) (hne : s.active ≠ [])
    (hstay : ∀ req ∈ s.active, req.generatedCount < req.maxNewTokens ∧ req.finished = false ∧ req.cancelled = false ∧
      s.isClosed req.client = false) (n : Nat) : ∃ phase, VeloScheduler.work^[n] s = s.withPhase phase ∧
        (phase = .step ∨ (∃ i, phase = .cleanup i) ∨ phase = .commands ∨ phase = .requests ∨ phase = .admission ∨
          phase = .idle) := by
  induction n
  case zero => exact ⟨.step, (withPhase_self hphase).symm, .inl rfl⟩
  case succ n hi =>
    have ⟨phase, hn, hcases⟩ := hi
    rw [Function.iterate_succ_apply', hn]
    rcases hcases with rfl | ⟨i, rfl⟩ | rfl | rfl | rfl | rfl
    case inl => exact ⟨.cleanup 0, by rw [withPhase_self hphase, work_eq_callModels hphase, hfail], .inr (.inl ⟨0, rfl⟩)⟩
    case inr.inl =>
      rw [work_eq_cleanup rfl]
      unfold VeloScheduler.cleanup
      split
      case h_1 => exact ⟨.commands, rfl, .inr (.inr (.inl rfl))⟩
      case h_2 req hreq =>
        have ⟨hlt, hfinished, hcancelled, hopen⟩ := hstay req (mem_of_getElem? hreq)
        have hopen : (s.withPhase (.cleanup i)).isClosed req.client = false := hopen
        simp only [hfinished, hcancelled, hopen, Nat.not_le.mpr hlt, decide_false, Bool.or_self]
        exact ⟨.cleanup (i + 1), rfl, .inr (.inl ⟨i + 1, rfl⟩)⟩
    case inr.inr.inl =>
      refine ⟨.requests, ?_, .inr (.inr (.inr (.inl rfl)))⟩
      rw [work_eq_pollCommand rfl]
      simp [pollCommand, withPhase, hcommands]
    case inr.inr.inr.inl =>
      refine ⟨.admission, ?_, .inr (.inr (.inr (.inr (.inl rfl))))⟩
      rw [work_eq_pollRequest rfl]
      simp [VeloScheduler.pollRequest, withPhase, hrequests]
    case inr.inr.inr.inr.inl =>
      refine ⟨.idle, ?_, .inr (.inr (.inr (.inr (.inr rfl))))⟩
      rw [work_eq_admitNext rfl]
      simp [VeloScheduler.admitNext, withPhase, hpending]
    case inr.inr.inr.inr.inr =>
      refine ⟨.step, ?_, .inl rfl⟩
      rw [work_eq_await rfl]
      simp [VeloScheduler.await, withPhase, hne]

-- Two clients with the same prompt and the same number of tokens to get are told the same, as far as they are told.
theorem Served.agree (h : Served f c) (h' : Served f c') (hprompt : c'.prompt = c.prompt)
    (hmax : c'.maxNewTokens = c.maxNewTokens) : (c.tokens <+: c'.tokens ∨ c'.tokens <+: c.tokens) ∧
      (c.done ≠ [] → c'.done ≠ [] → c'.tokens = c.tokens ∧ c'.done = c.done) := by
  have hc := h.follows
  have hc' := h'.follows
  rw [hprompt] at hc'
  rw [Follows] at hc hc'
  constructor
  case left =>
    have hle {k n : Nat} (hkn : k ≤ n) : greedy f c.prompt k <+: greedy f c.prompt n :=
      take_greedy hkn ▸ take_prefix k (greedy f c.prompt n)
    rw [hc, hc']
    exact (le_total c.tokens.length c'.tokens.length).imp hle hle
  case right =>
    intro hdone hdone'
    obtain ⟨hd, hlen⟩ := h.done.resolve_left hdone
    obtain ⟨hd', hlen'⟩ := h'.done.resolve_left hdone'
    refine ⟨?_, hd'.trans hd.symm⟩
    rw [hc, hc', hlen, hlen', hmax]

-- What a client gets depends on its request alone, whoever else is served and whichever calls fail; and in two runs in which
-- the models do not fail for any of the active requests, it gets all of it in both.
theorem failures_isolated (hδ : DraftModel.FailsOnly δ bad) (hτ : TargetModel.FailsOnly τ f bad) {m m' : Machine R μ δ τ}
    (h : Run (fun _ _ => True) (start m) s) (h' : Run (fun _ _ => True) (start m') s')
    (hc : s.clients[client]? = some c) (hc' : s'.clients[client']? = some c') (hprompt : c'.prompt = c.prompt)
    (hmax : c'.maxNewTokens = c.maxNewTokens) :
    (∀ t t' d d', Run (fun _ _ => True) s t → Run (fun _ _ => True) s' t' → t.clients[client]? = some d →
      t'.clients[client']? = some d' → (d.tokens <+: d'.tokens ∨ d'.tokens <+: d.tokens) ∧
        (d.done ≠ [] → d'.done ≠ [] → d'.tokens = d.tokens ∧ d'.done = d.done)) ∧
    (s.phase = .step → s'.phase = .step → Attends client s → Attends client' s' → (∀ n, Calm bad (work^[n] s)) →
      (∀ n, Calm bad (work^[n] s')) → (∃ n, Completed client (work^[n] s)) ∧ ∃ n, Completed client' (work^[n] s')) := by
  have hs := h.serving (serving_start m) hδ hτ
  have hs' := h'.serving (serving_start m') hδ hτ
  refine ⟨fun t t' d d' ht ht' hd hd' => ?_, fun hp hp' ha ha' hcalm hcalm' => ?_⟩
  case refine_1 =>
    have ⟨d₁, hd₁, hl⟩ := ht.grows client c hc
    have ⟨d₂, hd₂, hl'⟩ := ht'.grows client' c' hc'
    cases hd.symm.trans hd₁
    cases hd'.symm.trans hd₂
    exact Served.agree ((ht.serving hs hδ hτ).served _ _ hd) ((ht'.serving hs' hδ hτ).served _ _ hd')
      (hl'.prompt.trans (hprompt.trans hl.prompt.symm)) (hl'.maxNewTokens.trans (hmax.trans hl.maxNewTokens.symm))
  case refine_2 => exact ⟨hs.completes hδ hτ hp ha hcalm, hs'.completes hδ hτ hp' ha' hcalm'⟩

-- A step of two clients fails because of the first one, which then leaves. The second one gets what it gets alone.
theorem failures_isolated_two : ∃ e : VeloEngine CpuMemoryRuntime Empty, VeloEngine.new ⟨2, ⟨1, 4, 8, 2⟩⟩ = .ok e ∧
    let refuses : List TokenId → Bool := fun context => context.head? == some 9
    let m : Machine CpuMemoryRuntime Empty _ _ := ⟨e, ⟨(⟨⟩ : Guesser List.sum), (⟨⟩ : Poisoned List.sum refuses)⟩⟩
    ∃ u s s', Run (fun _ _ => True) (start m) u ∧ Run (fun _ _ => True) u s ∧ Run (fun _ _ => True) (start m) s' ∧
      (u.phase.isStep = true ∧ u.active.map (·.client) = [0, 1] ∧ u.callModels.phase.isCleanup = true) ∧
      (∀ t t' d d', Run (fun _ _ => True) s t → Run (fun _ _ => True) s' t' → t.clients[1]? = some d →
        t'.clients[0]? = some d' → (d.tokens <+: d'.tokens ∨ d'.tokens <+: d.tokens) ∧
          (d.done ≠ [] → d'.done ≠ [] → d'.tokens = d.tokens ∧ d'.done = d.done)) ∧
      (∃ n, Completed 1 (work^[n] s)) ∧ ∃ n, Completed 0 (work^[n] s') := by
  obtain ⟨e, he, hok⟩ : ∃ e : VeloEngine CpuMemoryRuntime Empty, VeloEngine.new ⟨2, ⟨1, 4, 8, 2⟩⟩ = .ok e ∧
      let refuses : List TokenId → Bool := fun context => context.head? == some 9
      let m : Machine CpuMemoryRuntime Empty _ _ := ⟨e, ⟨(⟨⟩ : Guesser List.sum), (⟨⟩ : Poisoned List.sum refuses)⟩⟩
      let good : VeloScheduler CpuMemoryRuntime Empty _ _ → Action → Prop := fun v _ =>
        v.isAlive = true ∧ ∀ req ∈ v.active, ¬refuses req.session.context = true
      ∃ u s s', Run (fun _ _ => True) (start m) u ∧ Run (fun _ _ => True) u s ∧ Run (fun _ _ => True) (start m) s' ∧
        (u.phase.isStep = true ∧ u.active.map (·.client) = [0, 1] ∧ u.callModels.phase.isCleanup = true) ∧
        (s.clients[1]?.map fun c => (c.prompt, c.maxNewTokens)) = some ([1, 2], 2) ∧
        (s'.clients[0]?.map fun c => (c.prompt, c.maxNewTokens)) = some ([1, 2], 2) ∧
        s.phase.isStep = true ∧ s'.phase.isStep = true ∧
        (1 ∈ s.active.map (·.client) ∧ s.isClosed 1 = false) ∧ (0 ∈ s'.active.map (·.client) ∧ s'.isClosed 0 = false) ∧
        (Traced good s (replicate 20 .work) ∧ Rests (work^[20] s)) ∧
        Traced good s' (replicate 20 .work) ∧ Rests (work^[20] s') :=
    ⟨_, rfl, _, _, _, Traced.run ([.submit [9] 1, .submit [1, 2] 2] ++ replicate 8 .work) (by decide +kernel),
      Traced.run (.drop 0 :: replicate 8 .work) (by decide +kernel),
      Traced.run ([.submit [1, 2] 2] ++ replicate 6 .work) (by decide +kernel), by decide +kernel⟩
  refine ⟨e, he, ?_⟩
  intro refuses m
  obtain ⟨u, s, s', hbefore, hafter, hrun', hfails, hclient, hclient', hphase, hphase', ha, ha', ⟨hgood, hrests⟩, hgood',
    hrests'⟩ := hok
  obtain ⟨c, hc, heq⟩ := Option.map_eq_some_iff.mp hclient
  obtain ⟨c', hc', heq'⟩ := Option.map_eq_some_iff.mp hclient'
  have hsame := Prod.mk.inj (heq'.trans heq.symm)
  have hall := failures_isolated (Guesser.answersBatch.failsOnly _) Poisoned.failsOnly (hbefore.trans hafter) hrun' hc hc'
    hsame.left hsame.right
  exact ⟨u, s, s', hbefore, hafter, hrun', hfails, hall.left, hall.right (Phase.eq_step_of_isStep hphase)
    (Phase.eq_step_of_isStep hphase') ⟨ha.left, ha.right⟩ ⟨ha'.left, ha'.right⟩ (calm_of_rests hgood hrests)
    (calm_of_rests hgood' hrests')⟩

-- The verification fails for the first of two clients whenever it is tried, and the second one gets nothing. Alone it would
-- get all.
theorem exists_failure_spreads : ∃ e : VeloEngine CpuMemoryRuntime Empty, VeloEngine.new ⟨2, ⟨1, 4, 8, 2⟩⟩ = .ok e ∧
    let refuses : List TokenId → Bool := fun context => context.head? == some 9
    let m : Machine CpuMemoryRuntime Empty _ _ := ⟨e, ⟨(⟨⟩ : Guesser List.sum), (⟨⟩ : Poisoned List.sum refuses)⟩⟩
    ∃ s s' c c', Run (fun _ _ => True) (start m) s ∧ Run (fun _ _ => True) (start m) s' ∧
      s.clients[1]? = some c ∧ s'.clients[0]? = some c' ∧ c'.prompt = c.prompt ∧ c'.maxNewTokens = c.maxNewTokens ∧
      (∀ context, c.prompt <+: context → refuses context = false) ∧ Attends 1 s ∧ Attends 0 s' ∧
      (∃ n, Completed 0 (work^[n] s')) ∧ ∀ n, ¬Completed 1 (work^[n] s) := by
  obtain ⟨e, he, hok⟩ : ∃ e : VeloEngine CpuMemoryRuntime Empty, VeloEngine.new ⟨2, ⟨1, 4, 8, 2⟩⟩ = .ok e ∧
      let refuses : List TokenId → Bool := fun context => context.head? == some 9
      let m : Machine CpuMemoryRuntime Empty _ _ := ⟨e, ⟨(⟨⟩ : Guesser List.sum), (⟨⟩ : Poisoned List.sum refuses)⟩⟩
      ∃ s s', Run (fun _ _ => True) (start m) s ∧ Run (fun _ _ => True) (start m) s' ∧
        (s.clients[1]?.map fun c => (c.prompt, c.maxNewTokens, c.done.length)) = some ([1], 1, 0) ∧
        (s'.clients[0]?.map fun c => (c.prompt, c.maxNewTokens)) = some ([1], 1) ∧
        (1 ∈ s.active.map (·.client) ∧ s.isClosed 1 = false) ∧ (0 ∈ s'.active.map (·.client) ∧ s'.isClosed 0 = false) ∧
        ((work^[20] s').clients[0]?.map fun c => c.done.length) = some 1 ∧
        s.phase.isStep = true ∧ s.callModels.phase.isCleanup = true ∧ s.commandRx = [] ∧ s.requestRx = [] ∧ s.pending = [] ∧
        ∀ req ∈ s.active, req.generatedCount < req.maxNewTokens ∧ req.finished = false ∧ req.cancelled = false ∧
          s.isClosed req.client = false :=
    ⟨_, rfl, _, _, Traced.run ([.submit [9] 1, .submit [1] 1] ++ replicate 8 .work) (by decide +kernel),
      Traced.run ([.submit [1] 1] ++ replicate 6 .work) (by decide +kernel), by decide +kernel⟩
  refine ⟨e, he, ?_⟩
  intro refuses m
  obtain ⟨s, s', hrun, hrun', hclient, hclient', ha, ha', hdone, hphase, hrefused, hcommands, hrequests, hpending, hstay⟩ :=
    hok
  obtain ⟨c, hc, heq⟩ := Option.map_eq_some_iff.mp hclient
  obtain ⟨c', hc', heq'⟩ := Option.map_eq_some_iff.mp hclient'
  obtain ⟨hprompt, heq⟩ := Prod.mk.inj heq
  obtain ⟨hmax, hnone⟩ := Prod.mk.inj heq
  obtain ⟨hprompt', hmax'⟩ := Prod.mk.inj heq'
  refine ⟨s, s', c, c', hrun, hrun', hc, hc', hprompt'.trans hprompt.symm, hmax'.trans hmax.symm,
    ?_, ⟨ha.left, ha.right⟩, ⟨ha'.left, ha'.right⟩, ⟨20, ?_⟩, fun n hn => ?_⟩
  case refine_1 =>
    rw [hprompt]
    rintro _ ⟨rest, rfl⟩
    rfl
  case refine_2 =>
    obtain ⟨d, hd, hlen⟩ := Option.map_eq_some_iff.mp hdone
    have hs' := (hrun'.trans ((Run.of_iterate 20).mono fun _ _ _ => trivial)).serving (serving_start m)
      (Guesser.answersBatch.failsOnly _) Poisoned.failsOnly
    refine ⟨d, hd, ((hs'.served 0 d hd).done.resolve_left fun hnil => ?_).left⟩
    simp [hnil] at hlen
  case refine_3 =>
    have hne := ne_nil_of_mem (mem_map.mp ha.left).choose_spec.left
    obtain ⟨phase, hstate, _⟩ := stalls (Phase.eq_step_of_isStep hphase) (callModels_refused hrefused) hcommands hrequests
      hpending hne hstay n
    rw [hstate] at hn
    obtain ⟨d, hd, hdone⟩ := hn
    cases hd.symm.trans hc
    simp [hdone] at hnone

end Pairs

end VeloScheduler
