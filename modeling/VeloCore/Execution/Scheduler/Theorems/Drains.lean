import Mathlib
import VeloCore.Execution.Engine.Theorems.Coherent
import VeloCore.Execution.Scheduler.Theorems.Prefill
import VeloCore.Execution.Scheduler.Theorems.Progress

open List

-- Where the worker may be when `n` requests are active: there are results for each of them. It only stops when
-- there is nothing left, as `empty` says.
def Phase.Sane (n : Nat) (empty : Prop) : Phase → Prop
  | .commit _ results  => VeloScheduler.Complete results n
  | .send i _ results  => i < n ∧ VeloScheduler.Complete results n
  | .correct i results => i < n ∧ VeloScheduler.Complete results n
  | .stopped           => empty
  | .panicked          => False
  | _                  => True

-- What is left to do for an active request: its tokens, and to leave.
def ActiveRequestInternal.due (req : ActiveRequestInternal) : Nat :=
  req.maxNewTokens - req.generatedCount + 1

theorem Phase.Sane.mono {phase : Phase} {n : Nat} {p q : Prop} (h : phase.Sane n p) (hpq : phase = .stopped → p → q) :
    phase.Sane n q := by
  cases phase
  case stopped => exact hpq rfl h
  all_goals exact h

namespace VeloScheduler

variable {R μ δ τ : Type} {s s' t u : VeloScheduler R μ δ τ} {i : Nat} {results : StepResults}

section Sane

variable [MemoryRuntime R] [LawfulMemoryRuntime R]

-- The invariant of all runs with models that answer, on an engine with a slot.
structure Sane (s : VeloScheduler R μ δ τ) : Prop where
  coherent : VeloEngine.Coherent s.machine.engine
  accounts : Accounts False s
  phase    : s.phase.Sane s.active.length (s.ids = [])
  slots    : 0 < s.machine.engine.slotPool.maxSlots

section Phases

omit [MemoryRuntime R] [LawfulMemoryRuntime R]

theorem commit_sane (hphase : s.phase = .commit i results) (h : s.phase.Sane s.active.length (s.ids = [])) :
    (s.commit i results).phase.Sane (s.commit i results).active.length ((s.commit i results).ids = []) := by
  rw [hphase] at h
  have hcommits := commit_commits s i results
  generalize s.commit i results = t at hcommits
  cases hcommits
  case ended => trivial
  case failed => trivial
  case missing req hreq hmissing =>
    obtain ⟨_, _, hd, hv, _⟩ := h i (List.getElem?_eq_some_iff.mp hreq).1
    simp [hd, hv] at hmissing
  case accepted req _ _ _ session hreq _ _ _ =>
    have hlen : (s.setActive i { req with session }).active.length = s.active.length := length_set
    exact hlen ▸ ⟨(List.getElem?_eq_some_iff.mp hreq).1, h⟩

theorem send_sane (hphase : s.phase = .send i accepted results) (h : s.phase.Sane s.active.length (s.ids = [])) :
    (s.send i accepted results).phase.Sane (s.send i accepted results).active.length
      ((s.send i accepted results).ids = []) := by
  rw [hphase] at h
  have hsends := send_sends s i accepted results
  generalize s.send i accepted results = t at hsends
  cases hsends
  case missing hnone _ => exact absurd (getElem?_eq_none_iff.mp hnone) (Nat.not_le.mpr h.left)
  case ended req _ _ heq =>
    subst heq
    simp only [withPhase]
    split
    case isTrue  => exact h.right
    case isFalse => exact h
  case closed hactive _ hnext => rw [hnext, hactive, length_set]; exact h
  case sent hactive _ hnext => rw [hnext, hactive, length_set]; exact h

theorem correct_sane (hphase : s.phase = .correct i results) (h : s.phase.Sane s.active.length (s.ids = [])) :
    (s.correct i results).phase.Sane (s.correct i results).active.length ((s.correct i results).ids = []) := by
  rw [hphase] at h
  have hcorrects := correct_corrects s i results
  generalize s.correct i results = t at hcorrects
  cases hcorrects
  case missing hnone _ => exact absurd (getElem?_eq_none_iff.mp hnone) (Nat.not_le.mpr h.left)
  case ended heq => subst heq; exact h.right
  case corrected hactive _ _ _ _ _ hnext => rw [hnext, hactive, length_set]; exact h.right

theorem cleanup_sane (hphase : s.phase = .cleanup i) (hacc : Accounts False s) :
    (s.cleanup i).phase.Sane (s.cleanup i).active.length ((s.cleanup i).ids = []) := by
  have hno := cleanup_phase_ne hphase hacc
  have hcleans := cleanup_cleans s i
  generalize s.cleanup i = t at hno hcleans
  cases hcleans
  case ended heq => subst heq; trivial
  case stays heq => subst heq; trivial
  case leaves hnext => rw [hnext.resolve_right hno, hphase]; trivial

end Phases

theorem prefill_settles (prompt : List TokenId) :
    Eff.Settles VeloEngine.Coherent (VeloEngine.prefill prompt : Eff (VeloEngine R μ) EngineError _) := by
  intro e c
  refine ⟨?_, VeloEngine.stable_coherent.prefill prompt e c⟩
  rcases VeloEngine.prefill_cases c prompt with ⟨out, e', hp, _⟩ | ⟨error, e', hp, _⟩
  all_goals
    rw [hp]
    trivial

theorem allocateSlot_settles (message : String) :
    Eff.Settles VeloEngine.Coherent (VeloEngine.allocateSlot message : Eff (VeloEngine R μ) EngineError _) := by
  intro e c
  unfold VeloEngine.allocateSlot
  split
  all_goals exact ⟨trivial, c.withPool⟩

variable [DraftModel μ δ] [TargetModel μ τ]

-- An admission fails, but it does not panic.
theorem admitRequest_settles (req : SchedulerRequest) :
    Eff.Settles (fun m : Machine R μ δ τ => VeloEngine.Coherent m.engine) (admitRequest req) := by
  have engine {α} {x : Eff (VeloEngine R μ) EngineError α} (hx : Eff.Settles VeloEngine.Coherent x) :
      Eff.Settles (fun m : Machine R μ δ τ => VeloEngine.Coherent m.engine) (Machine.onEngine x) :=
    .zoom hx (fun _ => id) fun _ _ _ => id
  have call {α} {f : δ → Except SpeculativeError α × δ} :
      Eff.Settles (fun _ => True) (Models.onDraft f : Eff (Models δ τ) SpeculativeError α) :=
    .zoom (J := fun _ => True) (.call fun _ _ => trivial) (fun _ _ => trivial) fun _ _ _ _ => trivial
  have call' {α} {f : τ → Except SpeculativeError α × τ} :
      Eff.Settles (fun _ => True) (Models.onTarget f : Eff (Models δ τ) SpeculativeError α) :=
    .zoom (J := fun _ => True) (.call fun _ _ => trivial) (fun _ _ => trivial) fun _ _ _ _ => trivial
  have bind (slot cached) : Eff.Settles (fun _ => True) (Models.bind slot cached : Eff (Models δ τ) SpeculativeError Unit) :=
    .bind call fun _ => .bind call' fun _ => .bind call fun _ => call'
  have models {α} {x : Eff (Models δ τ) SpeculativeError α} (hx : Eff.Settles (fun _ => True) x) :
      Eff.Settles (fun m : Machine R μ δ τ => VeloEngine.Coherent m.engine) (Machine.onModels x) :=
    .zoom hx (fun _ _ => trivial) fun _ _ h _ => h
  exact .bind (engine (allocateSlot_settles _)) fun _ => .bind (engine (prefill_settles _)) fun _ =>
    .bind (models (bind _ _)) fun _ => .bind .get fun _ => .pure _

theorem admitNext_sane (c : VeloEngine.Coherent s.machine.engine) (hphase : s.phase = .admission) :
    s.admitNext.phase = .idle ∨ s.admitNext.phase = .admission := by
  have hsettles (req : SchedulerRequest) := (admitRequest_settles (δ := δ) (τ := τ) req s.machine c).left
  unfold admitNext
  split
  case isFalse => exact .inl rfl
  case isTrue =>
    split
    case h_1 => exact .inl rfl
    case h_2 req rest _ =>
      have hreturned := hsettles req
      split
      case h_1 => exact .inr hphase
      case h_2 => exact .inr hphase
      case h_3 hne heq =>
        rw [heq] at hreturned
        rename_i fault m
        cases fault
        case err e => exact absurd rfl (hne e)
        all_goals exact hreturned.elim

omit [LawfulMemoryRuntime R] in
theorem work_maxSlots (hacc : Accounts False s) :
    s.work.machine.engine.slotPool.maxSlots = s.machine.engine.slotPool.maxSlots := by
  unfold work
  split
  case h_1 => unfold pollCommand; split <;> rfl
  case h_2 => unfold pollRequest; split <;> rfl
  case h_3 =>
    unfold admitNext
    split
    case isFalse => rfl
    case isTrue =>
      split
      case h_1 => rfl
      case h_2 req rest _ =>
        have hmax := admitRequest_maxSlots req s.machine
        split
        all_goals
          rename_i heq
          rw [heq] at hmax
          exact hmax
  case h_4 =>
    unfold await
    split
    case isTrue =>
      split
      case h_1 => rfl
      case h_2 => split <;> rfl
    case isFalse => split <;> rfl
  case h_5 =>
    obtain ⟨models, hq, _⟩ := callModels_frame (s := s)
    rw [hq.machine]
  case h_6 => rw [(commit_quiet _ _).left.machine]
  case h_7 => rw [(send_quiet _ _ _).left.machine]
  case h_8 => rw [(correct_quiet _ _).left.machine]
  case h_9 i _ =>
    unfold cleanup
    split
    case h_1 => rfl
    case h_2 req hreq =>
      obtain ⟨pool, hrel, _, hmax⟩ := SlotPool.release_of_lt (hacc.slot_lt _ (mem_map_of_mem (mem_of_getElem? hreq)))
      dsimp only
      split
      case isFalse => rfl
      case isTrue =>
        rw [hrel]
        dsimp only
        split <;> exact hmax
  case h_10 => rfl
  case h_11 => rfl

theorem Sane.work_phase (hδ : DraftModel.RepliesBatch δ fun r ps => ps.length ≤ r.maxTokens)
    (hτ : TargetModel.StepsBatch τ) (h : Sane s) : s.work.phase.Sane s.work.active.length (s.work.ids = []) := by
  have hphase := h.phase
  unfold work
  split
  case h_1 heq => unfold pollCommand; split <;> simp only [withPhase, switchTo, heq] <;> trivial
  case h_2 heq => unfold pollRequest; split <;> simp only [withPhase, heq] <;> trivial
  case h_3 heq => rcases admitNext_sane h.coherent heq with hnext | hnext <;> rw [hnext] <;> trivial
  case h_4 heq =>
    unfold await
    split
    case isFalse => split <;> trivial
    case isTrue hidle =>
      rw [Bool.and_eq_true, List.isEmpty_iff, List.isEmpty_iff] at hidle
      split
      case h_1 => trivial
      case h_2 hrx =>
        split
        case isFalse => simp only [heq]; trivial
        case isTrue =>
          have hempty : s.ids = [] := by rw [ids, hrx, hidle.left, hidle.right]; rfl
          exact hempty
  case h_5 heq =>
    obtain ⟨models, results, hcall, hc, _⟩ := callModels_complete hδ hτ s
    rw [hcall]
    exact hc
  case h_6 heq => exact commit_sane heq hphase
  case h_7 heq => exact send_sane heq hphase
  case h_8 heq => exact correct_sane heq hphase
  case h_9 heq => exact cleanup_sane heq h.accounts
  case h_10 heq => exact hphase
  case h_11 heq =>
    rw [heq] at hphase
    exact hphase.elim

theorem Sane.next (hδ : DraftModel.RepliesBatch δ fun r ps => ps.length ≤ r.maxTokens) (hτ : TargetModel.StepsBatch τ)
    (h : Sane s) (a : Action) : Sane (s.next a) := by
  have hc := next_keeps (fun _ _ _ => VeloEngine.Coherent.withPool) VeloEngine.stable_coherent.prefill h.coherent a
  have hacc := h.accounts.next (a := a) fun p => p.elim
  refine ⟨hc, hacc, ?_, ?_⟩
  case refine_1 =>
    cases a
    case work => exact h.work_phase hδ hτ
    case prefetch => rw [VeloScheduler.next, prefetch]; split <;> exact h.phase
    case submit prompt n =>
      -- A worker that has stopped gets no more requests.
      refine h.phase.mono fun hstopped hempty => ?_
      have hids : (s.submit prompt n).ids = s.ids := by simp [ids, submit, isAlive, hstopped]
      exact hids.trans hempty
    all_goals exact h.phase
  case refine_2 =>
    cases a
    case work => rw [VeloScheduler.next, work_maxSlots h.accounts]; exact h.slots
    case prefetch => rw [VeloScheduler.next, prefetch]; split <;> exact h.slots
    all_goals exact h.slots

theorem Sane.run {P : VeloScheduler R μ δ τ → Action → Prop}
    (hδ : DraftModel.RepliesBatch δ fun r ps => ps.length ≤ r.maxTokens) (hτ : TargetModel.StepsBatch τ) (h : Sane s)
    (hrun : Run P s t) : Sane t :=
  hrun.invariant h fun _ a ht _ _ => ht.next hδ hτ a

omit [DraftModel μ δ] [TargetModel μ τ] in
theorem sane_start {m : Machine R μ δ τ} (hc : VeloEngine.Coherent m.engine) (hslots : 0 < m.engine.slotPool.capacity) :
    Sane (start m) :=
  ⟨hc, (serving_start (f := fun _ => 0) m).accounts, trivial, hslots⟩

end Sane

section Dwindles

-- A later state of the same request.
def Advances (req' req : ActiveRequestInternal) : Prop :=
  req'.maxNewTokens = req.maxNewTokens ∧ req.generatedCount ≤ req'.generatedCount

instance : Std.Refl Advances :=
  ⟨fun _ => ⟨rfl, le_rfl⟩⟩

instance : IsTrans ActiveRequestInternal Advances :=
  ⟨fun _ _ _ h h' => ⟨h.left.trans h'.left, h'.right.trans h.right⟩⟩

-- Within a step no request comes, some leave, and the others get on.
structure Dwindles (s t : VeloScheduler R μ δ τ) : Prop where
  active    : SublistForall₂ Advances t.active s.active
  pending   : t.pending = s.pending
  requestRx : t.requestRx = s.requestRx

-- What is left to do for all requests.
def load (s : VeloScheduler R μ δ τ) : Nat :=
  (s.active.map (·.due)).sum + ((s.pending ++ s.requestRx).map (·.maxNewTokens + 2)).sum

theorem Advances.due_le {req' req : ActiveRequestInternal} (h : Advances req' req) : req'.due ≤ req.due := by
  have hmax := h.left
  have hcount := h.right
  simp only [ActiveRequestInternal.due]
  omega

theorem sum_due_le {l' l : List ActiveRequestInternal} (h : SublistForall₂ Advances l' l) :
    (l'.map (·.due)).sum ≤ (l.map (·.due)).sum := by
  induction h
  case nil => exact Nat.zero_le _
  case cons hadv _ hi =>
    simp only [map_cons, sum_cons]
    exact Nat.add_le_add hadv.due_le hi
  case cons_right hi =>
    simp only [map_cons, sum_cons]
    exact hi.trans (Nat.le_add_left ..)

-- There is less to do when a request has left, or when one has got a token that it needs.
theorem sum_due_lt {l' l : List ActiveRequestInternal} (h : SublistForall₂ Advances l' l)
    (hless : l'.length < l.length ∨ ∃ (j : Nat) (req req' : ActiveRequestInternal), l[j]? = some req ∧ l'[j]? = some req' ∧
      req.generatedCount < req.maxNewTokens ∧ req.generatedCount < req'.generatedCount) :
    (l'.map (·.due)).sum < (l.map (·.due)).sum := by
  induction h
  case nil l =>
    cases l
    case nil => rcases hless with hlt | ⟨j, _, _, hj, _⟩ <;> simp at *
    case cons a l =>
      simp only [map_cons, sum_cons, map_nil, sum_nil, ActiveRequestInternal.due]
      omega
  case cons a' a l' l hadv h hi =>
    simp only [map_cons, sum_cons]
    rcases hless with hlt | ⟨j, req, req', hj, hj', hneeds, hgets⟩
    case inl => exact Nat.add_lt_add_of_le_of_lt hadv.due_le (hi (.inl (by simpa using hlt)))
    case inr =>
      cases j
      case succ j => exact Nat.add_lt_add_of_le_of_lt hadv.due_le (hi (.inr ⟨j, req, req', hj, hj', hneeds, hgets⟩))
      case zero =>
        cases Option.some.inj hj
        cases Option.some.inj hj'
        refine Nat.add_lt_add_of_lt_of_le ?_ (sum_due_le h)
        have hmax := hadv.left
        simp only [ActiveRequestInternal.due]
        omega
  case cons_right a l' l h _ =>
    have hle := sum_due_le h
    simp only [map_cons, sum_cons, ActiveRequestInternal.due] at hle ⊢
    omega

theorem sublistForall₂_set {l : List ActiveRequestInternal} {req req' : ActiveRequestInternal} (hi : l[i]? = some req)
    (h : Advances req' req) : SublistForall₂ Advances (l.set i req') l := by
  induction l generalizing i
  case nil => cases hi
  case cons a l hind =>
    cases i
    case zero =>
      cases Option.some.inj hi
      exact .cons h (refl_of _ l)
    case succ i => exact .cons (refl_of _ a) (hind hi)

namespace Dwindles

theorem refl : Dwindles s s :=
  ⟨refl_of _ s.active, rfl, rfl⟩

theorem trans (h : Dwindles s t) (h' : Dwindles t u) : Dwindles s u :=
  ⟨trans_of _ h'.active h.active, h'.pending.trans h.pending, h'.requestRx.trans h.requestRx⟩

theorem set {req req' : ActiveRequestInternal} (hq : Quiet s t) (hi : s.active[i]? = some req)
    (hactive : t.active = s.active.set i req') (h : Advances req' req) : Dwindles s t :=
  ⟨hactive ▸ sublistForall₂_set hi h, hq.pending, hq.requestRx⟩

theorem of_active (hq : Quiet s t) (hactive : t.active = s.active) : Dwindles s t :=
  ⟨by rw [hactive]; exact refl_of _ s.active, hq.pending, hq.requestRx⟩

theorem length_le (h : Dwindles s t) : t.active.length ≤ s.active.length := by
  obtain ⟨l, hl, hsub⟩ := sublistForall₂_iff.mp h.active
  exact hl.length_eq.le.trans hsub.length_le

theorem load_lt (h : Dwindles s t)
    (hless : t.active.length < s.active.length ∨ ∃ (j : Nat) (req req' : ActiveRequestInternal), s.active[j]? = some req ∧
      t.active[j]? = some req' ∧ req.generatedCount < req.maxNewTokens ∧ req.generatedCount < req'.generatedCount) :
    t.load < s.load := by
  rw [load, load, h.pending, h.requestRx]
  exact Nat.add_lt_add_right (sum_due_lt h.active hless) _

-- A request that needs no more tokens does not need any later.
theorem finished (h : Dwindles s t) (hs : ∀ req ∈ s.active, req.maxNewTokens ≤ req.generatedCount) :
    ∀ req ∈ t.active, req.maxNewTokens ≤ req.generatedCount := by
  obtain ⟨l, hl, hsub⟩ := sublistForall₂_iff.mp h.active
  intro req hreq
  obtain ⟨i, hi⟩ := getElem?_of_mem hreq
  obtain ⟨req₀, hreq₀, hmax, hcount⟩ := forall₂_getElem? hl hi
  have hle := hs req₀ (hsub.subset (mem_of_getElem? hreq₀))
  omega

end Dwindles

theorem cleanup_dwindles (s : VeloScheduler R μ δ τ) (i : Nat) : Dwindles s (s.cleanup i) := by
  have hcleans := cleanup_cleans s i
  generalize s.cleanup i = t at hcleans
  cases hcleans
  case ended heq => exact heq ▸ ⟨refl_of _ s.active, rfl, rfl⟩
  case stays heq => exact heq ▸ ⟨refl_of _ s.active, rfl, rfl⟩
  case leaves hactive _ hrx hpending _ =>
    exact ⟨hactive ▸ (eraseIdx_sublist s.active i).sublistForall₂, hpending, hrx⟩

theorem commit_dwindles (s : VeloScheduler R μ δ τ) (i : Nat) (results : StepResults) : Dwindles s (s.commit i results) := by
  have hq := (commit_quiet (s := s) i results).left
  have hcommits := commit_commits s i results
  generalize s.commit i results = t at hq hcommits
  cases hcommits
  case ended => exact .of_active hq rfl
  case missing => exact .of_active hq rfl
  case failed hreq _ _ _ => exact .set hq hreq rfl ⟨rfl, le_rfl⟩
  case accepted hreq _ _ _ => exact .set hq hreq rfl ⟨rfl, le_rfl⟩

theorem send_dwindles (s : VeloScheduler R μ δ τ) (i : Nat) (accepted : List TokenId) (results : StepResults) :
    Dwindles s (s.send i accepted results) := by
  have hq := (send_quiet (s := s) i accepted results).left
  have hsends := send_sends s i accepted results
  generalize s.send i accepted results = t at hq hsends
  cases hsends
  case missing heq => exact .of_active hq (by rw [heq]; rfl)
  case ended heq => exact .of_active hq (by rw [heq]; rfl)
  case closed hreq _ _ hactive _ _ => exact .set hq hreq hactive ⟨rfl, le_rfl⟩
  case sent hreq _ hactive _ _ => exact .set hq hreq hactive ⟨rfl, Nat.le_succ _⟩

theorem correct_dwindles (s : VeloScheduler R μ δ τ) (i : Nat) (results : StepResults) :
    Dwindles s (s.correct i results) := by
  have hq := (correct_quiet (s := s) i results).left
  have hcorrects := correct_corrects s i results
  generalize s.correct i results = t at hq hcorrects
  cases hcorrects
  case missing heq => exact .of_active hq (by rw [heq]; rfl)
  case ended heq => exact .of_active hq (by rw [heq]; rfl)
  case corrected hreq _ hactive _ hmax hcount _ _ _ => exact .set hq hreq hactive ⟨hmax, by omega⟩

theorem cleanup_inStep (i : Nat) (h : s.phase.inStep) : (s.cleanup i).phase.inStep ∨ (s.cleanup i).phase = .commands := by
  have hcleans := cleanup_cleans s i
  generalize s.cleanup i = t at hcleans
  cases hcleans
  case ended heq => exact .inr (by rw [heq]; rfl)
  case stays heq => exact .inl (by rw [heq]; trivial)
  case leaves hnext =>
    rcases hnext with hnext | hnext
    case inl => exact .inl (hnext ▸ h)
    case inr => exact .inl (hnext ▸ trivial)

variable [MemoryRuntime R] [DraftModel μ δ] [TargetModel μ τ]

theorem work_dwindles (h : s.phase.inStep) (hp : s.phase ≠ .panicked) :
    Dwindles s s.work ∧ (s.work.phase.inStep ∨ s.work.phase = .commands) := by
  unfold work
  split
  case h_6 => exact ⟨commit_dwindles .., .inl (commit_quiet _ _).right⟩
  case h_7 => exact ⟨send_dwindles .., .inl (send_quiet _ _ _).right⟩
  case h_8 => exact ⟨correct_dwindles .., .inl (correct_quiet _ _).right⟩
  case h_9 => exact ⟨cleanup_dwindles .., cleanup_inStep _ h⟩
  case h_11 hphase => exact absurd hphase hp
  all_goals
    rename_i heq
    rw [heq] at h
    exact h.elim

-- Between the calls of the models and the next commands.
theorem Run.dwindles (hrun : Run Within s t) (h : s.phase.inStep) (hp : t.phase ≠ .panicked) : Dwindles s t := by
  have hall : Dwindles s t ∧ (t.phase.inStep ∨ t.phase = .commands) := by
    refine (hrun.not_panicked hp).invariant (I := fun t => Dwindles s t ∧ (t.phase.inStep ∨ t.phase = .commands)) ⟨.refl, .inl h⟩
      fun u a hu _ ⟨hw, hne⟩ => ?_
    cases a
    case work =>
      have hin : u.phase.inStep := hu.right.resolve_right fun hcommands => by
        have hno := hw.left
        rw [hcommands] at hno
        cases hno
      have hnext := work_dwindles hin hne
      exact ⟨hu.left.trans hnext.left, hnext.right⟩
    all_goals exact absurd hw.right Bool.false_ne_true
  exact hall.left

end Dwindles
section Drains

variable [MemoryRuntime R] [DraftModel μ δ] [TargetModel μ τ]

-- Only the worker goes on.
def Works (_ : VeloScheduler R μ δ τ) (a : Action) : Prop :=
  a.isWork = true

theorem Run.works (h : Run Works s.work t) : Run Works s t :=
  (Run.step (a := .work) .refl trivial rfl).trans h

theorem Run.within (h : Run Within s t) : Run Works s t :=
  h.mono fun _ _ hw => hw.right

-- From the commands to the next commands

theorem commands_reaches (hphase : s.phase = .commands) : ∃ t, Run Works s t ∧ t.phase = .requests ∧
    t.active = s.active ∧ t.pending = s.pending ∧ t.requestRx = s.requestRx := by
  have hwork : s.work = s.pollCommand := by rw [work, hphase]
  induction hrx : s.commandRx generalizing s
  case nil =>
    refine ⟨s.work, .works .refl, ?_⟩
    rw [hwork, pollCommand, hrx]
    exact ⟨rfl, rfl, rfl, rfl⟩
  case cons command rest hi =>
    -- Each of the commands is taken, whatever it does.
    have hnext : s.work.phase = .commands ∧ s.work.commandRx = rest ∧ s.work.active = s.active ∧
        s.work.pending = s.pending ∧ s.work.requestRx = s.requestRx := by
      rw [hwork, pollCommand, hrx]
      cases command
      all_goals exact ⟨hphase, rfl, rfl, rfl, rfl⟩
    obtain ⟨hphase', hrx', hactive, hpending, hrequests⟩ := hnext
    obtain ⟨t, ht, hp, hrest⟩ := hi hphase' (by rw [work, hphase']) hrx'
    exact ⟨t, ht.works, hp, hactive ▸ hrest.left, hpending ▸ hrest.right.left, hrequests ▸ hrest.right.right⟩

theorem requests_reaches (hphase : s.phase = .requests) : ∃ t, Run Works s t ∧ t.phase = .admission ∧
    t.active = s.active ∧ t.pending = s.pending ++ s.requestRx ∧ t.requestRx = [] := by
  have hwork : s.work = s.pollRequest := by rw [work, hphase]
  induction hrx : s.requestRx generalizing s
  case nil =>
    refine ⟨s.work, .works .refl, ?_⟩
    rw [hwork, pollRequest, hrx, append_nil]
    exact ⟨rfl, rfl, rfl, hrx⟩
  case cons req rest hi =>
    have hnext : s.work = { s with requestRx := rest, pending := s.pending ++ [req] } := by rw [hwork, pollRequest, hrx]
    have hphase' : s.work.phase = .requests := by rw [hnext]; exact hphase
    obtain ⟨t, ht, hp, hactive, hpending, hempty⟩ := hi hphase' (by rw [work, hphase']) (by rw [hnext])
    refine ⟨t, ht.works, hp, by rw [hactive, hnext], ?_, hempty⟩
    rw [hpending, hnext, append_assoc]
    rfl

variable [LawfulMemoryRuntime R]

section Answering

variable (hδ : DraftModel.RepliesBatch δ fun r ps => ps.length ≤ r.maxTokens ∧ (0 < r.maxTokens → ps ≠ []))
  (hτ : TargetModel.StepsBatch τ)

include hδ hτ

-- All waiting requests are taken, or there is an active one.
theorem admission_reaches (h : Sane s) (hphase : s.phase = .admission) : ∃ t, Run Works s t ∧ t.phase = .idle ∧
    t.requestRx = s.requestRx ∧ t.load ≤ s.load ∧ (t.pending = [] ∨ t.active ≠ []) := by
  have hwork : s.work = s.admitNext := by rw [work, hphase]
  induction hpending : s.pending generalizing s
  case nil =>
    refine ⟨s.work, .works .refl, ?_⟩
    rw [hwork, admitNext, hpending]
    split
    all_goals exact ⟨rfl, rfl, le_rfl, .inl hpending⟩
  case cons req rest hi =>
    by_cases hlt : s.active.length < s.machine.engine.slotPool.capacity
    case neg =>
      refine ⟨s.work, .works .refl, ?_⟩
      rw [hwork, admitNext, if_neg hlt]
      refine ⟨rfl, rfl, le_rfl, .inr fun hnil => hlt ?_⟩
      have hnil : s.active = [] := hnil
      rw [hnil]
      exact h.slots
    case pos =>
      -- The request is admitted or dropped, and there is less to do.
      have hsane : Sane s.work := h.next (hδ.mono fun _ _ hr => hr.left) hτ .work
      have hnext : s.work.phase = .admission ∧ s.work.requestRx = s.requestRx ∧ s.work.pending = rest ∧
          s.work.load ≤ s.load := by
        have hreturned := (admitRequest_settles (δ := δ) (τ := τ) req s.machine h.coherent).left
        rw [hwork, admitNext, if_pos hlt, hpending]
        dsimp only
        split
        case h_1 activeReq m hadmitted =>
          obtain ⟨pool, out, hadm⟩ := admitRequest_eq_ok hadmitted
          have hdue : activeReq.due = req.maxNewTokens + 1 := by rw [hadm.request]; rfl
          refine ⟨hphase, rfl, rfl, ?_⟩
          simp only [load, hpending, map_append, sum_append, map_cons, map_nil, sum_cons, sum_nil, cons_append, hdue]
          omega
        case h_2 =>
          refine ⟨hphase, rfl, rfl, ?_⟩
          simp only [load, hpending, cons_append, map_cons, sum_cons]
          omega
        case h_3 fault m hne heq =>
          rw [heq] at hreturned
          cases fault
          case err e => exact absurd rfl (hne e)
          all_goals exact hreturned.elim
      obtain ⟨hphase', hrx, hrest, hle⟩ := hnext
      obtain ⟨t, ht, hp, hrx', hle', hor⟩ := hi hsane hphase' (by rw [work, hphase']) hrest
      exact ⟨t, ht.works, hp, hrx'.trans hrx, hle'.trans hle, hor⟩

omit hδ hτ [LawfulMemoryRuntime R] in
-- A request that has all of its tokens leaves.
theorem cleanup_empties (hphase : u.phase = .cleanup 0) (hacc : Accounts False u) (hne : u.active ≠ [])
    (hdone : ∀ req ∈ u.active, req.maxNewTokens ≤ req.generatedCount) :
    ∃ t, Run Within u t ∧ t.phase = .commands ∧ t.active.length < u.active.length := by
  have hwork : u.work = u.cleanup 0 := work_eq_cleanup hphase
  have hacc' := hacc.cleanup 0
  have hno := cleanup_phase_ne hphase hacc
  have hcleans := cleanup_cleans u 0
  have hpos := length_pos_iff.mpr hne
  rw [← hwork] at hacc' hno hcleans
  cases hcleans
  case ended hnone _ => exact absurd (getElem?_eq_none_iff.mp hnone) (Nat.not_le.mpr hpos)
  case stays hreq hneeds _ _ => exact absurd (hdone _ (mem_of_getElem? hreq)) (Nat.not_le.mpr hneeds)
  case leaves hactive _ _ _ hnext =>
    have hphase' : u.work.phase = .cleanup 0 := (hnext.resolve_right hno).trans hphase
    obtain ⟨t, ht, hp⟩ := cleanup_reaches hphase' hacc'
    refine ⟨t, ht.work (by rw [hphase]; rfl), hp, ?_⟩
    have hle := (ht.dwindles (by rw [hphase']; trivial) (by simp [hp])).length_le
    rw [hactive, length_eraseIdx, if_pos hpos] at hle
    omega

-- In a step with active requests, one of them gets a token that it needs, or one leaves.
theorem step_reaches (h : Sane s) (hphase : s.phase = .step) :
    ∃ t, Run Works s t ∧ t.phase = .commands ∧ (s.active ≠ [] → t.load < s.load) := by
  have hδ' : DraftModel.RepliesBatch δ fun r ps => ps.length ≤ r.maxTokens := hδ.mono fun _ _ hr => hr.left
  obtain ⟨models, results, hcall, hc, _⟩ := callModels_complete hδ' hτ s
  have hnext : s.work = { s with machine := { s.machine with models }, phase := .commit 0 results } := by
    rw [work, hphase, ← hcall]
  have hcommit : s.work.phase = .commit 0 results := by rw [hnext]
  have hactive : s.work.active = s.active := by rw [hnext]
  have hd₀ : Dwindles s s.work := by
    rw [hnext]
    exact ⟨refl_of _ s.active, rfl, rfl⟩
  obtain ⟨u, hu, hup⟩ := commit_reaches hcommit (hactive ▸ hc)
  have hacc := ((h.next hδ' hτ .work).run hδ' hτ hu).accounts
  have hdu := hd₀.trans (hu.dwindles (by rw [hcommit]; trivial) (by simp [hup]))
  by_cases hsome : DraftsSome s
  case pos =>
    obtain ⟨t, ht, htp⟩ := cleanup_reaches hup hacc
    have hiterates : Iterates s t := ⟨(hu.trans ht).mono fun _ _ hw => hw.left, htp⟩
    have hd := hdu.trans (ht.dwindles (by rw [hup]; trivial) (by simp [htp]))
    refine ⟨t, (hu.trans ht).within.works, htp, fun _ => hd.load_lt ?_⟩
    refine (hiterates.moves hδ' hτ hphase hsome).imp_right ?_
    rintro ⟨j, req, req', hj, hj', _, hneeds, hgets⟩
    exact ⟨j, req, req', hj, hj', hneeds, hgets⟩
  case neg =>
    -- No request needs a token, since its draft would have one.
    have hdone : ∀ req ∈ s.active, req.maxNewTokens ≤ req.generatedCount := by
      intro req hreq
      obtain ⟨drafts, ms, d, hd, hreplies⟩ :=
        hδ s.machine.models.draft (draftRequests s.machine.engine.decoder.draftWindow s.active)
      rw [draftRequests, forall₂_map_left_iff] at hreplies
      obtain ⟨j, hj⟩ := getElem?_of_mem hreq
      obtain ⟨ps, hps, _, hne⟩ := forall₂_getElem? hreplies hj
      by_contra hneeds
      have hwindow := s.machine.engine.decoder.draftWindow_pos
      exact hsome ⟨drafts, ms, d, hd, ps, mem_of_getElem? hps, hne (by dsimp only; omega)⟩
    by_cases hnil : u.active = []
    case pos =>
      obtain ⟨t, ht, htp⟩ := cleanup_reaches hup hacc
      have hd := hdu.trans (ht.dwindles (by rw [hup]; trivial) (by simp [htp]))
      refine ⟨t, (hu.trans ht).within.works, htp, fun hne => hd.load_lt (.inl ?_)⟩
      have hle := (ht.dwindles (by rw [hup]; trivial) (by simp [htp])).length_le
      rw [hnil, length_nil] at hle
      exact hle.trans_lt (length_pos_iff.mpr hne)
    case neg =>
      obtain ⟨t, ht, htp, hlt⟩ := cleanup_empties hup hacc hnil (hdu.finished hdone)
      have hd := hdu.trans (ht.dwindles (by rw [hup]; trivial) (by simp [htp]))
      exact ⟨t, (hu.trans ht).within.works, htp, fun _ => hd.load_lt (.inl (hlt.trans_le hdu.length_le))⟩

-- Where the worker looks for requests, there are none, or it goes on with a step or with the clean-up.
theorem idle_reaches (h : Sane s) (hphase : s.phase = .idle) : s.ids = [] ∨ ∃ t, Run Works s t ∧ t.phase = .commands ∧
    (s.requestRx = [] → s.pending = [] ∨ s.active ≠ [] → t.load < s.load) := by
  have hwork : s.work = s.await := by rw [work, hphase]
  have hsane : Sane s.work := h.next (hδ.mono fun _ _ hr => hr.left) hτ .work
  by_cases hactive : s.active = []
  case neg =>
    have hnext : s.work = s.withPhase .step := by
      rw [hwork, await]
      simp [hactive]
    have hphase' : s.work.phase = .step := by rw [hnext]; rfl
    obtain ⟨t, ht, hp, hlt⟩ := step_reaches hδ hτ hsane hphase'
    rw [hnext] at hlt
    exact .inr ⟨t, ht.works, hp, fun _ _ => hlt hactive⟩
  case pos =>
    by_cases hpending : s.pending = []
    case neg =>
      have hnext : s.work = s.withPhase (.cleanup 0) := by
        rw [hwork, await]
        simp [hactive, hpending]
      have hphase' : s.work.phase = .cleanup 0 := by rw [hnext]; rfl
      obtain ⟨t, ht, hp⟩ := cleanup_reaches hphase' hsane.accounts
      exact .inr ⟨t, ht.within.works, hp, fun _ hor => (hor.elim hpending fun hne => hne hactive).elim⟩
    case pos =>
      cases hrx : s.requestRx
      case nil => exact .inl (by rw [ids, hrx, hpending, hactive]; rfl)
      case cons req rest =>
        have hnext : s.work.phase = .commands := by
          rw [hwork, await]
          simp [hactive, hpending, hrx]
        exact .inr ⟨s.work, .works .refl, hnext, fun hnil => absurd hnil (cons_ne_nil req rest)⟩

-- From one look at the commands to the next, all is done, or there is less to do.
theorem commands_drains (h : Sane s) (hphase : s.phase = .commands) : ∃ t, Run Works s t ∧ t.ids = [] := by
  have hδ' : DraftModel.RepliesBatch δ fun r ps => ps.length ≤ r.maxTokens := hδ.mono fun _ _ hr => hr.left
  induction hn : s.load using Nat.strong_induction_on generalizing s
  case h n hi =>
    obtain ⟨s₁, h₁, hp₁, hactive₁, hpending₁, hrx₁⟩ := commands_reaches hphase
    obtain ⟨s₂, h₂, hp₂, hactive₂, hpending₂, hrx₂⟩ := requests_reaches hp₁
    obtain ⟨s₃, h₃, hp₃, hrx₃, hle, hor⟩ := admission_reaches hδ hτ ((h.run hδ' hτ h₁).run hδ' hτ h₂) hp₂
    have hload : s₂.load = s.load := by
      rw [load, load, hactive₂, hactive₁, hpending₂, hrx₂, hpending₁, hrx₁, append_nil]
    have hrun := (h₁.trans h₂).trans h₃
    have hsane := h.run hδ' hτ hrun
    rcases idle_reaches hδ hτ hsane hp₃ with hempty | ⟨t, ht, hp, hlt⟩
    case inl => exact ⟨s₃, hrun, hempty⟩
    case inr =>
      have hless : t.load < n := (hlt (hrx₃.trans hrx₂) hor).trans_le (hle.trans (hload.trans hn).le)
      obtain ⟨t', ht', hempty⟩ := hi t.load hless (hsane.run hδ' hτ ht) hp rfl
      exact ⟨t', (hrun.trans ht).trans ht', hempty⟩

-- The worker comes to the commands from wherever it is.
theorem Sane.exists_empty (h : Sane s) : ∃ t, Run Works s t ∧ t.ids = [] := by
  have hδ' : DraftModel.RepliesBatch δ fun r ps => ps.length ≤ r.maxTokens := hδ.mono fun _ _ hr => hr.left
  have commands (t) (hrun : Run Works s t) (hp : t.phase = .commands) : ∃ t, Run Works s t ∧ t.ids = [] := by
    obtain ⟨u, hu, hempty⟩ := commands_drains hδ hτ (h.run hδ' hτ hrun) hp
    exact ⟨u, hrun.trans hu, hempty⟩
  have cleanup (t i) (hrun : Run Works s t) (hp : t.phase = .cleanup i) : ∃ t, Run Works s t ∧ t.ids = [] := by
    obtain ⟨u, hu, hup⟩ := cleanup_reaches hp (h.run hδ' hτ hrun).accounts
    exact commands u (hrun.trans hu.within) hup
  have commit (t i results) (hrun : Run Works s t) (hp : t.phase = .commit i results) :
      ∃ t, Run Works s t ∧ t.ids = [] := by
    have hsane := (h.run hδ' hτ hrun).phase
    rw [hp] at hsane
    obtain ⟨u, hu, hup⟩ := commit_reaches hp hsane
    exact cleanup u 0 (hrun.trans hu.within) hup
  have idle (t) (hrun : Run Works s t) (hp : t.phase = .idle) : ∃ t, Run Works s t ∧ t.ids = [] := by
    rcases idle_reaches hδ hτ (h.run hδ' hτ hrun) hp with hempty | ⟨u, hu, hup, _⟩
    case inl => exact ⟨t, hrun, hempty⟩
    case inr => exact commands u (hrun.trans hu) hup
  have admission (t) (hrun : Run Works s t) (hp : t.phase = .admission) : ∃ t, Run Works s t ∧ t.ids = [] := by
    obtain ⟨u, hu, hup, _⟩ := admission_reaches hδ hτ (h.run hδ' hτ hrun) hp
    exact idle u (hrun.trans hu) hup
  have hphase := h.phase
  cases hp : s.phase
  case commands => exact commands s .refl hp
  case requests =>
    obtain ⟨t, ht, htp, _⟩ := requests_reaches hp
    exact admission t ht htp
  case admission => exact admission s .refl hp
  case idle => exact idle s .refl hp
  case step =>
    obtain ⟨t, ht, htp, _⟩ := step_reaches hδ hτ h hp
    exact commands t ht htp
  case commit i results => exact commit s i results .refl hp
  case send i accepted results =>
    rw [hp] at hphase
    obtain ⟨t, ht, htp, _⟩ := send_reaches hp hphase.left
    exact commit t (i + 1) results ht.within htp
  case correct i results =>
    rw [hp] at hphase
    obtain ⟨t, ht, htp, _⟩ := correct_reaches hp hphase.left
    exact commit t (i + 1) results ht.within htp
  case cleanup i => exact cleanup s i .refl hp
  case stopped =>
    rw [hp] at hphase
    exact ⟨s, .refl, hphase⟩
  case panicked =>
    rw [hp] at hphase
    exact hphase.elim

end Answering

-- No request waits for ever: in whatever state the clients leave the worker, it takes all that it was sent and is done
-- with it, without a panic. Where no admission on the way fails for a client that listens, each client that listens has
-- got the whole continuation of its prompt, and its answer.
theorem drains (hδ : DraftModel.RepliesBatch δ fun r ps => ps.length ≤ r.maxTokens ∧ (0 < r.maxTokens → ps ≠ []))
    (hτ : TargetModel.StepsBatch τ) (hf : TargetModel.VerifiesBatchBy τ f) {m : Machine R μ δ τ}
    (hc : VeloEngine.Coherent m.engine) (hslots : 0 < m.engine.slotPool.capacity) (h : Run (fun _ _ => True) (start m) s) :
    ∃ t, Run Works s t ∧ t.ids = [] ∧ t.phase ≠ .panicked ∧
      (Run AdmitsOpen (start m) t → ∀ (i : Nat) c, t.clients[i]? = some c → c.queued = true → c.closed = false →
        c.tokens = greedy f c.prompt c.maxNewTokens ∧ c.done = [.ok ()]) := by
  have hδ' : DraftModel.RepliesBatch δ fun r ps => ps.length ≤ r.maxTokens := hδ.mono fun _ _ hr => hr.left
  have hs : Sane s := (sane_start hc hslots).run hδ' hτ h
  obtain ⟨t, ht, hempty⟩ := hs.exists_empty hδ hτ
  have hruns : t.phase ≠ .panicked := by
    intro hp
    have hphase := (hs.run hδ' hτ ht).phase
    rw [hp] at hphase
    exact hphase.elim
  refine ⟨t, ht, hempty, hruns, fun hopen i c hget hq hlistens => ?_⟩
  have hanswers : DraftModel.AnswersBatch δ 0 := by
    intro d requests _
    obtain ⟨results, ms, d', hd, hr⟩ := hδ d requests
    exact ⟨results, ms, d', hd, hr.imp fun _ _ hr => ⟨hr.left, fun hpos => length_pos_iff.mpr (hr.right hpos)⟩⟩
  have hserving : Serving f t :=
    hopen.serving (serving_start m) (hanswers.failsOnly fun _ => False) (hf.failsOnly fun _ => False)
  have hserved := hserving.served i c hget
  have hdone : c.done ≠ [] := by
    have hacc : Accounts True t := accounts_of_keeps ((hopen.not_panicked hruns).mono fun _ _ ha => ha.left.keeps ha.right)
    have hor := hacc.accounted.settled trivial i c hget hq (by rw [hempty]; exact not_mem_nil)
    have hone := hor.resolve_left (by simp [hlistens])
    exact ne_nil_of_length_pos (hone ▸ Nat.one_pos)
  obtain ⟨hdone, hlen⟩ := hserved.done.resolve_left hdone
  exact ⟨hlen ▸ hserved.follows, hdone⟩

-- Three requests for two slots; the worker has only taken two of them when the second client leaves.
theorem drains_three : ∃ e : VeloEngine CpuMemoryRuntime Empty, VeloEngine.new ⟨2, ⟨1, 4, 8, 2⟩⟩ = .ok e ∧
    let s : VeloScheduler CpuMemoryRuntime Empty (Drafter List.sum (min 1)) (Oracle List.sum) :=
      ([.submit [1, 2] 3, .submit [3] 1, .work, .work, .work, .drop 1, .submit [4] 2] : List Action).foldl next
        (start ⟨e, ⟨⟨⟩, ⟨0⟩⟩⟩)
    s.ids = [2, 0, 1] ∧ ∃ t, Run Works s t ∧ t.ids = [] ∧ t.phase ≠ .panicked ∧
      (Run AdmitsOpen (start ⟨e, ⟨⟨⟩, ⟨0⟩⟩⟩) t → ∀ (i : Nat) c, t.clients[i]? = some c → c.queued = true →
        c.closed = false → c.tokens = greedy List.sum c.prompt c.maxNewTokens ∧ c.done = [.ok ()]) := by
  have hδ : DraftModel.RepliesBatch (Drafter List.sum (min 1)) fun r ps => ps.length = min 1 r.maxTokens :=
    Drafter.repliesBatch
  refine ⟨_, rfl, by decide +kernel, drains (hδ.mono fun r ps h => ⟨h ▸ min_le_right .., fun hpos => ?_⟩) Oracle.stepsBatch
    Oracle.verifiesBatchBy (VeloEngine.reachable_new ⟨2, ⟨1, 4, 8, 2⟩⟩ rfl).coherent (by decide +kernel)
    (Traced.run _ (by decide +kernel))⟩
  exact length_pos_iff.mp (by omega)

end Drains
end VeloScheduler
