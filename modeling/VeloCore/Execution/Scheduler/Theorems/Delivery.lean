import Mathlib
import VeloCore.Execution.Scheduler.Theorems.Slots

open List

-- The clients whose requests are somewhere in the scheduler, each once, have not been answered yet, and where the run
-- keeps to `P`, the others have.
structure Accounted (P : Prop) (ids : List Nat) (clients : List Client) : Prop where
  nodup   : ids.Nodup
  waiting : ∀ i ∈ ids, ∃ c, clients[i]? = some c ∧ c.done = []
  settled : P → ∀ (i : Nat) c, clients[i]? = some c → c.queued = true → i ∉ ids → c.closed = true ∨ c.done.length = 1

namespace Accounted

variable {P : Prop} {ids ids' : List Nat} {clients clients' : List Client} {id : Nat}

theorem perm (h : Accounted P ids clients) (hp : ids ~ ids') : Accounted P ids' clients where
  nodup                  := hp.nodup_iff.mp h.nodup
  waiting i hi           := h.waiting i (hp.mem_iff.mpr hi)
  settled p i c hc hq hi := h.settled p i c hc hq (hp.mem_iff.not.mpr hi)

theorem lt (h : Accounted P ids clients) (hi : id ∈ ids) : id < clients.length :=
  have ⟨_, hc, _⟩ := h.waiting id hi
  (List.getElem?_eq_some_iff.mp hc).1

-- The clients may change as long as they only close and keep their answers.
theorem mono (h : Accounted P ids clients) (hlen : clients'.length = clients.length)
    (hc : ∀ (i : Nat) c', clients'[i]? = some c' → ∃ c, clients[i]? = some c ∧ c'.done = c.done ∧ c'.queued = c.queued ∧
      (c.closed = true → c'.closed = true)) : Accounted P ids clients' where
  nodup := h.nodup
  waiting i hi := by
    have ⟨c', hc'⟩ : ∃ c', clients'[i]? = some c' := ⟨_, getElem?_eq_getElem (hlen ▸ h.lt hi)⟩
    have ⟨c, hget, hdone, _⟩ := hc i c' hc'
    have ⟨c₀, hget₀, hdone₀⟩ := h.waiting i hi
    cases hget.symm.trans hget₀
    exact ⟨c', hc', hdone.trans hdone₀⟩
  settled p i c' hc' hq hi := by
    have ⟨c, hget, hdone, hqueued, hclosed⟩ := hc i c' hc'
    rw [hdone]
    exact (h.settled p i c hget (hqueued ▸ hq) hi).imp_left hclosed

theorem frame (h : Accounted P ids clients) (hf : clients'.map Client.frame = clients.map Client.frame) :
    Accounted P ids clients' := by
  refine h.mono (by simpa using congrArg length hf) fun i c' hc' => ?_
  have hget := congrArg (·[i]?) hf
  simp only [getElem?_map, hc', Option.map_some] at hget
  have ⟨c, hc, heq⟩ := Option.map_eq_some_iff.mp hget.symm
  have hall := Client.ext_iff.mp heq
  exact ⟨c, hc, by simp_all [Client.frame]⟩

theorem submit (h : Accounted P ids clients) {c : Client} (hc : c.done = []) :
    Accounted P (if c.queued then ids ++ [clients.length] else ids) (clients ++ [c]) := by
  have hold : ∀ i ∈ ids, ∃ c', (clients ++ [c])[i]? = some c' ∧ c'.done = [] := fun i hi => by
    rw [getElem?_append_left (h.lt hi)]
    exact h.waiting i hi
  have hsettled : P → ∀ (i : Nat) c', (clients ++ [c])[i]? = some c' → c'.queued = true → i ∉ ids →
      (c.queued = true → i ≠ clients.length) → c'.closed = true ∨ c'.done.length = 1 := fun p i c' hc' hq hi hne => by
    rcases Nat.lt_trichotomy i clients.length with hlt | rfl | hgt
    case inl => exact h.settled p i c' (by rwa [getElem?_append_left hlt] at hc') hq hi
    case inr.inl =>
      rw [getElem?_concat_length, Option.some.injEq] at hc'
      exact absurd rfl (hne (hc' ▸ hq))
    case inr.inr => rw [getElem?_eq_none (by simp; omega)] at hc'; contradiction
  split
  case isFalse hq => exact ⟨h.nodup, hold, fun p i c' hc' hq' hi => hsettled p i c' hc' hq' hi fun hq'' => absurd hq'' hq⟩
  case isTrue =>
    refine ⟨?_, fun i hi => ?_, fun p i c' hc' hq hi => ?_⟩
    case refine_1 => exact nodup_append.mpr ⟨h.nodup, nodup_singleton _, by simpa using fun i hi => (h.lt hi).ne⟩
    case refine_2 =>
      rcases mem_append.mp hi with hi | hi
      case inl => exact hold i hi
      case inr => rw [mem_singleton.mp hi]; exact ⟨c, getElem?_concat_length, hc⟩
    case refine_3 =>
      simp only [mem_append, mem_singleton, not_or] at hi
      exact hsettled p i c' hc' hq hi.left fun _ => hi.right

-- A request may leave when its client has closed.
theorem leave (h : Accounted P (id :: ids) clients) (hc : P → ∀ c, clients[id]? = some c → c.closed = true) :
    Accounted P ids clients where
  nodup        := h.nodup.of_cons
  waiting i hi := h.waiting i (mem_cons_of_mem _ hi)
  settled p i c hget hq hi := by
    by_cases heq : i = id
    case pos => exact .inl (hc p c (heq ▸ hget))
    case neg => exact h.settled p i c hget hq (by simp [heq, hi])

-- All of them may leave when their clients have closed.
theorem leaveAll (h : Accounted P ids clients)
    (hc : P → ∀ id ∈ ids, ∀ c, clients[id]? = some c → c.closed = true) : Accounted P [] clients where
  nodup        := nodup_nil
  waiting      := by simp
  settled p i c hget hq _ := by
    by_cases hi : i ∈ ids
    case pos => exact .inl (hc p i hi c hget)
    case neg => exact h.settled p i c hget hq hi

-- A request may leave with one answer.
theorem answer (h : Accounted P (id :: ids) clients) (res : Except EngineError Unit) :
    Accounted P ids (clients.modify id fun c => { c with done := c.done ++ [res] }) where
  nodup        := h.nodup.of_cons
  waiting i hi := by
    have hne : id ≠ i := by rintro rfl; exact (nodup_cons.mp h.nodup).left hi
    rw [getElem?_modify_ne _ _ hne]
    exact h.waiting i (mem_cons_of_mem _ hi)
  settled p i c hget hq hi := by
    by_cases heq : id = i
    case neg =>
      rw [getElem?_modify_ne _ _ heq] at hget
      exact h.settled p i c hget hq (by simp [Ne.symm heq, hi])
    case pos =>
      subst heq
      have ⟨c₀, hget₀, hdone⟩ := h.waiting id mem_cons_self
      rw [getElem?_modify_eq, hget₀, Option.map_eq_map, Option.map_some, Option.some.injEq] at hget
      exact .inr (by simp [← hget, hdone])

end Accounted

namespace VeloScheduler

variable {R μ δ τ : Type} {P : Prop} {s s₁ s₂ : VeloScheduler R μ δ τ} {i : Nat}

-- The clients whose requests are in the channel, pending or active.
def ids (s : VeloScheduler R μ δ τ) : List Nat :=
  s.requestRx.map (·.client) ++ s.pending.map (·.client) ++ s.active.map (·.client)

-- The clients of cancelled requests are gone.
def Honest (s : VeloScheduler R μ δ τ) : Prop :=
  ∀ req ∈ s.active, req.cancelled = true → s.isClosed req.client = true

theorem Quiet.ids (h : Quiet s₁ s₂) : s₂.ids = s₁.ids := by
  have howners : s₂.active.map (·.client) = s₁.active.map (·.client) := by
    simpa [Function.comp_def, ActiveRequestInternal.owner] using congrArg (map (·.1)) h.owners
  rw [VeloScheduler.ids, VeloScheduler.ids, h.requestRx, h.pending, howners]

section Honest

variable {req b : ActiveRequestInternal} {results : StepResults}

theorem Honest.quiet (hq : Quiet s₁ s₂) (hreq : ∀ b ∈ s₂.active, b.cancelled = true → s₁.isClosed b.client = true) :
    Honest s₂ :=
  fun b hmem hc => (hq.isClosed b.client).trans (hreq b hmem hc)

theorem mem_markFirst (h : b ∈ (s.markFirst i req).active) :
    b ∈ s.active ∨ b = { req with firstTokenSent := true } := by
  unfold markFirst at h
  split at h
  case isTrue  => exact .inl h
  case isFalse => exact mem_or_eq_of_mem_set h

theorem sendToken_active (client : Nat) (token : TokenId) : (s.sendToken client token).active = s.active := by
  unfold sendToken
  split <;> rfl

theorem Honest.commit (h : Honest s) (i : Nat) (results : StepResults) : Honest (s.commit i results) := by
  refine .quiet (commit_quiet i results).left fun b hb hc => ?_
  unfold VeloScheduler.commit at hb
  split at hb
  case h_1 => exact h b hb hc
  case h_2 req hreq =>
    split at hb
    case h_2 => exact h b hb hc
    case h_1 =>
      split at hb
      all_goals
        rcases mem_or_eq_of_mem_set hb with hb | rfl
        case inl => exact h b hb hc
        case inr => exact h req (mem_of_getElem? hreq) hc

theorem Honest.send (h : Honest s) (i : Nat) (accepted : List TokenId) (results : StepResults) :
    Honest (s.send i accepted results) := by
  refine .quiet (send_quiet i accepted results).left fun b hb hc => ?_
  unfold VeloScheduler.send at hb
  split at hb
  case h_1 => exact h b hb hc
  case h_2 req hreq =>
    have hmem := mem_of_getElem? hreq
    split at hb
    case h_1 => exact h b hb hc
    case h_2 token rest =>
      have hmark : ∀ b ∈ (s.markFirst i req).active, b.cancelled = true → s.isClosed b.client = true := fun b hb hc =>
        (mem_markFirst hb).elim (h b · hc) fun heq => by subst heq; exact h req hmem hc
      dsimp only at hb
      split at hb
      case isTrue hclosed =>
        rcases mem_or_eq_of_mem_set hb with hb | rfl
        case inl => exact hmark b hb hc
        case inr => rwa [(Quiet.markFirst (by rw [hreq]; rfl)).isClosed] at hclosed
      case isFalse =>
        rcases mem_or_eq_of_mem_set hb with hb | rfl
        case inl => exact hmark b (by rwa [sendToken_active] at hb) hc
        case inr => exact h req hmem hc

theorem Honest.correct (h : Honest s) (i : Nat) (results : StepResults) : Honest (s.correct i results) := by
  refine .quiet (correct_quiet i results).left fun b hb hc => ?_
  unfold VeloScheduler.correct at hb
  split at hb
  case h_1 => exact h b hb hc
  case h_2 req hreq =>
    have hmem := mem_of_getElem? hreq
    have hmark : ∀ b ∈ (s.markFirst i req).active, b.cancelled = true → s.isClosed b.client = true := fun b hb hc =>
      (mem_markFirst hb).elim (h b · hc) fun heq => by subst heq; exact h req hmem hc
    split at hb
    case h_1 => exact h b hb hc
    case h_2 =>
      rcases mem_or_eq_of_mem_set hb with hb | rfl
      case inl => exact hmark b (by rwa [sendToken_active] at hb) hc
      case inr =>
        rcases Bool.or_eq_true_iff.mp hc with hc | hc
        case inl => exact h req hmem hc
        case inr => rwa [(Quiet.markFirst (by rw [hreq]; rfl)).isClosed] at hc

end Honest

-- Every request is somewhere in the scheduler, or settled where the run keeps to `P`.
structure Accounts (P : Prop) (s : VeloScheduler R μ δ τ) : Prop where
  accounted : Accounted P s.ids s.clients
  honest    : Honest s
  slot_lt   : ∀ slot ∈ s.active.map (·.slotId), slot.toNat < s.machine.engine.slotPool.maxSlots

theorem isClosed_iff (client : Nat) : s.isClosed client = true ↔ ∀ c, s.clients[client]? = some c → c.closed = true := by
  unfold isClosed
  cases s.clients[client]? <;> simp

theorem isClosed_answer (id client : Nat) (res : Except EngineError Unit) :
    (s.onClient id fun c => { c with done := c.done ++ [res] }).isClosed client = s.isClosed client := by
  simp only [isClosed, onClient, getElem?_modify]
  split <;> cases s.clients[client]? <;> rfl

theorem Accounts.quiet (h : Accounts P s₁) (hq : Quiet s₁ s₂) (hh : Honest s₂) : Accounts P s₂ where
  accounted := hq.ids ▸ h.accounted.frame hq.clients
  honest    := hh
  slot_lt   := hq.slotIds ▸ hq.machine ▸ h.slot_lt

theorem Accounts.cleanup (h : Accounts P s) (i : Nat) : Accounts P (s.cleanup i) := by
  unfold VeloScheduler.cleanup
  split
  case h_1 => exact ⟨h.accounted, h.honest, h.slot_lt⟩
  case h_2 req hreq =>
    dsimp only
    split
    case isFalse => exact ⟨h.accounted, h.honest, h.slot_lt⟩
    case isTrue hleave =>
      have ⟨hlt, hget⟩ := List.getElem?_eq_some_iff.mp hreq
      have hids : s.ids ~ req.client ::
          (s.requestRx.map (·.client) ++ s.pending.map (·.client) ++ (s.active.eraseIdx i).map (·.client)) := by
        have herase := ((getElem_cons_eraseIdx_perm hlt).map (·.client)).symm
        rw [map_cons, hget] at herase
        exact (herase.append_left _).trans perm_middle
      have hacc := h.accounted.perm hids
      have hhonest : ∀ b ∈ s.active.eraseIdx i, b.cancelled = true → s.isClosed b.client = true := fun b hb =>
        h.honest b (mem_of_mem_eraseIdx hb)
      have hslots : ∀ slot ∈ (s.active.eraseIdx i).map (·.slotId), slot.toNat < s.machine.engine.slotPool.maxSlots :=
        fun slot hs => h.slot_lt slot (((eraseIdx_sublist _ _).map _).subset hs)
      have hmem := mem_of_getElem? hreq
      have ⟨slotPool, hrel, _, hmax⟩ := SlotPool.release_of_lt (h.slot_lt _ (mem_map_of_mem hmem))
      rw [hrel]
      dsimp only
      rw [← hmax] at hslots
      -- The client is answered if it has not gone.
      split
      case isTrue =>
        refine ⟨hacc.answer (.ok ()), fun b hb hc => ?_, hslots⟩
        exact (isClosed_answer _ _ _).trans (hhonest b hb hc)
      case isFalse hno =>
        refine ⟨hacc.leave fun _ => (isClosed_iff _).mp ?_, hhonest, hslots⟩
        rw [Bool.or_eq_true_iff] at hleave
        have hc : (req.cancelled || s.isClosed req.client) = true := by
          rcases hleave with hdone | hc
          case inl => rw [hdone, Bool.true_and, Bool.not_eq_true', Bool.not_eq_false] at hno; exact hno
          case inr => exact hc
        exact (Bool.or_eq_true_iff.mp hc).elim (h.honest req hmem) id

theorem Accounts.unwind (h : Accounts P s) (hc : P → ∀ i ∈ s.ids, s.isClosed i = true) : Accounts P s.unwind where
  accounted := h.accounted.leaveAll fun p i hi => (isClosed_iff i).mp (hc p i hi)
  honest    := by simp [Honest, VeloScheduler.unwind]
  slot_lt   := by simp [VeloScheduler.unwind]

theorem Accounts.submit (h : Accounts P s) (prompt : List TokenId) (n : Nat) : Accounts P (s.submit prompt n) := by
  refine ⟨?_, fun b hb hc => ?_, h.slot_lt⟩
  case refine_1 =>
    have hacc := h.accounted.submit (c := ⟨[], [], false, prompt, n, s.isAlive, s.switches.length⟩) rfl
    refine hacc.perm ?_
    cases halive : s.isAlive
    case false => simp [ids, VeloScheduler.submit, halive]
    case true =>
      simp only [ids, VeloScheduler.submit, halive, ↓reduceIte, map_append, map_singleton, append_assoc]
      refine Perm.append_left _ ?_
      rw [← append_assoc]
      exact perm_append_comm
  case refine_2 =>
    have hclosed := h.honest b hb hc
    have hmem : b.client ∈ s.ids := mem_append_right _ (mem_map_of_mem hb)
    rwa [isClosed, VeloScheduler.submit, getElem?_append_left (h.accounted.lt hmem)]

theorem Accounts.drop (h : Accounts P s) (client : Nat) :
    Accounts P (s.onClient client fun c => { c with closed := true }) := by
  have hget : ∀ (i : Nat) c', (s.onClient client fun c => { c with closed := true }).clients[i]? = some c' →
      ∃ c, s.clients[i]? = some c ∧ c'.done = c.done ∧ c'.queued = c.queued ∧ (c.closed = true → c'.closed = true) := by
    intro i c' hc'
    rw [onClient, getElem?_modify, Option.map_eq_map, Option.map_eq_some_iff] at hc'
    obtain ⟨c, hc, rfl⟩ := hc'
    refine ⟨c, hc, ?_⟩
    split <;> simp
  refine ⟨h.accounted.mono (by simp [onClient]) hget, fun b hb hc => ?_, h.slot_lt⟩
  refine (isClosed_iff _).mpr fun c' hc' => ?_
  obtain ⟨c, hcl, _, _, hclosed⟩ := hget _ c' hc'
  exact hclosed ((isClosed_iff _).mp (h.honest b hb hc) c hcl)

variable [MemoryRuntime R] [DraftModel μ δ] [TargetModel μ τ]

-- If the action admits a request, it does not fail, or the client has gone.
def AdmitsOpen (s : VeloScheduler R μ δ τ) (a : Action) : Prop :=
  Takes s a → ∀ req ∈ s.pending.head?, (admitRequest req s.machine).1.toBool = true ∨ s.isClosed req.client = true

instance : Decidable (AdmitsOpen s a) :=
  inferInstanceAs (Decidable (_ → _))

-- If the action is the unwinding of a panicked worker, the clients have gone whose requests it drops.
def UnwindsClosed (s : VeloScheduler R μ δ τ) (a : Action) : Prop :=
  a.isWork = true ∧ s.phase.isPanicked = true → ∀ i ∈ s.ids, s.isClosed i = true

instance : Decidable (UnwindsClosed s a) :=
  inferInstanceAs (Decidable (_ → _))

-- No client that listens loses its request with the action.
def Keeps (s : VeloScheduler R μ δ τ) (a : Action) : Prop :=
  AdmitsOpen s a ∧ UnwindsClosed s a

instance : Decidable (Keeps s a) :=
  inferInstanceAs (Decidable (_ ∧ _))

theorem AdmitsOpen.keeps {a : Action} (h : AdmitsOpen s a) (hp : s.phase ≠ .panicked) : Keeps s a :=
  ⟨h, fun ⟨_, hpanicked⟩ => absurd hpanicked (by unfold Phase.isPanicked; split <;> simp_all)⟩

theorem admitRequest_maxSlots (req : SchedulerRequest) (m : Machine R μ δ τ) :
    (admitRequest req m).2.engine.slotPool.maxSlots = m.engine.slotPool.maxSlots := by
  have halloc : Eff.Keeps (fun e : VeloEngine R μ => e.slotPool.maxSlots = m.engine.slotPool.maxSlots)
      (VeloEngine.allocateSlot "No free slots") := fun e he => by
    unfold VeloEngine.allocateSlot
    split
    case h_1 h => exact (SlotPool.alloc_eq_some h).right.trans he
    case h_2 h => exact (SlotPool.alloc_eq_none_iff.mp h).right ▸ he
  have hprefill : Eff.Keeps (fun e : VeloEngine R μ => e.slotPool.maxSlots = m.engine.slotPool.maxSlots)
      (VeloEngine.prefill req.prompt) := fun e he => by
    have hpool := VeloEngine.stable_slotPool (p := e.slotPool) |>.prefill req.prompt e rfl
    exact (congrArg SlotPool.maxSlots hpool).trans he
  exact admitRequest_keeps halloc hprefill m rfl

theorem Accounts.admitNext (h : Accounts P s) (hphase : s.phase = .admission) (ha : P → AdmitsOpen s .work) : Accounts P s.admitNext := by
  unfold VeloScheduler.admitNext
  split
  case isFalse => exact ⟨h.accounted, h.honest, h.slot_lt⟩
  case isTrue hlt =>
    split
    case h_1 => exact ⟨h.accounted, h.honest, h.slot_lt⟩
    case h_2 req rest hp =>
      have hopen (p : P) := ha p ⟨rfl, by rw [hphase]; rfl, hlt⟩ req (by rw [hp]; rfl)
      have hmax := admitRequest_maxSlots req s.machine
      have hids : s.ids ~ req.client :: (s.requestRx.map (·.client) ++ rest.map (·.client) ++ s.active.map (·.client)) := by
        rw [ids, hp, map_cons, append_assoc, append_assoc, cons_append]
        exact perm_middle
      have hacc := h.accounted.perm hids
      split
      case h_1 activeReq m hadmitted =>
        have ⟨pool, out, hadm⟩ := admitRequest_eq_ok hadmitted
        have hclient : activeReq.client = req.client := by rw [hadm.request]
        rw [hadmitted] at hmax
        refine ⟨hacc.perm ?_, fun b hb hc => ?_, fun slot hslot => ?_⟩
        case refine_1 =>
          rw [ids, map_append, map_singleton, hclient, ← append_assoc]
          exact (perm_append_singleton ..).symm
        case refine_2 =>
          rcases mem_append.mp hb with hb | hb
          case inl => exact h.honest b hb hc
          case inr => rw [mem_singleton.mp hb, hadm.request] at hc; contradiction
        case refine_3 =>
          rw [map_append] at hslot
          rcases mem_append.mp hslot with hslot | hslot
          case inl => exact hmax ▸ h.slot_lt slot hslot
          case inr =>
            rw [map_singleton, mem_singleton] at hslot
            have ⟨hfree, _⟩ := hadm.freeSlots
            exact hmax ▸ s.machine.engine.slotPool.free_lt slot (by rw [hfree, hslot]; exact mem_cons_self)
      all_goals
        rename_i hadmitted
        rw [hadmitted] at hopen hmax
        have hgone (p : P) := (isClosed_iff _).mp ((hopen p).resolve_left Bool.false_ne_true)
        exact ⟨hacc.leave hgone, h.honest, hmax ▸ h.slot_lt⟩

theorem ids_poll_perm (req : SchedulerRequest) (rest pending : List SchedulerRequest) (l : List Nat) :
    (req :: rest).map (·.client) ++ pending.map (·.client) ++ l ~
      rest.map (·.client) ++ (pending ++ [req]).map (·.client) ++ l := by
  refine Perm.append_right _ ?_
  rw [map_append, map_singleton, ← append_assoc]
  exact (perm_append_singleton ..).symm

theorem Accounts.work (h : Accounts P s) (ha : P → Keeps s .work) : Accounts P s.work := by
  unfold VeloScheduler.work
  split
  case h_1 => unfold pollCommand; split <;> exact ⟨h.accounted, h.honest, h.slot_lt⟩
  case h_2 =>
    unfold pollRequest
    split
    case h_1 => exact ⟨h.accounted, h.honest, h.slot_lt⟩
    case h_2 req rest hrx =>
      refine ⟨h.accounted.perm ?_, h.honest, h.slot_lt⟩
      rw [ids, hrx]
      exact ids_poll_perm ..
  case h_3 hphase => exact h.admitNext hphase fun p => (ha p).left
  case h_4 =>
    unfold await
    split
    case isTrue =>
      split
      case h_1 req rest hrx =>
        refine ⟨h.accounted.perm ?_, h.honest, h.slot_lt⟩
        rw [ids, hrx]
        exact ids_poll_perm ..
      case h_2 => split <;> exact ⟨h.accounted, h.honest, h.slot_lt⟩
    case isFalse => split <;> exact ⟨h.accounted, h.honest, h.slot_lt⟩
  case h_5 =>
    have ⟨models, hq, _⟩ := callModels_frame (s := s)
    have hmodels : Accounts P { s with machine := { s.machine with models } } := ⟨h.accounted, h.honest, h.slot_lt⟩
    refine hmodels.quiet hq ?_
    have ⟨hactive, hclients⟩ := callModels_active (s := s)
    intro b hb hc
    rw [hactive] at hb
    rw [isClosed, hclients]
    exact h.honest b hb hc
  case h_6 => exact h.quiet (commit_quiet _ _).left (h.honest.commit _ _)
  case h_7 => exact h.quiet (send_quiet _ _ _).left (h.honest.send _ _ _)
  case h_8 => exact h.quiet (correct_quiet _ _).left (h.honest.correct _ _)
  case h_9 => exact h.cleanup _
  case h_10 => exact h
  case h_11 hphase => exact h.unwind fun p => (ha p).right ⟨rfl, by rw [hphase]; rfl⟩

theorem Accounts.next (h : Accounts P s) (ha : P → Keeps s a) : Accounts P (s.next a) := by
  cases a
  case work => exact h.work ha
  case submit prompt n => exact h.submit prompt n
  case prefetch => rw [VeloScheduler.next, VeloScheduler.prefetch]; split <;> exact ⟨h.accounted, h.honest, h.slot_lt⟩
  case drop client => exact h.drop client
  all_goals exact ⟨h.accounted, h.honest, h.slot_lt⟩

-- A request that was queued and is neither waiting nor active any more has been answered once, unless its client
-- has gone.
def Answered (s : VeloScheduler R μ δ τ) : Prop :=
  ∀ (i : Nat) c, s.clients[i]? = some c → c.queued = true → i ∉ s.ids → c.closed = false → c.done.length = 1

theorem accounts_of_keeps (h : Run Keeps (start m) s) : Accounts True s :=
  h.invariant ⟨⟨nodup_nil, by simp [ids, start], by simp [start]⟩, by simp [Honest, start], by simp [start]⟩
    fun _ _ ht _ ha => ht.next fun _ => ha

-- As long as no admission fails for a client that still listens, and the worker does not panic before such a client has
-- its answer, no request is lost silently.
theorem answered_of_keeps (h : Run Keeps (start m) s) : Answered s := by
  intro i c hc hq hi hopen
  exact ((accounts_of_keeps h).accounted.settled trivial i c hc hq hi).resolve_left (by simp [hopen])

theorem answered_of_keeps_two : ∃ e : VeloEngine CpuMemoryRuntime Empty, VeloEngine.new ⟨2, ⟨1, 4, 8, 2⟩⟩ = .ok e ∧
    Answered ((Action.submit [1, 2] 1 :: .submit [3] 1 :: replicate 20 .work).foldl next
      (start ⟨e, ⟨(⟨⟩ : Guesser List.sum), (⟨0⟩ : Oracle List.sum)⟩⟩)) :=
  ⟨_, rfl, answered_of_keeps (Traced.run _ (by decide +kernel))⟩

-- The prompt needs two pages: the request is gone, its client listens, and nothing has been sent to it.
theorem exists_not_answered : ∃ e : VeloEngine CpuMemoryRuntime Empty, VeloEngine.new ⟨2, ⟨1, 4, 1, 1⟩⟩ = .ok e ∧
    ∃ s, Run (fun _ _ => True) (start ⟨e, ⟨(⟨⟩ : Guesser List.sum), (⟨0⟩ : Oracle List.sum)⟩⟩) s ∧ ¬ Answered s := by
  refine ⟨_, rfl, _, Traced.run [.submit [1, 2, 3, 4, 5] 1, .work, .work, .work, .work] (by decide +kernel), fun h => ?_⟩
  have hdone := h 0 ⟨[], [], false, [1, 2, 3, 4, 5], 1, true, 0⟩ rfl rfl (by decide +kernel) rfl
  simp at hdone

end VeloScheduler
