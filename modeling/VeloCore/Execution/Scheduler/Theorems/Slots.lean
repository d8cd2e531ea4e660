import Mathlib
import VeloCore.Execution.Scheduler.Theorems.Frame
import VeloCore.Execution.Engine.Theorems.Slots

open List

namespace VeloScheduler

variable {R μ δ τ : Type} {m m' : Machine R μ δ τ} {req : SchedulerRequest} {activeReq : ActiveRequestInternal}
  {pool : SlotPool} {out : EnginePrefillOutput} {s s₁ s₂ : VeloScheduler R μ δ τ}

section Partition

-- The free slots and those of the active requests.
def slots (s : VeloScheduler R μ δ τ) : List SlotId :=
  s.machine.engine.slotPool.freeSlots ++ s.active.map (·.slotId)

-- Every slot is free or has one owner.
def Partition (s : VeloScheduler R μ δ τ) : Prop :=
  s.slots.map UInt32.toNat ~ range s.machine.engine.slotPool.maxSlots

theorem Quiet.slotIds (h : Quiet s₁ s₂) : s₂.active.map (·.slotId) = s₁.active.map (·.slotId) := by
  simpa [Function.comp_def, ActiveRequestInternal.owner] using congrArg (map (·.2.1)) h.owners

theorem Partition.quiet (h : Partition s₁) (hq : Quiet s₁ s₂) : Partition s₂ := by
  rwa [Partition, slots, hq.slotIds, hq.machine]

theorem Partition.slot_lt (h : Partition s) (hreq : activeReq ∈ s.active) :
    activeReq.slotId.toNat < s.machine.engine.slotPool.maxSlots := by
  have hmem : activeReq.slotId.toNat ∈ s.slots.map UInt32.toNat :=
    mem_map_of_mem (mem_append_right _ (mem_map_of_mem hreq))
  exact mem_range.mp (h.subset hmem)

theorem Partition.cleanup (h : Partition s) (i : Nat) : Partition (s.cleanup i) := by
  unfold VeloScheduler.cleanup
  split
  case h_1 => exact h
  case h_2 req hreq =>
    dsimp only
    split
    case isFalse => exact h
    case isTrue =>
      have hmem := mem_of_getElem? hreq
      have ⟨slotPool, hrel, hfree, hmax⟩ := SlotPool.release_of_lt (h.slot_lt hmem)
      have hperm : slotPool.freeSlots ++ (s.active.eraseIdx i).map (·.slotId) ~ s.slots := by
        have ⟨hlt, hget⟩ := List.getElem?_eq_some_iff.mp hreq
        have herase := (getElem_cons_eraseIdx_perm hlt).map (·.slotId)
        rw [map_cons, hget] at herase
        rw [hfree, append_assoc]
        exact herase.append_left _
      have hnew : ((slotPool.freeSlots ++ (s.active.eraseIdx i).map (·.slotId)).map UInt32.toNat) ~ range slotPool.maxSlots :=
        (hperm.map _).trans (hmax ▸ h)
      rw [hrel]
      dsimp only
      split <;> exact hnew

end Partition

variable [MemoryRuntime R] [DraftModel μ δ] [TargetModel μ τ]

-- What a successful admission does.
structure Admitted (req : SchedulerRequest) (m : Machine R μ δ τ) (activeReq : ActiveRequestInternal)
    (m' : Machine R μ δ τ) (pool : SlotPool) (out : EnginePrefillOutput) : Prop where
  alloc   : m.engine.slotPool.alloc = (some activeReq.slotId, pool)
  prefill : VeloEngine.prefill req.prompt { m.engine with slotPool := pool } = (.ok out, m'.engine)
  bind    : Models.bind activeReq.slotId out.cachedPrefix m.models = (.ok (), m'.models)
  request : activeReq = ⟨m'.engine.decoder.begin req.prompt, activeReq.slotId, req.maxNewTokens, req.client, 0, false, false, false⟩

theorem admitRequest_eq_ok (h : admitRequest req m = (.ok activeReq, m')) :
    ∃ pool out, Admitted req m activeReq m' pool out := by
  have ⟨slot, m₁, h₁, h⟩ := Eff.bind_eq_ok_iff.mp h
  have ⟨prefill, m₂, h₂, h⟩ := Eff.bind_eq_ok_iff.mp h
  have ⟨_, m₃, h₃, h⟩ := Eff.bind_eq_ok_iff.mp h
  have ⟨e₁, halloc, hm₁⟩ := Eff.zoom_eq_ok_iff.mp h₁
  have ⟨e₂, hprefill, hm₂⟩ := Eff.zoom_eq_ok_iff.mp h₂
  have ⟨models, hbind, hm₃⟩ := Eff.zoom_eq_ok_iff.mp h₃
  have ⟨slotPool, hpool, he⟩ := VeloEngine.allocateSlot_eq_ok halloc
  subst hm₁ hm₂ hm₃ he
  cases h
  exact ⟨slotPool, prefill, hpool, hprefill, hbind, rfl⟩

theorem admitRequest_keeps {I : VeloEngine R μ → Prop} (halloc : Eff.Keeps I (VeloEngine.allocateSlot "No free slots"))
    (hprefill : Eff.Keeps I (VeloEngine.prefill req.prompt)) :
    Eff.Keeps (fun m : Machine R μ δ τ => I m.engine) (admitRequest req) := by
  have engine {α} {x : Eff (VeloEngine R μ) EngineError α} (hx : Eff.Keeps I x) :
      Eff.Keeps (fun m : Machine R μ δ τ => I m.engine) (Machine.onEngine x) :=
    .zoom hx (fun _ => id) fun _ _ _ => id
  have models {α} (x : Eff (Models δ τ) SpeculativeError α) :
      Eff.Keeps (fun m : Machine R μ δ τ => I m.engine) (Machine.onModels x) :=
    .zoom (J := fun _ => True) (fun _ _ => trivial) (fun _ _ => trivial) fun _ _ h _ => h
  exact .bind (engine halloc) fun _ => .bind (engine hprefill) fun _ => .bind (models _) fun _ => .bind .get fun _ => .pure _

theorem Admitted.slotPool (h : Admitted req m activeReq m' pool out) : m'.engine.slotPool = pool := by
  have hkeep := VeloEngine.stable_slotPool.prefill req.prompt { m.engine with slotPool := pool } rfl
  rwa [h.prefill] at hkeep

theorem Admitted.freeSlots (h : Admitted req m activeReq m' pool out) :
    m.engine.slotPool.freeSlots = activeReq.slotId :: m'.engine.slotPool.freeSlots ∧
      m'.engine.slotPool.maxSlots = m.engine.slotPool.maxSlots := by
  rw [h.slotPool]
  exact SlotPool.alloc_eq_some h.alloc

-- The action is an admission that gets as far as taking a slot.
def Takes (s : VeloScheduler R μ δ τ) (a : Action) : Prop :=
  a.isWork = true ∧ s.phase.isAdmission = true ∧ s.active.length < s.machine.engine.slotPool.capacity

instance : Decidable (Takes s a) :=
  inferInstanceAs (Decidable (_ ∧ _ ∧ _))

-- If the action admits a request, it does not fail.
def Admits (s : VeloScheduler R μ δ τ) (a : Action) : Prop :=
  Takes s a → ∀ req ∈ s.pending.head?, (admitRequest req s.machine).1.toBool = true

instance : Decidable (Admits s a) :=
  inferInstanceAs (Decidable (_ → _))

theorem Partition.admitNext (h : Partition s) (hphase : s.phase = .admission) (ha : Admits s .work) : Partition s.admitNext := by
  unfold VeloScheduler.admitNext
  split
  case isFalse => exact h
  case isTrue hlt =>
    cases hp : s.pending
    case nil => exact h
    case cons req rest =>
      have hok := ha ⟨rfl, by rw [hphase]; rfl, hlt⟩ req (by rw [hp]; rfl)
      obtain ⟨activeReq, m, hadmitted⟩ : ∃ activeReq m, admitRequest req s.machine = (.ok activeReq, m) := by
        match hadmitted : admitRequest req s.machine with
        | (.ok activeReq, m) => exact ⟨activeReq, m, rfl⟩
        | (.error _, _)      => rw [hadmitted] at hok; contradiction
      have ⟨pool, out, hadm⟩ := admitRequest_eq_ok hadmitted
      have ⟨hfree, hmax⟩ := hadm.freeSlots
      simp only [hadmitted]
      rw [Partition, slots] at h ⊢
      refine (Perm.map _ ?_).trans (hmax ▸ h)
      rw [map_append, hfree, ← append_assoc, cons_append]
      exact perm_append_singleton ..

theorem Partition.work (h : Partition s) (ha : Admits s .work) (hp : s.phase ≠ .panicked) : Partition s.work := by
  unfold VeloScheduler.work
  split
  case h_1 => unfold pollCommand; split <;> exact h
  case h_2 => unfold pollRequest; split <;> exact h
  case h_3 hphase => exact h.admitNext hphase ha
  case h_4 =>
    unfold await
    split
    case isTrue =>
      split
      case h_1 => exact h
      case h_2 => split <;> exact h
    case isFalse => split <;> exact h
  case h_5 =>
    have ⟨models, hq, _⟩ := callModels_frame (s := s)
    have hmodels : Partition { s with machine := { s.machine with models } } := h
    exact hmodels.quiet hq
  case h_6 => exact h.quiet (commit_quiet _ _).left
  case h_7 => exact h.quiet (send_quiet _ _ _).left
  case h_8 => exact h.quiet (correct_quiet _ _).left
  case h_9 => exact h.cleanup _
  case h_10 => exact h
  case h_11 hphase => exact absurd hphase hp

theorem Partition.next (h : Partition s) (ha : Admits s a) (hp : s.phase ≠ .panicked) : Partition (s.next a) := by
  cases a
  case work => exact h.work ha hp
  case prefetch => rw [VeloScheduler.next, VeloScheduler.prefetch]; split <;> exact h
  all_goals exact h

-- As long as no admission fails, no slot is lost. A panic takes the loop with its active requests.
theorem partition_of_admits {n : Nat} (hn : n ≤ 2 ^ 32) (hpool : m.engine.slotPool = .new n)
    (h : Run Admits (start m) s) (hp : s.phase ≠ .panicked) : Partition s := by
  refine (h.not_panicked hp).invariant ?_ fun t a ht _ ha => ht.next ha.left ha.right
  have hfree : (start m).slots = (SlotPool.new n).freeSlots := by
    simp [slots, start, hpool]
  rw [Partition, hfree, SlotPool.new_map_toNat hn]
  simp [start, hpool, SlotPool.new]

-- Two requests on a slot each.
theorem partition_of_admits_two : ∃ e : VeloEngine CpuMemoryRuntime Empty, VeloEngine.new ⟨2, ⟨1, 4, 8, 2⟩⟩ = .ok e ∧
    let s : VeloScheduler CpuMemoryRuntime Empty (Guesser List.sum) (Oracle List.sum) :=
      ([.submit [1, 2] 3, .submit [3] 1, .work, .work, .work, .work, .work, .work, .work] : List Action).foldl next
        (start ⟨e, ⟨⟨⟩, ⟨0⟩⟩⟩)
    s.active.map (·.slotId) = [0, 1] ∧ Partition s := by
  refine ⟨_, rfl, by decide +kernel,
    partition_of_admits (n := 2) (by decide) rfl (Traced.run _ (by decide +kernel)) fun hp => ?_⟩
  have halive := congrArg Phase.isPanicked hp
  revert halive
  decide +kernel

-- The prompt needs two pages, and the slot of the failed admission is lost.
theorem exists_not_partition : ∃ e : VeloEngine CpuMemoryRuntime Empty, VeloEngine.new ⟨2, ⟨1, 4, 1, 1⟩⟩ = .ok e ∧
    ∃ s, Run (fun _ _ => True) (start ⟨e, ⟨(⟨⟩ : Guesser List.sum), (⟨0⟩ : Oracle List.sum)⟩⟩) s ∧
      s.phase = .commands ∧ s.active = [] ∧ s.machine.engine.freeSlots = [] ∧ ¬ Partition s := by
  refine ⟨_, rfl, _, Traced.run [.submit [1, 2, 3, 4, 5] 1, .work, .work, .work, .work, .work, .submit [1] 1, .work]
    (by decide +kernel), rfl, rfl, rfl, ?_⟩
  unfold Partition
  decide +kernel

end VeloScheduler
