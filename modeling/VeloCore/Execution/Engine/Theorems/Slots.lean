import Mathlib
import VeloCore.Execution.Engine.Theorems.Phases
import VeloCore.Execution.Engine.Theorems.Rounds
import VeloCore.Execution.Engine.Theorems.Stable
import VeloCore.Objects.Speculative.Theorems.Batch

open List Relation

namespace VeloEngine

variable {R μ : Type} [MemoryRuntime R] {e e' : VeloEngine R μ}

def freeSlots (e : VeloEngine R μ) : List SlotId :=
  e.slotPool.freeSlots

-- The operations on the memory leave the slots alone.
theorem stable_slotPool {p : SlotPool} : Stable (R := R) (μ := μ) (·.slotPool = p) :=
  .of_frame fun _ _ _ => id

section Finish

variable {req : ActiveRequest μ} {reqs : List (ActiveRequest μ)}

theorem finish_slots (h : req.slotId.toNat < e.slotPool.maxSlots) :
    (finish req e).2.freeSlots = e.freeSlots ++ [req.slotId] ∧
      (finish req e).2.slotPool.maxSlots = e.slotPool.maxSlots := by
  have ⟨pool, hr, hf, hm⟩ := SlotPool.release_of_lt h
  have hrel : releaseSlot req.slotId e = (.ok (), { e with slotPool := pool }) := by simp [releaseSlot, hr]
  have hpool : (finish req e).2.slotPool = pool := by
    rw [finish, Eff.bind_ok hrel]
    exact Eff.Keeps.bind (I := fun e : VeloEngine R μ => e.slotPool = pool) (stable_slotPool.cacheSequenceIf id)
      (fun _ => .bind .get fun _ => .pure _) _ rfl
  rw [freeSlots, hpool]
  exact ⟨hf, hm⟩

-- Every request but the last one is saved.
def OnlyLastFails : List (ActiveRequest μ) → VeloEngine R μ → Prop
  | [], _          => True
  | req :: reqs, e => reqs = [] ∨ (∃ out, (finish req e).1 = .ok out) ∧ OnlyLastFails reqs (finish req e).2

theorem wrapUp_slots (h : ∀ req ∈ reqs, req.slotId.toNat < e.slotPool.maxSlots) : ∃ k ≤ reqs.length,
    (wrapUp reqs e).2.freeSlots = e.freeSlots ++ (reqs.take k).map (·.slotId) ∧
      (k = reqs.length ↔ OnlyLastFails reqs e) := by
  induction reqs generalizing e
  case nil => exact ⟨0, le_rfl, by simp [wrapUp, Eff.pure_apply], by simp [OnlyLastFails]⟩
  case cons req reqs hi =>
    have ⟨hf, hm⟩ := finish_slots (h req mem_cons_self)
    match hfin : finish req e with
    | (.error error, e₁) =>
      rw [hfin] at hf
      refine ⟨1, by simp, ?_, ?_⟩
      case refine_1 => rw [wrapUp, Eff.bind_error hfin, hf]; rfl
      case refine_2 => simp [OnlyLastFails, hfin]
    | (.ok out, e₁) =>
      rw [hfin] at hf hm
      have ⟨k, hk, hfree, hall⟩ := hi (e := e₁) fun r hr => hm ▸ h r (mem_cons_of_mem _ hr)
      refine ⟨k + 1, by simpa using hk, ?_, ?_⟩
      case refine_1 =>
        rw [wrapUp, Eff.bind_ok hfin, Eff.bind_pure_snd, hfree, hf]
        simp
      case refine_2 =>
        simp [OnlyLastFails, hfin, hall]
        rintro rfl
        trivial

end Finish

section Prepare

variable [CfgMatcher μ]

theorem prepare_of_full (req : BatchRequest) (h : e.freeSlots = []) : ∃ error, prepare req e = (.error error, e) := by
  have halloc : e.slotPool.alloc = (none, e.slotPool) := SlotPool.alloc_nil h
  refine ⟨_, Eff.bind_error (e := .err (.speculative (.model "No free slots available"))) ?_⟩
  simp [allocateSlot, halloc]

theorem prepare_slots (req : BatchRequest) (h : e.freeSlots = slot :: rest) :
    (prepare req e).2.freeSlots = rest ∧ (prepare req e).2.slotPool.maxSlots = e.slotPool.maxSlots ∧
      ∀ active, (prepare req e).1 = .ok active → active.slotId = slot := by
  have ⟨pool, halloc, hf, hm⟩ := SlotPool.alloc_cons h
  have hpool : (prepare req e).2.slotPool = pool := by
    rw [prepare, Eff.bind_ok (allocateSlot_ok halloc)]
    refine Eff.Keeps.bind (I := fun e : VeloEngine R μ => e.slotPool = pool) (stable_slotPool.prefill _) (fun prefill => ?_) _ rfl
    split
    case h_1 => exact .throw _
    case h_2 => exact .bind (stable_slotPool.bindSlot _ _) fun _ => .bind .get fun _ => .pure _
  rw [freeSlots, hpool]
  refine ⟨hf, hm, fun active ha => ?_⟩
  have ⟨_, _, _, halloc', _⟩ := (prepare_eq_ok (Prod.ext ha rfl)).steps
  rw [halloc] at halloc'
  exact (Option.some.inj (Prod.ext_iff.mp halloc').left).symm

-- A preparation takes slots, and when it succeeds, the requests have them.
theorem prepareAll_slots (reqs : List BatchRequest) (e : VeloEngine R μ) : ∃ taken, e.freeSlots = taken ++ (prepareAll reqs e).2.freeSlots ∧
    (prepareAll reqs e).2.slotPool.maxSlots = e.slotPool.maxSlots ∧
    (taken = [] ↔ reqs = [] ∨ e.freeSlots = []) ∧
    ∀ active, (prepareAll reqs e).1 = .ok active → active.map (·.slotId) = taken := by
  induction reqs generalizing e
  case nil => exact ⟨[], rfl, rfl, by simp, by rintro _ ⟨⟩; rfl⟩
  case cons req reqs hi =>
    cases hfree : e.freeSlots
    case nil =>
      have ⟨error, hp⟩ := prepare_of_full req hfree
      have hall : prepareAll (req :: reqs) e = (.error error, e) := Eff.bind_error hp
      exact ⟨[], by simp [hall, hfree], by simp [hall], by simp, by simp [hall]⟩
    case cons slot rest =>
      have ⟨hf, hm, hslot⟩ := prepare_slots req hfree
      match hp : prepare req e with
      | (.error error, e₁) =>
        have hall : prepareAll (req :: reqs) e = (.error error, e₁) := Eff.bind_error hp
        rw [hp] at hf hm
        exact ⟨[slot], by simp [hall, hf], by rw [hall, hm], by simp, by simp [hall]⟩
      | (.ok active, e₁) =>
        rw [hp] at hf hm hslot
        have ⟨taken, htaken, hm', _, hok⟩ := hi e₁
        rw [hf] at htaken
        have hall : (prepareAll (req :: reqs) e).2 = (prepareAll reqs e₁).2 := by
          rw [prepareAll, Eff.bind_ok hp, Eff.bind_pure_snd]
        refine ⟨slot :: taken, by rw [hall, cons_append, ← htaken], by rw [hall, hm', hm], by simp, fun actives ha => ?_⟩
        have ⟨_, rest', _, hp', hr, he⟩ := prepareAll_cons_eq_ok (Prod.ext ha rfl)
        cases hp.symm.trans hp'
        rw [he, map_cons, hslot _ rfl, hok rest' (by rw [hr])]

-- No two requests of a batch have the same slot.
theorem slotId_nodup {reqs : List BatchRequest} {actives : List (ActiveRequest μ)} (h : e.freeSlots.Nodup)
    (hp : prepareAll reqs e = (.ok actives, e')) : (actives.map (·.slotId)).Nodup := by
  have ⟨taken, hfree, _, _, hok⟩ := prepareAll_slots reqs e
  rw [hfree] at h
  rw [hok actives (by rw [hp])]
  exact (nodup_append.mp h).left

end Prepare
end VeloEngine

namespace Machine

open VeloEngine

variable {R μ δ τ : Type} [MemoryRuntime R] [CfgMatcher μ] [DraftModel μ δ] [TargetModel μ τ]
  (fuel : Nat) (reqs : List BatchRequest) (m : Machine R μ δ τ)

theorem decode_engine : (decode fuel reqs m).2.engine = (prepareAll reqs m.engine).2 := by
  have models {α} (e : VeloEngine R μ) (x : Eff (Models δ τ) _ α) :
      Eff.Keeps (fun m : Machine R μ δ τ => m.engine = e) (onModels x) :=
    .zoom (J := fun _ => True) (fun _ _ => trivial) (fun _ _ => trivial) fun _ _ he _ => he
  rw [decode, Eff.bind_apply]
  split
  case h_1 active m₁ hp =>
    obtain ⟨hp, _⟩ := onEngine_eq_ok hp
    rw [hp]
    exact Eff.Keeps.bind (models _ _) (fun _ => .bind .get fun _ => models _ _) m₁ rfl
  case h_2 hp =>
    have he := Prod.ext_iff.mp hp
    rw [← he.right, onEngine, Eff.zoom_snd]

theorem decode_slots : ∃ taken, m.engine.freeSlots = taken ++ (decode fuel reqs m).2.engine.freeSlots ∧
    (decode fuel reqs m).2.engine.slotPool.maxSlots = m.engine.slotPool.maxSlots ∧
    (taken = [] ↔ reqs = [] ∨ m.engine.freeSlots = []) ∧
    ∀ active, (decode fuel reqs m).1 = .ok active → active.map (·.slotId) = taken := by
  have ⟨taken, hfree, hm, hnil, hok⟩ := prepareAll_slots reqs m.engine
  rw [decode_engine]
  refine ⟨taken, hfree, hm, hnil, fun active ha => ?_⟩
  have ⟨active₀, _, hp, _, hl⟩ := decode_eq_ok (Prod.ext ha rfl)
  have hfixed := congrArg (map Prod.fst) (rounds_fixed hl)
  rw [List.map_map, List.map_map] at hfixed
  exact hfixed.trans (hok active₀ (by rw [hp]))

-- The slots of the requests come from the pool.
theorem decode_slotId_lt (h : decode fuel reqs m = (.ok active, m₁)) :
    ∀ req ∈ active, req.slotId.toNat < m₁.engine.slotPool.maxSlots := by
  intro req hreq
  have ⟨taken, hfree, hm, _, hok⟩ := decode_slots fuel reqs m
  rw [h] at hfree hm hok
  rw [hm]
  apply m.engine.slotPool.free_lt
  have hmem : req.slotId ∈ taken := hok active rfl ▸ mem_map_of_mem hreq
  exact (congrArg (req.slotId ∈ ·) hfree).mpr (mem_append_left _ hmem)

-- No exit is taken that leaves a slot behind: there is nothing to prepare, or the first request gets
-- no slot, or all steps succeed, except that the last sequence may fail to be saved.
def SlotsReturned : Prop :=
  reqs = [] ∨ m.engine.freeSlots = [] ∨
    ∃ active m', decode fuel reqs m = (.ok active, m') ∧ OnlyLastFails active m'.engine

-- The call gives back the first `k` of the slots that it took.
theorem generateBatch_slots : ∃ free taken k, k ≤ taken.length ∧ m.engine.freeSlots = taken ++ free ∧
    (generateBatch fuel reqs m).2.engine.freeSlots = free ++ taken.take k ∧
    (k = taken.length ↔ SlotsReturned fuel reqs m) := by
  have ⟨taken, hfree, hm, hnil, hok⟩ := decode_slots fuel reqs m
  match hd : decode fuel reqs m with
  | (.error error, m₁) =>
    rw [hd] at hfree
    refine ⟨_, taken, 0, Nat.zero_le _, hfree, ?_, ?_⟩
    case refine_1 => rw [generateBatch, Eff.bind_error hd, take_zero, append_nil]
    case refine_2 =>
      rw [SlotsReturned, eq_comm, length_eq_zero_iff, hnil]
      simp [hd]
  | (.ok active, m₁) =>
    rw [hd] at hfree hm hok
    have hactive := hok active rfl
    have ⟨k, hk, hw, hall⟩ := wrapUp_slots (decode_slotId_lt fuel reqs m hd)
    refine ⟨_, taken, k, ?_, hfree, ?_, ?_⟩
    case refine_1 => simpa [← hactive] using hk
    case refine_2 =>
      rw [generateBatch, Eff.bind_ok hd, onEngine, Eff.zoom_snd, ← hactive, ← map_take]
      exact hw
    case refine_3 =>
      rw [← hactive, length_map, hall]
      refine ⟨fun hlast => .inr (.inr ⟨active, m₁, hd, hlast⟩), fun hret => ?_⟩
      rcases (or_assoc.mpr hret).imp_left hnil.mpr with hnone | ⟨_, _, hd', hlast⟩
      case inl =>
        rw [hnone, map_eq_nil_iff] at hactive
        rw [hactive]
        trivial
      case inr => cases hd.symm.trans hd'; exact hlast

theorem take_returned_iff {free taken : List SlotId} (h : k ≤ taken.length) :
    (free ++ taken.take k ~ taken ++ free ↔ k = taken.length) ∧
      ((taken ++ free).Nodup → ((∀ slot, slot ∈ free ++ taken.take k ↔ slot ∈ taken ++ free) ↔ k = taken.length)) := by
  have hperm : free ++ taken.take k ~ taken ++ free ↔ k = taken.length := by
    refine ⟨fun hp => ?_, fun hk => ?_⟩
    case refine_1 =>
      have hl := hp.length_eq
      simp at hl
      omega
    case refine_2 =>
      rw [hk, take_length]
      exact perm_append_comm
  refine ⟨hperm, fun hn => ?_⟩
  rw [← hperm, perm_ext_iff_of_nodup ?_ hn]
  have hn' : (free ++ taken).Nodup := perm_append_comm.nodup_iff.mp hn
  exact hn'.sublist ((Sublist.refl _).append (take_sublist ..))

theorem generateBatch_slots_iff :
    ((generateBatch fuel reqs m).2.engine.freeSlots ~ m.engine.freeSlots ↔ SlotsReturned fuel reqs m) ∧
      (m.engine.freeSlots.Nodup →
        ((∀ slot, slot ∈ (generateBatch fuel reqs m).2.engine.freeSlots ↔ slot ∈ m.engine.freeSlots) ↔
          SlotsReturned fuel reqs m)) := by
  have ⟨free, taken, k, hk, hfree, hfree', hiff⟩ := generateBatch_slots fuel reqs m
  rw [hfree, hfree', ← hiff]
  exact take_returned_iff hk

theorem generateBatch_nodup (h : m.engine.freeSlots.Nodup) : (generateBatch fuel reqs m).2.engine.freeSlots.Nodup := by
  have ⟨free, taken, k, hk, hfree, hfree', _⟩ := generateBatch_slots fuel reqs m
  rw [hfree] at h
  rw [hfree']
  exact (perm_append_comm.nodup_iff.mp h).sublist ((Sublist.refl _).append (take_sublist ..))

theorem generate_nodup (prompt : List TokenId) (n : Nat) (h : m.engine.freeSlots.Nodup) :
    (generate fuel prompt n m).2.engine.freeSlots.Nodup :=
  Eff.Keeps.bind (I := fun m : Machine R μ δ τ => m.engine.freeSlots.Nodup)
    (fun m hm => generateBatch_nodup fuel _ m hm) (fun _ => .index _ _) m h

-- There are no pages for an empty prompt, and the slot that was taken for it is lost.
theorem not_returned_empty_prompt : ∃ e : VeloEngine CpuMemoryRuntime Empty, VeloEngine.new ⟨2, ⟨1, 4, 8, 1⟩⟩ = .ok e ∧
    (generateBatch 1 [⟨[], 1, none⟩] ⟨e, ⟨(⟨⟩ : Guesser List.sum), (⟨0⟩ : Oracle List.sum)⟩⟩).1 =
      .error (.err (.speculative (.model "Failed to resolve pages for prefill"))) ∧ 0 ∈ e.freeSlots ∧
    0 ∉ (generateBatch 1 [⟨[], 1, none⟩]
      ⟨e, ⟨(⟨⟩ : Guesser List.sum), (⟨0⟩ : Oracle List.sum)⟩⟩).2.engine.freeSlots := by
  refine ⟨_, rfl, ?_, ?_, ?_⟩
  all_goals decide +kernel

end Machine

namespace VeloEngine

variable {R μ : Type} [MemoryRuntime R] [CfgMatcher μ] {e e' : VeloEngine R μ}

-- The program does not give back slots that it has not taken.
def Op.OwnSlots : Op μ → Prop
  | releaseSlot _ => False
  | _ => True

theorem op_nodup {op : Op μ} (h : op.OwnSlots) : Eff.Keeps (·.freeSlots.Nodup) (op.run : Eff (VeloEngine R μ) _ _) := by
  intro e he
  have steady {α} {x : Eff (VeloEngine R μ) EngineError α} (hx : Eff.Keeps (·.slotPool = e.slotPool) x) :
      (x e).2.freeSlots.Nodup := by
    rw [freeSlots, hx e rfl]
    exact he
  cases op
  case prefill prompt => exact steady (.bind (stable_slotPool.prefill prompt) fun _ => .pure _)
  case lookup tokens  => exact steady (.bind (stable_slotPool.lookup tokens) fun _ => .pure _)
  case generateBatch fuel reqs models =>
    simp only [Op.run, Eff.bind_pure_snd]
    exact Machine.generateBatch_nodup fuel reqs ⟨e, models⟩ he
  case generate fuel prompt n models =>
    simp only [Op.run, Eff.bind_pure_snd]
    exact Machine.generate_nodup fuel ⟨e, models⟩ prompt n he
  case allocateSlot =>
    cases hfree : e.slotPool.freeSlots
    case nil =>
      have hnone : e.slotPool.alloc = (none, e.slotPool) := SlotPool.alloc_nil hfree
      simpa [Op.run, Eff.modify, hnone] using he
    case cons slot rest =>
      have ⟨pool, halloc, hrest, _⟩ := SlotPool.alloc_cons hfree
      have he : (slot :: rest).Nodup := hfree ▸ he
      simpa [Op.run, Eff.modify, halloc, freeSlots, hrest] using he.of_cons
  case releaseSlot => exact h.elim
  all_goals exact he

theorem steps_nodup (h : ReflTransGen (Op.Step Op.OwnSlots) e e') (he : e.freeSlots.Nodup) : e'.freeSlots.Nodup := by
  induction h
  case refl => exact he
  case tail _ h hi =>
    have ⟨_, ho, _, he'⟩ := h
    exact he' ▸ op_nodup ho _ hi

end VeloEngine
