import VeloCore.Execution.Engine.Theorems.Atomic
import VeloCore.Execution.Scheduler.Theorems.Slots

open List

namespace VeloScheduler

variable {R μ δ τ : Type} [MemoryRuntime R] [DraftModel μ δ] [TargetModel μ τ] {s t : VeloScheduler R μ δ τ}

section Keeps

variable {I : VeloEngine R μ → Prop} (hpool : ∀ e p f, I e → I { e with slotPool := p, parserFactory := f })
  (hprefill : ∀ prompt, Eff.Keeps I (VeloEngine.prefill prompt))

include hpool hprefill

-- The worker does nothing to the engine but to admit requests and to give their slots back.
theorem next_keeps (h : I s.machine.engine) (a : Action) : I (s.next a).machine.engine := by
  have hadmit (req : SchedulerRequest) : I (admitRequest req s.machine).2.engine :=
    admitRequest_keeps (VeloEngine.Stable.allocateSlot hpool _) (hprefill _) s.machine h
  have hcleanup (i : Nat) : I (s.cleanup i).machine.engine := by
    unfold cleanup
    split
    case h_1 => exact h
    case h_2 =>
      dsimp only
      split
      case isFalse => exact h
      case isTrue =>
        split
        case h_1 => exact h
        case h_2 => split <;> exact hpool _ _ _ h
  cases a
  case prefetch => rw [next, prefetch]; split <;> exact h
  case work =>
    rw [next, work]
    split
    case h_1 => unfold pollCommand; split <;> exact h
    case h_2 => unfold pollRequest; split <;> exact h
    case h_3 =>
      unfold admitNext
      split
      case isFalse => exact h
      case isTrue =>
        cases s.pending
        case nil => exact h
        case cons req rest =>
          have hm := hadmit req
          dsimp only
          split
          all_goals
            rename_i heq
            rw [heq] at hm
            exact hm
    case h_4 =>
      unfold await
      split
      case isTrue =>
        split
        case h_1 => exact h
        case h_2 => split <;> exact h
      case isFalse => split <;> exact h
    case h_5 =>
      obtain ⟨models, hq, _⟩ := callModels_frame (s := s)
      rw [hq.machine]
      exact h
    case h_6 => rw [(commit_quiet _ _).left.machine]; exact h
    case h_7 => rw [(send_quiet _ _ _).left.machine]; exact h
    case h_8 => rw [(correct_quiet _ _).left.machine]; exact h
    case h_9 => exact hcleanup _
    case h_10 => exact h
    case h_11 => exact h
  all_goals exact h

theorem run_keeps {P : VeloScheduler R μ δ τ → Action → Prop} (hrun : Run P s t) (h : I s.machine.engine) :
    I t.machine.engine :=
  hrun.invariant (I := fun t => I t.machine.engine) h fun _ a ht _ _ => next_keeps hpool hprefill ht a

end Keeps

theorem work_admits (htakes : Takes s .work) (hreq : s.pending.head? = some req)
    (hadm : admitRequest req s.machine = (.ok activeReq, m)) : (s.next .work).machine = m := by
  have ⟨_, hphase, hlt⟩ := htakes
  have hphase : s.phase = .admission := by
    cases hp : s.phase <;> simp [hp, Phase.isAdmission] at hphase
    rfl
  have ⟨rest, hpending⟩ : ∃ rest, s.pending = req :: rest := head?_eq_some_iff.mp hreq
  simp only [next, work, hphase, admitNext, if_pos hlt, hpending, hadm]

section Cpu

variable {μ : Type} [CfgMatcher μ] {e : VeloEngine CpuMemoryRuntime μ}

-- A prefill that returns adds the memory of its prompt and touches no other, and one that fails changes nothing. So the
-- pages of an admitted request are not freed or mapped anew for the rest of a run.
theorem prefill_frame (hr : VeloEngine.Reachable e) (hcap : e.prefixCache.capacityTokens = none) :
    (∀ prompt, (∃ out e', VeloEngine.prefill prompt e = (.ok out, e') ∧ VeloEngine.Extended prompt e e') ∨
      ∃ error e', VeloEngine.prefill prompt e = (.error (.err error), e') ∧ VeloEngine.Untouched e e') ∧
    ∀ {δ τ : Type} [DraftModel μ δ] [TargetModel μ τ] (models : Models δ τ) (s : VeloScheduler CpuMemoryRuntime μ δ τ)
      (req : SchedulerRequest) (activeReq : ActiveRequestInternal) (m : Machine CpuMemoryRuntime μ δ τ),
      Run (fun _ _ => True) (start ⟨e, models⟩) s → Takes s .work → s.pending.head? = some req →
      admitRequest req s.machine = (.ok activeReq, m) →
      ∃ pool out, Admitted req s.machine activeReq m pool out ∧
        ∀ t, Run (fun _ _ => True) (s.next .work) t →
          ∀ span, out.insertedPages = some span ∨ out.cachedPages = some span → t.machine.engine.Maps span := by
  constructor
  case left =>
    intro prompt
    rcases VeloEngine.prefill_atomic ⟨hr.coherent, hcap⟩ prompt with ⟨out, e', hp, x, _⟩ | h
    case inl => exact .inl ⟨out, e', hp, x⟩
    case inr => exact .inr h
  case right =>
    intro δ τ _ _ models s req activeReq m hs htakes hreq hadm
    have keeps {s t : VeloScheduler CpuMemoryRuntime μ δ τ} {spans} (h : Run (fun _ _ => True) s t) :=
      run_keeps (I := VeloEngine.Holds spans) (fun _ _ _ => VeloEngine.Holds.withPool) (VeloEngine.prefill_holds spans) h
    have h₀ : VeloEngine.Holds (fun _ => False) s.machine.engine := keeps hs ⟨⟨hr.coherent, hcap⟩, nofun⟩
    have ⟨pool, out, hadmitted⟩ := admitRequest_eq_ok hadm
    refine ⟨pool, out, hadmitted, fun t ht span hspan => ?_⟩
    have hpool : VeloEngine.Holds (fun _ => False) { s.machine.engine with slotPool := pool } := h₀.withPool
    have h₁ := VeloEngine.prefill_holds (fun _ => False) req.prompt _ hpool
    have hmaps : m.engine.Maps span := by
      rcases VeloEngine.prefill_atomic hpool.toUnlimited req.prompt with
        ⟨_, _, hp, _, hpages⟩ | ⟨_, _, hp, _⟩ <;> cases hadmitted.prefill.symm.trans hp
      exact hpages span hspan
    rw [hadmitted.prefill] at h₁
    have h₂ : VeloEngine.Holds (· = span) (s.next .work).machine.engine := by
      rw [work_admits htakes hreq hadm]
      exact ⟨h₁.toUnlimited, fun _ heq => heq ▸ hmaps⟩
    exact (keeps ht h₂).maps span rfl

-- A prompt that the cache has a part of, one that needs more pages than there are, and the run of a request for the first.
theorem prefill_frame_three : ∃ e : VeloEngine CpuMemoryRuntime Empty, VeloEngine.new ⟨2, ⟨1, 4, 8, 2⟩⟩ = .ok e ∧
    let e' := (VeloEngine.Op.run (.prefill [1, 2]) e).2
    (∃ out e'', VeloEngine.prefill [1, 2, 3] e' = (.ok out, e'') ∧ VeloEngine.Extended [1, 2, 3] e' e'') ∧
    (∃ error e'', VeloEngine.prefill (replicate 40 7) e' = (.error (.err error), e'') ∧ VeloEngine.Untouched e' e'') ∧
    let s := foldl next (start ⟨e', ⟨(⟨⟩ : Guesser List.sum), (⟨0⟩ : Oracle List.sum)⟩⟩)
      [.submit [1, 2, 3] 2, .work, .work, .work]
    ∃ req activeReq m pool out, s.pending.head? = some req ∧ Admitted req s.machine activeReq m pool out ∧
      out.insertedPages.isSome = true ∧ out.cachedPages.isSome = true ∧
      ∀ span, out.insertedPages = some span ∨ out.cachedPages = some span →
        (foldl next (s.next .work) (replicate 8 .work)).machine.engine.Maps span := by
  refine ⟨_, rfl, ?_⟩
  intro e'
  have hr : VeloEngine.Reachable e' :=
    .step (VeloEngine.reachable_new ⟨2, ⟨1, 4, 8, 2⟩⟩ rfl) (.prefill [1, 2]) (by decide +kernel)
  have hframe := prefill_frame hr (by decide +kernel)
  refine ⟨?_, ?_, ?_⟩
  case refine_1 =>
    refine (hframe.left [1, 2, 3]).resolve_right ?_
    rintro ⟨_, _, herr, _⟩
    have hok : (VeloEngine.prefill [1, 2, 3] e').1.toBool = true := by decide +kernel
    rw [herr] at hok
    exact Bool.false_ne_true hok
  case refine_2 =>
    refine (hframe.left (replicate 40 7)).resolve_left ?_
    rintro ⟨_, _, hok, _⟩
    have herr : (VeloEngine.prefill (replicate 40 7) e').1.toBool = false := by decide +kernel
    rw [hok] at herr
    exact Bool.false_ne_true herr.symm
  case refine_3 =>
    intro s
    have hs : Run (fun _ _ => True) (start ⟨e', ⟨(⟨⟩ : Guesser List.sum), (⟨0⟩ : Oracle List.sum)⟩⟩) s :=
      Traced.run _ (by decide +kernel)
    have ht : Run (fun _ _ => True) (s.next .work) (foldl next (s.next .work) (replicate 8 .work)) :=
      Traced.run _ (by decide +kernel)
    have hadmits : (s.pending.head?.any fun req => (admitRequest req s.machine).1.toBool &&
        (VeloEngine.prefill req.prompt { s.machine.engine with slotPool := s.machine.engine.slotPool.alloc.2 }).1.toOption.any
          fun out => out.insertedPages.isSome && out.cachedPages.isSome) = true := by decide +kernel
    have htakes : Takes s .work := by decide +kernel
    clear_value s
    obtain ⟨req, hreq, hadm⟩ := (Option.any_eq_true _ _).mp hadmits
    obtain ⟨hok, hpages⟩ := Bool.and_eq_true_iff.mp hadm
    match h : admitRequest req s.machine with
    | (.error _, _) => simp [h, Except.toBool] at hok
    | (.ok activeReq, m) =>
      have ⟨pool, out, hadmitted, hmaps⟩ := hframe.right _ s req activeReq m hs htakes hreq h
      rw [hadmitted.alloc, hadmitted.prefill] at hpages
      have ⟨hinserted, hcached⟩ := Bool.and_eq_true_iff.mp hpages
      exact ⟨req, activeReq, m, pool, out, hreq, hadmitted, hinserted, hcached, hmaps _ ht⟩

end Cpu
end VeloScheduler
