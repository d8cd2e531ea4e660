import VeloCore.Execution.Engine.Theorems.Bindings
import VeloCore.Execution.Engine.Theorems.Constrained
import VeloCore.Execution.Scheduler.Theorems.Slots

open List

abbrev RecordedScheduler (R μ β γ : Type) :=
  VeloScheduler R μ (GreedyDraftModel μ (Recorder β)) (GreedyTargetModel μ (Recorder γ))

namespace VeloScheduler

section History

variable {R μ δ τ : Type} [MemoryRuntime R] [DraftModel μ δ] [TargetModel μ τ]

-- The lookup that the admission of a request gets from the prefix cache.
def lookupOf (prompt : List TokenId) (e : VeloEngine R μ) : Option CacheLookup :=
  let x : Eff (VeloEngine R μ) EngineError EnginePrefillOutput := do
    let _ ← VeloEngine.allocateSlot "No free slots"
    VeloEngine.prefill prompt
  (x e).1.toOption.map (·.cachedPrefix)

-- The client whose request an action admits, with this lookup.
def admission (s : VeloScheduler R μ δ τ) (a : Action) : Option (Nat × CacheLookup) :=
  if Takes s a then
    s.pending.head?.bind fun req => (lookupOf req.prompt s.machine.engine).map (req.client, ·)
  else
    none

-- The admissions of a run, the latest one first.
def admissions (s : VeloScheduler R μ δ τ) (log : List (Nat × CacheLookup)) :
    List Action → List (Nat × CacheLookup)
  | []      => log
  | a :: as => admissions (s.next a) ((s.admission a).toList ++ log) as

-- If the action admits a request, no other one is active.
def AdmitsAlone (s : VeloScheduler R μ δ τ) (a : Action) : Prop :=
  Takes s a → s.pending ≠ [] → s.active = []

instance (s : VeloScheduler R μ δ τ) (a : Action) : Decidable (AdmitsAlone s a) :=
  inferInstanceAs (Decidable (_ → _ → _))

end History

variable {R φ μ β γ : Type} {s : RecordedScheduler R μ β γ} {log : List (Nat × CacheLookup)}

-- Whoever is active was admitted last.
def Latest (log : List (Nat × CacheLookup)) (s : RecordedScheduler R μ β γ) : Prop :=
  ∀ owner ∈ s.active.map (·.owner), ∃ cachedPrefix, log.head? = some (owner.1, cachedPrefix) ∧
    s.machine.models.BoundTo owner.2.1 cachedPrefix

namespace Latest

theorem quiet {s' : RecordedScheduler R μ β γ} (h : Latest log s) (hq : Quiet s s') : Latest log s' := by
  rw [Latest, hq.owners, hq.machine]
  exact h

theorem of_nil (h : s.active = []) : Latest log s := by
  simp [Latest, h]

theorem cleanup (h : Latest log s) (i : Nat) : Latest log (s.cleanup i) := by
  have herase : ∀ owner ∈ (s.active.eraseIdx i).map (·.owner), owner ∈ s.active.map (·.owner) :=
    fun _ ho => ((eraseIdx_sublist s.active i).map _).subset ho
  unfold VeloScheduler.cleanup
  split
  case h_1 => exact h
  case h_2 req hreq =>
    dsimp only
    split
    case isFalse => exact h
    case isTrue =>
      split
      case h_1 => exact fun owner ho => h owner (herase owner ho)
      case h_2 => split <;> exact fun owner ho => h owner (herase owner ho)

end Latest

variable [Logit φ] [CfgMatcher μ] [CausalLmBackend φ β] [CausalLmBackend φ γ]

-- In a step, each forward call for an active request is made under its slot and the lookup of its admission.
def StepBound (log : List (Nat × CacheLookup)) (s : RecordedScheduler R μ β γ) : Prop :=
  s.phase.isStep = true → ∀ c ∈ s.machine.models.callsSince s.callModels.machine.models, ∀ req ∈ s.active,
    req.session.context <+: c.context → c.slot = some req.slotId ∧ c.cachedPrefix = log.lookup req.client

theorem callModels_serves (s : RecordedScheduler R μ β γ) :
    s.machine.models.Serves s.callModels.machine.models [] := by
  have ⟨cs, hd, _⟩ := GreedyDraftModel.draftBatch_serves
    (draftRequests s.machine.engine.decoder.draftWindow s.active) s.machine.models.draft
  have hdraft : s.machine.models.Serves { s.machine.models with draft := _ } [] :=
    Models.Serves.refl.draft hd (by simp)
  unfold callModels
  dsimp only
  match hb : DraftModel.draftBatch (draftRequests s.machine.engine.decoder.draftWindow s.active)
      s.machine.models.draft with
  | (.error e, ms, d) => rw [hb] at hdraft; exact hdraft
  | (.ok drafted, ms, d) =>
    rw [hb] at hdraft
    dsimp only
    split
    case isTrue => exact hdraft
    case isFalse =>
      have ⟨ct, ht⟩ := GreedyTargetModel.verifyBatch_serves (verifyRequests s.active drafted)
        s.machine.models.target
      have hall := hdraft.target ht
      split
      case h_1 hv => rw [hv] at hall; exact hall
      case h_2 hv => rw [hv] at hall; exact hall

namespace Latest

theorem pollCommand (h : Latest log s) : Latest log s.pollCommand := by
  unfold VeloScheduler.pollCommand
  split
  case h_1 => exact h
  case h_2 => exact h
  case h_3 target draft rest _ =>
    intro owner ho
    have ⟨cachedPrefix, hhead, hb⟩ := h owner ho
    refine ⟨cachedPrefix, hhead, ?_⟩
    cases draft <;> exact ⟨hb.draftSlot, hb.draftPrefix, hb.targetSlot, hb.targetPrefix⟩

theorem stepBound (h : Latest log s) : StepBound log s := by
  intro _ c hc req hreq _
  have ⟨cachedPrefix, hhead, hb⟩ := h req.owner (mem_map_of_mem hreq)
  have ⟨hslot, hprefix⟩ := hb.of_mem_callsSince (callModels_serves s) hc
  refine ⟨hslot, hprefix.trans ?_⟩
  cases log
  case nil => contradiction
  case cons entry rest =>
    cases hhead
    simp [ActiveRequestInternal.owner]

variable [MemoryRuntime R]

theorem admitNext (h : Latest log s) (hphase : s.phase = .admission) (ha : AdmitsAlone s .work) :
    Latest ((s.admission .work).toList ++ log) s.admitNext := by
  have htakes : Takes s .work ↔ s.active.length < s.machine.engine.slotPool.capacity := by
    simp [Takes, hphase, Action.isWork, Phase.isAdmission]
  unfold VeloScheduler.admitNext admission
  rw [if_congr htakes rfl rfl]
  split
  case isFalse => exact h
  case isTrue hlt =>
    cases hp : s.pending
    case nil => exact h
    case cons req rest =>
      have hnil := ha (htakes.mpr hlt) (by simp [hp])
      dsimp only
      match hadmitted : admitRequest req s.machine with
      | (.error (.err _), _) | (.error .panic, _) | (.error .unfinished, _) => exact of_nil hnil
      | (.ok activeReq, m) =>
        have ⟨pool, out, hadm⟩ := admitRequest_eq_ok hadmitted
        have hlookup : lookupOf req.prompt s.machine.engine = some out.cachedPrefix := by
          unfold lookupOf
          dsimp only
          rw [Eff.bind_ok (VeloEngine.allocateSlot_ok hadm.alloc), hadm.prefill]
          rfl
        have hclient : activeReq.client = req.client := by rw [hadm.request]
        intro owner howner
        have howner : owner = activeReq.owner := by simpa [hnil] using howner
        refine ⟨out.cachedPrefix, ?_, howner ▸ Models.bind_bound hadm.bind⟩
        simp [hlookup, howner, ActiveRequestInternal.owner, hclient]

theorem work (h : Latest log s) (ha : AdmitsAlone s .work) :
    Latest ((s.admission .work).toList ++ log) s.work := by
  by_cases hphase : s.phase = .admission
  case pos =>
    rw [VeloScheduler.work, hphase]
    exact h.admitNext hphase ha
  case neg =>
    have hnone : s.admission .work = none := if_neg fun ht => hphase <| by
      have := ht.right.left
      revert this
      cases s.phase <;> simp [Phase.isAdmission]
    rw [hnone, Option.toList_none, nil_append]
    unfold VeloScheduler.work
    split
    case h_1 => exact h.pollCommand
    case h_2 => unfold pollRequest; split <;> exact h
    case h_3 hadmission => exact absurd hadmission hphase
    case h_4 =>
      unfold await
      split
      case isTrue =>
        split
        case h_1 => exact h
        case h_2 => split <;> exact h
      case isFalse => split <;> exact h
    case h_5 =>
      intro owner ho
      rw [callModels_active.left] at ho
      obtain ⟨cachedPrefix, hhead, hb⟩ := h owner ho
      exact ⟨cachedPrefix, hhead, hb.serves (callModels_serves s)⟩
    case h_6 => exact h.quiet (commit_quiet _ _).left
    case h_7 => exact h.quiet (send_quiet _ _ _).left
    case h_8 => exact h.quiet (correct_quiet _ _).left
    case h_9 => exact h.cleanup _
    case h_10 => exact h
    case h_11 => exact .of_nil rfl

theorem next (h : Latest log s) (ha : AdmitsAlone s a) : Latest ((s.admission a).toList ++ log) (s.next a) := by
  cases a
  case work => exact h.work ha
  all_goals
    rw [admission, if_neg (by simp [Takes, Action.isWork]), Option.toList_none, nil_append]
  case prefetch => rw [VeloScheduler.next, VeloScheduler.prefetch]; split <;> exact h
  all_goals exact h

theorem run (h : Latest log s) (as : List Action) (ht : Traced AdmitsAlone s as) :
    Latest (s.admissions log as) (as.foldl VeloScheduler.next s) := by
  induction as generalizing s log
  case nil => exact h
  case cons a as hi => exact hi (h.next ht.right.left) ht.right.right

end Latest

variable [MemoryRuntime R]

-- In `generate_batch` the forward calls are made under the bindings of their requests just when only the last request
-- of the batch is to get tokens, and in the scheduler as long as the requests are admitted one at a time.
theorem calls_bound :
    (∀ (e e' : VeloEngine R μ) (reqs : List BatchRequest) (active₀ : List (ActiveRequest μ))
      (models models₀ : RecordedModels μ β γ),
      e.freeSlots.Nodup → VeloEngine.prepareAll reqs e = (.ok active₀, e') →
      VeloEngine.bindAll active₀ models = (.ok (), models₀) →
      ((∀ active m, Eff.Heads (VeloEngine.round e'.decoder.draftWindow) active₀ models₀ active m →
        VeloEngine.RoundBound e'.decoder.draftWindow active m) ↔ ∀ req ∈ reqs.dropLast, req.maxNewTokens = 0)) ∧
    ∀ (m : Machine R μ (GreedyDraftModel μ (Recorder β)) (GreedyTargetModel μ (Recorder γ))) (as : List Action),
      Traced AdmitsAlone (start m) as → StepBound ((start m).admissions [] as) (as.foldl next (start m)) := by
  constructor
  case left =>
    intro e e' reqs active₀ models models₀ hn hp hb
    exact VeloEngine.prepared_roundBound_iff hn hp hb
  case right =>
    intro m as ht
    exact (Latest.run (Latest.of_nil rfl) as ht).stepBound

section Instance

open VeloEngine

def oneBackend : StatelessBackend Nat :=
  ⟨fun _ => .ok preferOne, fun _ drafted => .ok (drafted.map fun _ => preferOne)⟩

abbrev StatelessModels :=
  RecordedModels Tape (StatelessBackend Nat) (StatelessBackend Nat)

def recorded : StatelessModels :=
  ⟨⟨⟨oneBackend, none, none, []⟩⟩, ⟨⟨oneBackend, none, none, []⟩⟩⟩

def twoRequests : List BatchRequest :=
  [⟨[1], 1, none⟩, ⟨[2], 1, none⟩]

theorem exists_recorded : ∃ (e e' : VeloEngine CpuMemoryRuntime Tape) (active₀ : List (ActiveRequest Tape))
    (models₀ : StatelessModels),
    new ⟨2, ⟨1, 4, 8, 2⟩⟩ = .ok e ∧ e.freeSlots.Nodup ∧ prepareAll twoRequests e = (.ok active₀, e') ∧
    bindAll active₀ recorded = (.ok (), models₀) ∧ ¬RoundBound e'.decoder.draftWindow active₀ models₀ := by
  obtain ⟨e, he, hn, h⟩ : ∃ e : VeloEngine CpuMemoryRuntime Tape,
      new ⟨2, ⟨1, 4, 8, 2⟩⟩ = .ok e ∧ e.freeSlots.Nodup ∧
      ((prepareAll twoRequests e).1.toOption.bind fun active₀ => (bindAll active₀ recorded).1.toOption.map fun _ =>
        decide (RoundBound (prepareAll twoRequests e).2.decoder.draftWindow active₀ (bindAll active₀ recorded).2)) =
          some false :=
    ⟨_, rfl, by decide +kernel, by decide +kernel⟩
  rcases hp : prepareAll twoRequests e with ⟨_ | active₀, e'⟩
  case error => simp [hp, Except.toOption] at h
  case ok =>
    rw [hp] at h
    rcases hb : (bindAll active₀ recorded : _ × StatelessModels) with ⟨_ | ⟨⟩, models₀⟩
    case error => simp [hb, Except.toOption] at h
    case ok =>
      simp only [hb, Except.toOption, Option.bind_some, Option.map_some, Option.some.injEq] at h
      exact ⟨e, e', active₀, models₀, he, hn, hp, hb, of_decide_eq_false h⟩

theorem calls_bound_two : ∃ (e e' : VeloEngine CpuMemoryRuntime Tape) (active₀ : List (ActiveRequest Tape))
    (models₀ : StatelessModels),
    bindAll active₀ recorded = (.ok (), models₀) ∧
    ((∀ active m, Eff.Heads (VeloEngine.round e'.decoder.draftWindow) active₀ models₀ active m →
      RoundBound e'.decoder.draftWindow active m) ↔ ∀ req ∈ twoRequests.dropLast, req.maxNewTokens = 0) ∧
    let as : List Action := [.submit [1] 1, .work, .work, .work, .work, .work, .work]
    StepBound ((start ⟨e, recorded⟩).admissions [] as) (as.foldl next (start ⟨e, recorded⟩)) := by
  have ⟨e, e', active₀, models₀, he, hn, hp, hb, _⟩ := exists_recorded
  refine ⟨e, e', active₀, models₀, hb, calls_bound.left e e' twoRequests active₀ recorded models₀ hn hp hb,
    calls_bound.right ⟨e, recorded⟩ _ ?_⟩
  cases he
  decide +kernel

-- Both requests are to get a token, and the models stay bound to the second one.
theorem exists_not_roundBound : ∃ (e e' : VeloEngine CpuMemoryRuntime Tape) (active₀ : List (ActiveRequest Tape))
    (models₀ : StatelessModels),
    new ⟨2, ⟨1, 4, 8, 2⟩⟩ = .ok e ∧ prepareAll twoRequests e = (.ok active₀, e') ∧
    bindAll active₀ recorded = (.ok (), models₀) ∧
    ∃ active m, Eff.Heads (VeloEngine.round e'.decoder.draftWindow) active₀ models₀ active m ∧
      ¬RoundBound e'.decoder.draftWindow active m :=
  have ⟨e, e', active₀, models₀, he, _, hp, hb, h⟩ := exists_recorded
  ⟨e, e', active₀, models₀, he, hp, hb, active₀, models₀, .refl, h⟩

end Instance

end VeloScheduler
