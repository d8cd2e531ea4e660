import VeloCore.Execution.Scheduler.Basic

open List

namespace ActiveRequestInternal

-- What a request keeps from its admission on.
def owner (req : ActiveRequestInternal) : Nat × SlotId × Nat :=
  (req.client, req.slotId, req.maxNewTokens)

end ActiveRequestInternal

namespace Client

-- All of a client but the tokens.
def frame (c : Client) : Client :=
  { c with tokens := [] }

end Client

-- The phases in which the worker does not poll.
def Phase.inStep : Phase → Prop
  | .commit .. | .send .. | .correct .. | .cleanup _ | .panicked => True
  | _ => False

namespace VeloScheduler

variable {R μ δ τ : Type} {s s₁ s₂ s₃ : VeloScheduler R μ δ τ} {req : ActiveRequestInternal} {results : StepResults} {i : Nat}

-- The loops that commit and send change the requests' progress and the tokens of the clients.
structure Quiet (s₁ s₂ : VeloScheduler R μ δ τ) : Prop where
  machine   : s₂.machine = s₁.machine
  pool      : s₂.pool = s₁.pool
  loading   : s₂.loading = s₁.loading
  commandRx : s₂.commandRx = s₁.commandRx
  requestRx : s₂.requestRx = s₁.requestRx
  pending   : s₂.pending = s₁.pending
  hungUp    : s₂.hungUp = s₁.hungUp
  switches  : s₂.switches = s₁.switches
  applied   : s₂.applied = s₁.applied
  owners    : s₂.active.map (·.owner) = s₁.active.map (·.owner)
  clients   : s₂.clients.map Client.frame = s₁.clients.map Client.frame

namespace Quiet

theorem refl : Quiet s s :=
  ⟨rfl, rfl, rfl, rfl, rfl, rfl, rfl, rfl, rfl, rfl, rfl⟩

theorem trans (h : Quiet s₁ s₂) (h' : Quiet s₂ s₃) : Quiet s₁ s₃ where
  machine   := h'.machine.trans h.machine
  pool      := h'.pool.trans h.pool
  loading   := h'.loading.trans h.loading
  commandRx := h'.commandRx.trans h.commandRx
  requestRx := h'.requestRx.trans h.requestRx
  pending   := h'.pending.trans h.pending
  hungUp    := h'.hungUp.trans h.hungUp
  switches  := h'.switches.trans h.switches
  applied   := h'.applied.trans h.applied
  owners    := h'.owners.trans h.owners
  clients   := h'.clients.trans h.clients

theorem withPhase (phase : Phase) : Quiet s (s.withPhase phase) :=
  ⟨rfl, rfl, rfl, rfl, rfl, rfl, rfl, rfl, rfl, rfl, rfl⟩

theorem map_set_of_getElem? {α β : Type} {f : α → β} {l : List α} {a : α} (h : l[i]?.map f = some (f a)) :
    (l.set i a).map f = l.map f := by
  rw [map_set]
  refine ext_getElem? fun j => ?_
  rw [getElem?_set]
  split
  case isFalse => rfl
  case isTrue hij =>
    subst hij
    have hlt : i < l.length := by
      by_contra hge
      simp [getElem?_eq_none (Nat.le_of_not_lt hge)] at h
    rw [length_map, if_pos hlt, getElem?_map, h]

theorem setActive (h : s.active[i]?.map (·.owner) = some req.owner) : Quiet s (s.setActive i req) :=
  ⟨rfl, rfl, rfl, rfl, rfl, rfl, rfl, rfl, rfl, map_set_of_getElem? h, rfl⟩

theorem markFirst (h : s.active[i]?.map (·.owner) = some req.owner) : Quiet s (s.markFirst i req) := by
  unfold VeloScheduler.markFirst
  split
  case isTrue  => exact refl
  case isFalse =>
    have hset : Quiet s (s.setActive i { req with firstTokenSent := true }) := setActive h
    exact hset.trans (by constructor <;> rfl)

theorem sendToken (client : Nat) (token : TokenId) : Quiet s (s.sendToken client token) := by
  unfold VeloScheduler.sendToken
  split
  case isTrue  => exact refl
  case isFalse =>
    refine ⟨rfl, rfl, rfl, rfl, rfl, rfl, rfl, rfl, rfl, rfl, ?_⟩
    refine ext_getElem? fun j => ?_
    simp only [onClient, getElem?_map, getElem?_modify]
    split <;> cases s.clients[j]? <;> rfl

theorem countToken (h : s.active[i]?.map (·.owner) = some req.owner) : Quiet s (s.countToken i req) := by
  have hset : Quiet s (s.setActive i { req with generatedCount := req.generatedCount + 1 }) := setActive h
  exact hset.trans (by constructor <;> rfl)

theorem owner_getElem? (h : Quiet s₁ s₂) (i : Nat) : s₂.active[i]?.map (·.owner) = s₁.active[i]?.map (·.owner) := by
  rw [← getElem?_map, h.owners, getElem?_map]

theorem length (h : Quiet s₁ s₂) : s₂.active.length = s₁.active.length := by
  simpa using congrArg List.length h.owners

theorem isClosed (h : Quiet s₁ s₂) (client : Nat) : s₂.isClosed client = s₁.isClosed client := by
  have hc := congrArg (·[client]?) h.clients
  simp only [getElem?_map] at hc
  have hclosed := congrArg (Option.map Client.closed) hc
  rw [Option.map_map, Option.map_map] at hclosed
  exact congrArg (Option.getD · true) hclosed

end Quiet

theorem commit_quiet (i : Nat) (results : StepResults) : Quiet s (s.commit i results) ∧ (s.commit i results).phase.inStep := by
  unfold commit
  split
  case h_1 => exact ⟨.withPhase _, trivial⟩
  case h_2 req hreq =>
    have howner : s.active[i]?.map (·.owner) = some req.owner := by rw [hreq]; rfl
    split
    case h_1 =>
      split
      all_goals
        refine ⟨.trans ?_ (.withPhase _), trivial⟩
        exact .setActive howner
    case h_2 => exact ⟨.withPhase _, trivial⟩

theorem send_quiet (i : Nat) (accepted : List TokenId) (results : StepResults) :
    Quiet s (s.send i accepted results) ∧ (s.send i accepted results).phase.inStep := by
  unfold send
  split
  case h_1 => exact ⟨.withPhase _, trivial⟩
  case h_2 req hreq =>
    have howner : s.active[i]?.map (·.owner) = some req.owner := by rw [hreq]; rfl
    split
    case h_1 =>
      refine ⟨.withPhase _, ?_⟩
      simp only [withPhase]
      split <;> trivial
    case h_2 token rest =>
      have hmark := Quiet.markFirst howner
      have howner' := (hmark.owner_getElem? i).trans howner
      dsimp only
      split
      case isTrue =>
        refine ⟨.trans (hmark.trans ?_) (.withPhase _), trivial⟩
        exact .setActive howner'
      case isFalse =>
        have hsend := hmark.trans (.sendToken req.client token)
        refine ⟨.trans (hsend.trans ?_) (.withPhase _), trivial⟩
        exact .countToken ((hsend.owner_getElem? i).trans howner)

theorem correct_quiet (i : Nat) (results : StepResults) :
    Quiet s (s.correct i results) ∧ (s.correct i results).phase.inStep := by
  unfold correct
  split
  case h_1 => exact ⟨.withPhase _, trivial⟩
  case h_2 req hreq =>
    have howner : s.active[i]?.map (·.owner) = some req.owner := by rw [hreq]; rfl
    split
    case h_1 => exact ⟨.withPhase _, trivial⟩
    case h_2 token session htake =>
      have hsend := (Quiet.markFirst howner).trans (.sendToken req.client token)
      refine ⟨.trans (hsend.trans ?_) (.withPhase _), trivial⟩
      exact .countToken ((hsend.owner_getElem? i).trans howner)

variable [DraftModel μ δ] [TargetModel μ τ]

-- Nothing runs after a panic.
theorem next_panicked [MemoryRuntime R] {a : Action} (h : s.phase = .panicked) : (s.next a).phase = .panicked := by
  cases a
  case work     => rw [next, work, h]; exact h
  case prefetch => rw [next, prefetch]; split <;> exact h
  all_goals exact h

theorem Run.not_panicked [MemoryRuntime R] {P : VeloScheduler R μ δ τ → Action → Prop} (h : Run P s₁ s₂)
    (hp : s₂.phase ≠ .panicked) : Run (fun s a => P s a ∧ s.phase ≠ .panicked) s₁ s₂ := by
  induction h
  case refl => exact .refl
  case step he ha hi =>
    have hp' := mt next_panicked hp
    exact .step (hi hp') he ⟨ha, hp'⟩

-- The calls of the models only change the models.
theorem callModels_frame : ∃ models, Quiet { s with machine := { s.machine with models } } s.callModels ∧
    s.callModels.phase.inStep := by
  unfold callModels
  dsimp only
  split
  case h_1 => exact ⟨_, .withPhase _, trivial⟩
  case h_2 =>
    split
    case isTrue => exact ⟨_, .withPhase _, trivial⟩
    case isFalse => split <;> exact ⟨_, .withPhase _, trivial⟩

theorem callModels_active : s.callModels.active = s.active ∧ s.callModels.clients = s.clients := by
  unfold callModels
  dsimp only
  split
  case h_1 => exact ⟨rfl, rfl⟩
  case h_2 =>
    split
    case isTrue => exact ⟨rfl, rfl⟩
    case isFalse => split <;> exact ⟨rfl, rfl⟩

end VeloScheduler
