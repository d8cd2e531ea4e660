import VeloCore.Execution.Scheduler.Theorems.Delivery
import VeloCore.Objects.Backend.Greedy

open List

-- `current` is the model that a draft or target model decodes on. Only a switch may change it.
structure DraftModel.Holds [DraftModel μ δ] (current : δ → Option Nat) : Prop where
  bindSlot        : current (DraftModel.bindSlot slot d).2 = current d
  bindPrefixCache : current (DraftModel.bindPrefixCache cached d).2 = current d
  draftBatch      : current (DraftModel.draftBatch requests d).2.2 = current d

structure TargetModel.Holds [TargetModel μ τ] (current : τ → Option Nat) : Prop where
  bindSlot        : current (TargetModel.bindSlot slot t).2 = current t
  bindPrefixCache : current (TargetModel.bindPrefixCache cached t).2 = current t
  verifyBatch     : current (TargetModel.verifyBatch requests t).2.2 = current t

namespace VeloScheduler

variable {R μ δ τ : Type} {s s₁ s₂ : VeloScheduler R μ δ τ} {i : Nat}

-- The switches that the worker has not taken yet.
def unapplied (s : VeloScheduler R μ δ τ) : List (String × Option String) :=
  s.commandRx.filterMap (·.names)

-- The client has submitted its request after all of the switches.
def Fresh (s : VeloScheduler R μ δ τ) (i : Nat) : Prop :=
  ∃ c, s.clients[i]? = some c ∧ c.switches = s.switches.length

-- The clients whose requests can be admitted before the worker polls for commands again.
def near (s : VeloScheduler R μ δ τ) : List Nat :=
  (if s.phase.isRequests then s.requestRx.map (·.client) else []) ++ s.pending.map (·.client) ++
    s.active.map (·.client)

-- No request overtakes a switch.
structure Ordered (s : VeloScheduler R μ δ τ) : Prop where
  lt    : ∀ i ∈ s.ids, i < s.clients.length
  known : ∀ c ∈ s.clients, c.switches ≤ s.switches.length
  sent  : s.isAlive = true → s.applied.map (·.names) ++ s.unapplied = s.switches
  fresh : s.isAlive = true → s.phase.isCommands = false → ∀ i ∈ s.near, s.Fresh i → s.unapplied = []

theorem near_subset (h : i ∈ s.near) : i ∈ s.ids := by
  unfold near at h
  split at h
  case isTrue  => exact h
  case isFalse =>
    rw [nil_append] at h
    rw [ids, append_assoc]
    exact mem_append_right _ h

theorem near_of_not_isRequests (h : s.phase.isRequests = false) :
    s.near = s.pending.map (·.client) ++ s.active.map (·.client) := by
  simp [near, h]

theorem Quiet.active_clients (h : Quiet s₁ s₂) : s₂.active.map (·.client) = s₁.active.map (·.client) := by
  simpa [Function.comp_def, ActiveRequestInternal.owner] using congrArg (map (·.1)) h.owners

theorem not_isRequests_of_inStep {phase : Phase} (h : phase.inStep) : phase.isRequests = false := by
  cases phase <;> first | rfl | contradiction

theorem Quiet.clients_switches (h : Quiet s₁ s₂) : s₂.clients.map (·.switches) = s₁.clients.map (·.switches) := by
  simpa [Function.comp_def, Client.frame] using congrArg (map Client.switches) h.clients

-- The requests that are near may become fewer, outside of the poll for commands.
theorem Ordered.shrink (h : Ordered s₁) (hids : ∀ i ∈ s₂.ids, i ∈ s₁.ids)
    (hclients : s₂.clients.map (·.switches) = s₁.clients.map (·.switches)) (hswitches : s₂.switches = s₁.switches)
    (happlied : s₂.applied = s₁.applied) (hrx : s₂.commandRx = s₁.commandRx) (hlive : s₂.isAlive = true → s₁.isAlive = true)
    (hnear : s₂.isAlive = true → s₂.phase.isCommands = false → (∀ i ∈ s₂.near, i ∈ s₁.near) ∧ s₁.phase.isCommands = false) :
    Ordered s₂ := by
  have hun : s₂.unapplied = s₁.unapplied := by rw [unapplied, hrx, unapplied]
  have hlen : s₂.clients.length = s₁.clients.length := by simpa using congrArg List.length hclients
  refine ⟨fun i hi => hlen ▸ h.lt i (hids i hi), fun c hmem => ?_, fun ha => ?_, fun ha hc i hi hf => ?_⟩
  case refine_1 =>
    have hmap := mem_map_of_mem (f := Client.switches) hmem
    rw [hclients] at hmap
    have ⟨c₁, hmem₁, heq⟩ := mem_map.mp hmap
    exact hswitches ▸ heq ▸ h.known c₁ hmem₁
  case refine_2 => rw [happlied, hun, hswitches, h.sent (hlive ha)]
  case refine_3 =>
    have ⟨hsub, hc₁⟩ := hnear ha hc
    have ⟨c, hget, heq⟩ := hf
    have hs := congrArg (·[i]?) hclients
    simp only [getElem?_map, hget, Option.map_some] at hs
    have ⟨c₁, hget₁, heq₁⟩ := Option.map_eq_some_iff.mp hs.symm
    rw [hun]
    exact h.fresh (hlive ha) hc₁ i (hsub i hi) ⟨c₁, hget₁, by rw [heq₁, heq, hswitches]⟩

-- What a step within the round keeps.
theorem Ordered.quiet (h : Ordered s₁) (hq : Quiet s₁ s₂) (hlive : s₁.isAlive = true) (hc : s₁.phase.isCommands = false)
    (hr : s₁.phase.isRequests = false) (hphase : s₂.phase.inStep) : Ordered s₂ := by
  have hnear : s₂.near = s₁.near := by
    rw [near_of_not_isRequests (not_isRequests_of_inStep hphase), near_of_not_isRequests hr, hq.pending, hq.active_clients]
  exact h.shrink (fun i hi => hq.ids ▸ hi) hq.clients_switches hq.switches hq.applied hq.commandRx (fun _ => hlive)
    fun _ _ => ⟨fun i hi => hnear ▸ hi, hc⟩

theorem Ordered.drop (h : Ordered s) (client : Nat) : Ordered (s.onClient client fun c => { c with closed := true }) := by
  refine h.shrink (fun _ hi => hi) ?_ rfl rfl rfl id fun _ hc => ⟨fun _ hi => hi, hc⟩
  refine ext_getElem? fun i => ?_
  simp only [onClient, getElem?_map, getElem?_modify]
  split <;> cases s.clients[i]? <;> rfl

theorem Ordered.switchModels (h : Ordered s) (target : String) (draft : Option String) :
    Ordered (s.switchModels target draft) := by
  have hlen : (s.switchModels target draft).switches.length = s.switches.length + 1 := by simp [VeloScheduler.switchModels]
  refine ⟨h.lt, fun c hc => (h.known c hc).trans (by omega), fun ha => ?_, fun _ _ i _ hf => ?_⟩
  case refine_1 =>
    have ha : s.isAlive = true := ha
    simp [VeloScheduler.switchModels, unapplied, ha, ← h.sent ha, SchedulerCommand.names]
  case refine_2 =>
    have ⟨c, hget, heq⟩ := hf
    have hle := h.known c (mem_of_getElem? hget)
    omega

-- A request is not submitted while the worker polls for requests with a switch still waiting.
def InOrder (s : VeloScheduler R μ δ τ) (a : Action) : Prop :=
  a.isSubmit = true → s.phase.isRequests = true → s.unapplied = []

theorem Ordered.submit (h : Ordered s) (prompt : List TokenId) (n : Nat) (ha : InOrder s (.submit prompt n)) :
    Ordered (s.submit prompt n) := by
  have hlen : (s.submit prompt n).clients.length = s.clients.length + 1 := by simp [VeloScheduler.submit]
  have hids : ∀ i ∈ (s.submit prompt n).ids, i ∈ s.ids ∨ i = s.clients.length := fun i hi => by
    simp only [ids, VeloScheduler.submit] at hi ⊢
    split at hi <;> simp at hi ⊢ <;> grind
  refine ⟨fun i hi => ?_, fun c hc => ?_, h.sent, fun halive hc i hi hf => ?_⟩
  case refine_1 =>
    rw [hlen]
    exact (hids i hi).elim (fun hi => (h.lt i hi).trans (Nat.lt_succ_self _)) fun heq => heq ▸ Nat.lt_succ_self _
  case refine_2 =>
    rcases mem_append.mp hc with hc | hc
    case inl => exact h.known c hc
    case inr => rw [mem_singleton.mp hc]; exact le_rfl
  case refine_3 =>
    have halive : s.isAlive = true := halive
    by_cases hold : i ∈ s.near
    case pos =>
      obtain ⟨c, hget, heq⟩ := hf
      rw [VeloScheduler.submit, getElem?_append_left (h.lt i (near_subset hold))] at hget
      exact h.fresh halive hc i hold ⟨c, hget, heq⟩
    case neg =>
      refine ha rfl ?_
      by_contra hno
      have hr : s.phase.isRequests = false := by simpa using hno
      have hnear : (s.submit prompt n).near = s.near :=
        (near_of_not_isRequests (s := s.submit prompt n) hr).trans (near_of_not_isRequests hr).symm
      exact hold (hnear ▸ hi)

theorem Ordered.pollRequest (h : Ordered s) (hphase : s.phase = .requests) : Ordered s.pollRequest := by
  have hc : s.phase.isCommands = false := by rw [hphase]; rfl
  have hr : s.phase.isRequests = true := by rw [hphase]; rfl
  unfold VeloScheduler.pollRequest
  split
  case h_1 hrx =>
    refine h.shrink (fun _ hi => hi) rfl rfl rfl rfl (fun _ => by rw [isAlive, hphase]) fun _ _ => ⟨fun i hi => ?_, hc⟩
    have hnear : (s.withPhase .admission).near = s.near := by
      rw [near_of_not_isRequests rfl, near, hr, hrx]
      rfl
    exact hnear ▸ hi
  case h_2 req rest hrx =>
    have hperm := ids_poll_perm req rest s.pending (s.active.map (·.client))
    refine h.shrink (fun i hi => ?_) rfl rfl rfl rfl id fun _ _ => ⟨fun i hi => ?_, hc⟩
    case refine_1 => rw [ids, hrx]; exact hperm.mem_iff.mpr hi
    case refine_2 =>
      simp only [near, hr, ↓reduceIte] at hi ⊢
      rw [hrx]
      exact hperm.mem_iff.mpr hi

theorem Ordered.await (h : Ordered s) (hphase : s.phase = .idle) : Ordered s.await := by
  have hc : s.phase.isCommands = false := by rw [hphase]; rfl
  have hr : s.phase.isRequests = false := by rw [hphase]; rfl
  have halive : s.isAlive = true := by rw [isAlive, hphase]
  have hmove : ∀ phase : Phase, phase.isRequests = false → Ordered (s.withPhase phase) := fun phase hreq => by
    refine h.shrink (fun _ hi => hi) rfl rfl rfl rfl (fun _ => halive) fun _ _ => ⟨fun i hi => ?_, hc⟩
    rw [near_of_not_isRequests hreq] at hi
    exact near_of_not_isRequests hr ▸ hi
  unfold VeloScheduler.await
  split
  case isTrue =>
    split
    case h_1 req rest hrx =>
      refine h.shrink (fun i hi => ?_) rfl rfl rfl rfl (fun _ => halive) fun _ hcmd => absurd hcmd (by simp [Phase.isCommands])
      rw [ids, hrx]
      exact (ids_poll_perm ..).mem_iff.mpr hi
    case h_2 =>
      split
      case isTrue => exact hmove .stopped rfl
      case isFalse => exact h
  case isFalse =>
    split
    case isTrue => exact hmove (.cleanup 0) rfl
    case isFalse => exact hmove .step rfl

theorem Ordered.cleanup (h : Ordered s) (hphase : s.phase = .cleanup i) : Ordered (s.cleanup i) := by
  have hc : s.phase.isCommands = false := by rw [hphase]; rfl
  have hr : s.phase.isRequests = false := by rw [hphase]; rfl
  have halive : s.isAlive = true := by rw [isAlive, hphase]
  -- The active requests may only become fewer, and the clients keep what they have asked for.
  have hleave : ∀ {s' : VeloScheduler R μ δ τ}, s'.requestRx = s.requestRx → s'.pending = s.pending →
      (∀ b ∈ s'.active, b ∈ s.active) → s'.clients.map (·.switches) = s.clients.map (·.switches) → s'.switches = s.switches →
      s'.applied = s.applied → s'.commandRx = s.commandRx → s'.phase.isRequests = false → Ordered s' := by
    intro s' hrx hpending hactive hclients hswitches happlied hcmd hphase'
    have hsub : ∀ i ∈ s'.active.map (·.client), i ∈ s.active.map (·.client) := fun i hi =>
      have ⟨b, hb, heq⟩ := mem_map.mp hi
      heq ▸ mem_map_of_mem (hactive b hb)
    refine h.shrink (fun i hi => ?_) hclients hswitches happlied hcmd (fun _ => halive) fun _ _ => ⟨fun i hi => ?_, hc⟩
    case refine_1 =>
      rw [ids, hrx, hpending] at hi
      exact (mem_append.mp hi).elim (mem_append_left _) fun hi => mem_append_right _ (hsub i hi)
    case refine_2 =>
      rw [near_of_not_isRequests hphase', hpending] at hi
      rw [near_of_not_isRequests hr]
      exact (mem_append.mp hi).elim (mem_append_left _) fun hi => mem_append_right _ (hsub i hi)
  have hmodify : ∀ client, (s.clients.modify client fun c => { c with done := c.done ++ [.ok ()] }).map (·.switches) =
      s.clients.map (·.switches) := fun client => by
    refine ext_getElem? fun i => ?_
    simp only [getElem?_map, getElem?_modify]
    split <;> cases s.clients[i]? <;> rfl
  have herase : ∀ b ∈ s.active.eraseIdx i, b ∈ s.active := fun b hb => mem_of_mem_eraseIdx hb
  unfold VeloScheduler.cleanup
  split
  case h_1 => exact hleave rfl rfl (fun _ hb => hb) rfl rfl rfl rfl rfl
  case h_2 req hreq =>
    dsimp only
    split
    case isFalse => exact hleave rfl rfl (fun _ hb => hb) rfl rfl rfl rfl rfl
    case isTrue =>
      split
      case h_1 => exact hleave rfl rfl herase rfl rfl rfl rfl rfl
      case h_2 =>
        split
        case isTrue => exact hleave rfl rfl herase (hmodify _) rfl rfl rfl hr
        case isFalse => exact hleave rfl rfl herase rfl rfl rfl rfl hr

theorem Ordered.prefetch (h : Ordered s) (name path : String) : Ordered (s.prefetch name path) := by
  unfold VeloScheduler.prefetch
  split
  case isFalse => exact h
  case isTrue =>
    have hun : unapplied { s with commandRx := s.commandRx ++ [.prefetch name path] } = s.unapplied := by
      simp [unapplied, SchedulerCommand.names]
    exact ⟨h.lt, h.known, fun ha => (congrArg _ hun).trans (h.sent ha), fun ha hc i hi hf => hun.trans (h.fresh ha hc i hi hf)⟩

variable [DraftModel μ δ] [TargetModel μ τ]

theorem Ordered.pollCommand (h : Ordered s) (hphase : s.phase = .commands) : Ordered s.pollCommand := by
  have halive : s.isAlive = true := by rw [isAlive, hphase]
  have hsent := h.sent halive
  unfold VeloScheduler.pollCommand
  split
  case h_1 hrx =>
    have hun : s.unapplied = [] := by rw [unapplied, hrx]; rfl
    exact ⟨h.lt, h.known, fun _ => hsent, fun _ _ _ _ _ => hun⟩
  case h_2 name path rest hrx =>
    rw [unapplied, hrx] at hsent
    exact ⟨h.lt, h.known, fun _ => hsent, fun _ hc => absurd (hphase ▸ hc) (by decide)⟩
  case h_3 target draft rest hrx =>
    refine ⟨h.lt, h.known, fun _ => ?_, fun _ hc => absurd (hphase ▸ hc) (by decide)⟩
    rw [unapplied, hrx] at hsent
    simpa [switchTo, unapplied, SchedulerCommand.names] using hsent


variable [MemoryRuntime R]

theorem Ordered.admitNext (h : Ordered s) (hphase : s.phase = .admission) : Ordered s.admitNext := by
  have hc : s.phase.isCommands = false := by rw [hphase]; rfl
  have hr : s.phase.isRequests = false := by rw [hphase]; rfl
  have halive : s.isAlive = true := by rw [isAlive, hphase]
  have hnear := near_of_not_isRequests hr
  -- The head of the queue goes to the active requests or leaves.
  have hpop : ∀ {s' : VeloScheduler R μ δ τ} {req rest}, s.pending = req :: rest → s'.requestRx = s.requestRx → s'.pending = rest →
      (∀ b ∈ s'.active, b ∈ s.active ∨ b.client = req.client) → s'.clients = s.clients → s'.switches = s.switches →
      s'.applied = s.applied → s'.commandRx = s.commandRx → s'.phase.isRequests = false → Ordered s' := by
    intro s' req rest hp hrx hpending hactive hclients hswitches happlied hcmd hphase'
    have hsub : ∀ i ∈ s'.pending.map (·.client) ++ s'.active.map (·.client), i ∈ s.pending.map (·.client) ++ s.active.map (·.client) := by
      intro i hi
      rw [hpending] at hi
      rw [hp, map_cons, cons_append]
      rcases mem_append.mp hi with hi | hi
      case inl => exact mem_cons_of_mem _ (mem_append_left _ hi)
      case inr =>
        obtain ⟨b, hb, heq⟩ := mem_map.mp hi
        rcases hactive b hb with hb | hb
        case inl => exact mem_cons_of_mem _ (mem_append_right _ (heq ▸ mem_map_of_mem hb))
        case inr => exact heq ▸ hb ▸ mem_cons_self
    refine h.shrink (fun i hi => ?_) (by rw [hclients]) hswitches happlied hcmd (fun _ => halive) fun _ _ => ⟨fun i hi => ?_, hc⟩
    case refine_1 =>
      rw [ids, append_assoc, hrx] at hi
      rw [ids, append_assoc]
      exact (mem_append.mp hi).elim (mem_append_left _) fun hi => mem_append_right _ (hsub i hi)
    case refine_2 =>
      rw [near_of_not_isRequests hphase'] at hi
      exact hnear ▸ hsub i hi
  have hidle : Ordered (s.withPhase .idle) := by
    refine h.shrink (fun _ hi => hi) rfl rfl rfl rfl (fun _ => halive) fun _ _ => ⟨fun i hi => ?_, hc⟩
    rw [near_of_not_isRequests rfl] at hi
    exact hnear ▸ hi
  unfold VeloScheduler.admitNext
  split
  case isFalse => exact hidle
  case isTrue hlt =>
    split
    case h_1 => exact hidle
    case h_2 req rest hp =>
      split
      case h_1 activeReq m hadmitted =>
        obtain ⟨pool, out, hadm⟩ := admitRequest_eq_ok hadmitted
        refine hpop hp rfl rfl (fun b hb => ?_) rfl rfl rfl rfl hr
        refine (mem_append.mp hb).imp_right fun hb => ?_
        rw [mem_singleton.mp hb, hadm.request]
      case h_2 => exact hpop hp rfl rfl (fun b hb => .inl hb) rfl rfl rfl rfl hr
      case h_3 => exact hpop hp rfl rfl (fun b hb => .inl hb) rfl rfl rfl rfl rfl

theorem Ordered.work (h : Ordered s) : Ordered s.work := by
  unfold VeloScheduler.work
  split
  case h_1 hphase => exact h.pollCommand hphase
  case h_2 hphase => exact h.pollRequest hphase
  case h_3 hphase => exact h.admitNext hphase
  case h_4 hphase => exact h.await hphase
  case h_5 hphase =>
    have ⟨models, hq, hstep⟩ := callModels_frame (s := s)
    have h' : Ordered { s with machine := { s.machine with models } } := ⟨h.lt, h.known, h.sent, h.fresh⟩
    exact h'.quiet hq (by simp [isAlive, hphase]) (by simp [hphase, Phase.isCommands]) (by simp [hphase, Phase.isRequests]) hstep
  case h_6 i results hphase =>
    have ⟨hq, hstep⟩ := commit_quiet (s := s) i results
    exact h.quiet hq (by simp [isAlive, hphase]) (by simp [hphase, Phase.isCommands]) (by simp [hphase, Phase.isRequests]) hstep
  case h_7 i accepted results hphase =>
    have ⟨hq, hstep⟩ := send_quiet (s := s) i accepted results
    exact h.quiet hq (by simp [isAlive, hphase]) (by simp [hphase, Phase.isCommands]) (by simp [hphase, Phase.isRequests]) hstep
  case h_8 i results hphase =>
    have ⟨hq, hstep⟩ := correct_quiet (s := s) i results
    exact h.quiet hq (by simp [isAlive, hphase]) (by simp [hphase, Phase.isCommands]) (by simp [hphase, Phase.isRequests]) hstep
  case h_9 hphase => exact h.cleanup hphase
  case h_10 => exact h
  case h_11 hphase =>
    have hdead (halive : s.unwind.isAlive = true) : False := by simp [isAlive, unwind, hphase] at halive
    exact ⟨by simp [ids, unwind], h.known, fun halive => (hdead halive).elim, fun halive => (hdead halive).elim⟩

theorem Ordered.next (h : Ordered s) (ha : InOrder s a) : Ordered (s.next a) := by
  cases a
  case work                      => exact h.work
  case submit prompt n           => exact h.submit prompt n ha
  case prefetch name path        => exact h.prefetch name path
  case switchModels target draft => exact h.switchModels target draft
  case drop client               => exact h.drop client
  case hangUp                    => exact ⟨h.lt, h.known, h.sent, h.fresh⟩
  case loaded                    => exact ⟨h.lt, h.known, h.sent, h.fresh⟩

section Selected

variable {currentDraft : δ → Option Nat} {currentTarget : τ → Option Nat}

-- The models that a switch names are in the pool when the worker takes it.
def Resident (s : VeloScheduler R μ δ τ) (a : Action) : Prop :=
  a.isWork = true → s.phase.isCommands = true → ∀ cmd ∈ s.commandRx.head?, ∀ names ∈ cmd.names,
    (s.pool.lookup names.1).isSome = true ∧ ∀ name ∈ names.2, (s.pool.lookup name).isSome = true

instance : Decidable (Resident s a) :=
  inferInstanceAs (Decidable (_ → _ → ∀ cmd ∈ s.commandRx.head?, ∀ names ∈ cmd.names, _ ∧ ∀ name ∈ names.2, _))

instance : Decidable (InOrder s a) :=
  inferInstanceAs (Decidable (_ → _ → _))

-- The models that take a switch go over to the models of the pool.
def Obeyed (currentDraft : δ → Option Nat) (currentTarget : τ → Option Nat) (s : VeloScheduler R μ δ τ) (a : Action) : Prop :=
  a.isWork = true → s.phase.isCommands = true → ∀ cmd ∈ s.commandRx.head?, ∀ names ∈ cmd.names,
    currentTarget (TargetModel.switchModel names.1 s.pool s.machine.models.target).2 = s.pool.lookup names.1 ∧
      ∀ name ∈ names.2, currentDraft (DraftModel.switchModel name s.pool s.machine.models.draft).2 = s.pool.lookup name

instance : Decidable (Obeyed currentDraft currentTarget s a) :=
  inferInstanceAs (Decidable (_ → _ → ∀ cmd ∈ s.commandRx.head?, ∀ names ∈ cmd.names, _ ∧ ∀ name ∈ names.2, _))

-- The models are those of the last switch; it need not name a draft model.
structure Selected (currentDraft : δ → Option Nat) (currentTarget : τ → Option Nat) (models : Models δ τ)
    (applied : List Selection) : Prop where
  target : ∀ sel, applied.getLast? = some sel → sel.target.isSome = true ∧ currentTarget models.target = sel.target
  draft  : ∀ d, (applied.filterMap (·.draft)).getLast? = some d → d.isSome = true ∧ currentDraft models.draft = d

theorem Selected.congr {models models' : Models δ τ} {applied : List Selection} (h : Selected currentDraft currentTarget models applied)
    (hd : currentDraft models'.draft = currentDraft models.draft) (ht : currentTarget models'.target = currentTarget models.target) :
    Selected currentDraft currentTarget models' applied where
  target sel hs := ht ▸ h.target sel hs
  draft d hs    := hd ▸ h.draft d hs

omit [MemoryRuntime R] in
theorem Selected.switchTo (h : Selected currentDraft currentTarget s.machine.models s.applied) {target : String}
    {draft : Option String} (ht : (s.pool.lookup target).isSome = true) (hd : ∀ name ∈ draft, (s.pool.lookup name).isSome = true)
    (ht' : currentTarget (TargetModel.switchModel target s.pool s.machine.models.target).2 = s.pool.lookup target)
    (hd' : ∀ name ∈ draft, currentDraft (DraftModel.switchModel name s.pool s.machine.models.draft).2 = s.pool.lookup name) :
    Selected currentDraft currentTarget (s.switchTo target draft).machine.models (s.switchTo target draft).applied := by
  have happlied : (s.switchTo target draft).applied =
      s.applied ++ [⟨(target, draft), s.pool.lookup target, draft.map s.pool.lookup⟩] := rfl
  rw [happlied]
  refine ⟨fun sel hs => ?_, fun d hs => ?_⟩
  case refine_1 =>
    rw [getLast?_concat, Option.some.injEq] at hs
    subst hs
    exact ⟨ht, ht'⟩
  case refine_2 =>
    cases draft
    case none => exact h.draft d (by simpa using hs)
    case some name =>
      have hlast : d = s.pool.lookup name := by
        simpa [eq_comm] using hs
      rw [hlast]
      exact ⟨hd name rfl, hd' name rfl⟩

theorem admitRequest_models (hδ : DraftModel.Holds currentDraft) (hτ : TargetModel.Holds currentTarget)
    (req : SchedulerRequest) (m : Machine R μ δ τ) :
    currentDraft (admitRequest req m).2.models.draft = currentDraft m.models.draft ∧
      currentTarget (admitRequest req m).2.models.target = currentTarget m.models.target := by
  let I : Models δ τ → Prop := fun ms => currentDraft ms.draft = currentDraft m.models.draft ∧
    currentTarget ms.target = currentTarget m.models.target
  have engine {α} (x : Eff (VeloEngine R μ) EngineError α) :
      Eff.Keeps (fun m' : Machine R μ δ τ => I m'.models) (Machine.onEngine x) :=
    .zoom (J := fun _ => True) (fun _ _ => trivial) (fun _ _ => trivial) fun _ _ h _ => h
  have draft {α} {f : δ → Except SpeculativeError α × δ} (hf : ∀ d, currentDraft (f d).2 = currentDraft d) :
      Eff.Keeps I (Models.onDraft f) :=
    .zoom (J := fun d => currentDraft d = currentDraft m.models.draft) (.call fun d hd => (hf d).trans hd)
      (fun _ h => h.left) fun _ _ h hd => ⟨hd, h.right⟩
  have target {α} {f : τ → Except SpeculativeError α × τ} (hf : ∀ t, currentTarget (f t).2 = currentTarget t) :
      Eff.Keeps I (Models.onTarget f) :=
    .zoom (J := fun t => currentTarget t = currentTarget m.models.target) (.call fun t ht => (hf t).trans ht)
      (fun _ h => h.right) fun _ _ h ht => ⟨h.left, ht⟩
  have hbind (slot cached) : Eff.Keeps I (Models.bind slot cached) :=
    .bind (draft fun _ => hδ.bindSlot) fun _ => .bind (target fun _ => hτ.bindSlot) fun _ =>
      .bind (draft fun _ => hδ.bindPrefixCache) fun _ => target fun _ => hτ.bindPrefixCache
  have models (slot cached) : Eff.Keeps (fun m' : Machine R μ δ τ => I m'.models) (Machine.onModels (Models.bind slot cached)) :=
    .zoom (hbind slot cached) (fun _ h => h) fun _ _ _ h => h
  exact Eff.Keeps.bind (I := fun m' : Machine R μ δ τ => I m'.models) (engine _)
    (fun _ => .bind (engine _) fun _ => .bind (models _ _) fun _ => .bind .get fun _ => .pure _) m ⟨rfl, rfl⟩

omit [MemoryRuntime R] in
theorem callModels_models (hδ : DraftModel.Holds currentDraft) (hτ : TargetModel.Holds currentTarget) :
    s.callModels.applied = s.applied ∧
      currentDraft s.callModels.machine.models.draft = currentDraft s.machine.models.draft ∧
      currentTarget s.callModels.machine.models.target = currentTarget s.machine.models.target := by
  have hdraft (requests) : ∀ d res ms d', DraftModel.draftBatch (δ := δ) requests d = (res, ms, d') →
      currentDraft d' = currentDraft d := fun d res ms d' h => by
    have hd : currentDraft (DraftModel.draftBatch requests d).2.2 = currentDraft d := hδ.draftBatch
    rwa [h] at hd
  have htarget (requests) : ∀ t res ms t', TargetModel.verifyBatch (τ := τ) requests t = (res, ms, t') →
      currentTarget t' = currentTarget t := fun t res ms t' h => by
    have ht : currentTarget (TargetModel.verifyBatch requests t).2.2 = currentTarget t := hτ.verifyBatch
    rwa [h] at ht
  unfold callModels
  dsimp only
  split
  case h_1 h => exact ⟨rfl, hdraft _ _ _ _ _ h, rfl⟩
  case h_2 h =>
    split
    case isTrue => exact ⟨rfl, hdraft _ _ _ _ _ h, rfl⟩
    case isFalse =>
      split
      case h_1 h' => exact ⟨rfl, hdraft _ _ _ _ _ h, htarget _ _ _ _ _ h'⟩
      case h_2 h' => exact ⟨rfl, hdraft _ _ _ _ _ h, htarget _ _ _ _ _ h'⟩

-- A step of the worker leaves the models as they are, unless it takes a switch.
theorem work_selection (hδ : DraftModel.Holds currentDraft) (hτ : TargetModel.Holds currentTarget)
    (s : VeloScheduler R μ δ τ) :
    (s.work.applied = s.applied ∧ currentDraft s.work.machine.models.draft = currentDraft s.machine.models.draft ∧
      currentTarget s.work.machine.models.target = currentTarget s.machine.models.target) ∨
    ∃ target draft rest, s.phase = .commands ∧ s.commandRx = .switchModels target draft :: rest ∧
      s.work = { s with commandRx := rest }.switchTo target draft := by
  have quiet {s' : VeloScheduler R μ δ τ} (hq : Quiet s s') : s'.applied = s.applied ∧
      currentDraft s'.machine.models.draft = currentDraft s.machine.models.draft ∧
      currentTarget s'.machine.models.target = currentTarget s.machine.models.target := by
    rw [hq.machine, hq.applied]
    exact ⟨rfl, rfl, rfl⟩
  unfold VeloScheduler.work
  split
  case h_1 hphase =>
    unfold pollCommand
    split
    case h_1 => exact .inl ⟨rfl, rfl, rfl⟩
    case h_2 => exact .inl ⟨rfl, rfl, rfl⟩
    case h_3 target draft rest hrx => exact .inr ⟨target, draft, rest, hphase, hrx, rfl⟩
  case h_2 => left; unfold pollRequest; split <;> exact ⟨rfl, rfl, rfl⟩
  case h_3 =>
    left
    unfold admitNext
    split
    case isFalse => exact ⟨rfl, rfl, rfl⟩
    case isTrue =>
      split
      case h_1 => exact ⟨rfl, rfl, rfl⟩
      case h_2 req rest hp =>
        have hmodels := admitRequest_models hδ hτ req s.machine
        split
        all_goals
          rename_i hadmitted
          rw [hadmitted] at hmodels
          exact ⟨rfl, hmodels⟩
  case h_4 =>
    left
    unfold await
    split
    case isTrue =>
      split
      case h_1 => exact ⟨rfl, rfl, rfl⟩
      case h_2 => split <;> exact ⟨rfl, rfl, rfl⟩
    case isFalse => split <;> exact ⟨rfl, rfl, rfl⟩
  case h_5 => exact .inl (callModels_models hδ hτ)
  case h_6 => exact .inl (quiet (commit_quiet _ _).left)
  case h_7 => exact .inl (quiet (send_quiet _ _ _).left)
  case h_8 => exact .inl (quiet (correct_quiet _ _).left)
  case h_9 =>
    left
    unfold cleanup
    split
    case h_1 => exact ⟨rfl, rfl, rfl⟩
    case h_2 =>
      dsimp only
      split
      case isFalse => exact ⟨rfl, rfl, rfl⟩
      case isTrue =>
        split
        case h_1 => exact ⟨rfl, rfl, rfl⟩
        case h_2 => split <;> exact ⟨rfl, rfl, rfl⟩
  case h_10 => exact .inl ⟨rfl, rfl, rfl⟩
  case h_11 => exact .inl ⟨rfl, rfl, rfl⟩

theorem Selected.next (hδ : DraftModel.Holds currentDraft) (hτ : TargetModel.Holds currentTarget)
    (h : Selected currentDraft currentTarget s.machine.models s.applied) (hr : Resident s a)
    (ho : Obeyed currentDraft currentTarget s a) :
    Selected currentDraft currentTarget (s.next a).machine.models (s.next a).applied := by
  cases a
  case work =>
    rcases work_selection hδ hτ s with ⟨happlied, hd, ht⟩ | ⟨target, draft, rest, hphase, hrx, hwork⟩
    case inl =>
      rw [VeloScheduler.next, happlied]
      exact h.congr hd ht
    case inr =>
      have hcmd : SchedulerCommand.switchModels target draft ∈ s.commandRx.head? := by rw [hrx]; rfl
      obtain ⟨ht, hd⟩ := hr rfl (by rw [hphase]; rfl) _ hcmd (target, draft) rfl
      obtain ⟨ht', hd'⟩ := ho rfl (by rw [hphase]; rfl) _ hcmd (target, draft) rfl
      rw [VeloScheduler.next, hwork]
      exact Selected.switchTo (s := { s with commandRx := rest }) h ht hd ht' hd'
  case prefetch => rw [VeloScheduler.next, VeloScheduler.prefetch]; split <;> exact h
  all_goals exact h

-- The models are called for a request that was submitted after all of the switches only once the worker has taken
-- these, so that they are the models of the last one.
def OnSelected (currentDraft : δ → Option Nat) (currentTarget : τ → Option Nat) (s : VeloScheduler R μ δ τ) : Prop :=
  s.phase.isStep = true → ∀ req ∈ s.active, s.Fresh req.client →
    s.applied.map (·.names) = s.switches ∧ Selected currentDraft currentTarget s.machine.models s.applied

theorem onSelected_of_inOrder (hδ : DraftModel.Holds currentDraft) (hτ : TargetModel.Holds currentTarget)
    (h : Run (fun s a => Resident s a ∧ Obeyed currentDraft currentTarget s a ∧ InOrder s a) (start m) s) :
    OnSelected currentDraft currentTarget s := by
  have ⟨hordered, hselected⟩ : Ordered s ∧ Selected currentDraft currentTarget s.machine.models s.applied := by
    refine h.invariant (I := fun s => Ordered s ∧ Selected currentDraft currentTarget s.machine.models s.applied)
      ⟨⟨?_, ?_, fun _ => rfl, fun _ _ _ _ _ => rfl⟩, ?_, ?_⟩
      fun t a ht _ ha => ⟨ht.left.next ha.right.right, ht.right.next hδ hτ ha.left ha.right.left⟩
    all_goals simp [start, ids]
  intro hphase req hreq hfresh
  have hc : s.phase.isCommands = false := by cases h : s.phase <;> simp_all [Phase.isCommands, Phase.isStep]
  have halive : s.isAlive = true := by unfold isAlive; split <;> simp_all [Phase.isStep]
  have hnear : req.client ∈ s.near := mem_append_right _ (mem_map_of_mem hreq)
  have hsent := hordered.sent halive
  rw [hordered.fresh halive hc _ hnear hfresh, append_nil] at hsent
  exact ⟨hsent, hselected⟩

-- Models that ignore the switches decode on what they were started with, whatever the clients switch to.
theorem Run.unswitched {P : VeloScheduler R μ δ τ → Action → Prop} (hδ : DraftModel.Holds currentDraft)
    (hτ : TargetModel.Holds currentTarget)
    (hd : ∀ name pool d, currentDraft (DraftModel.switchModel name pool d).2 = currentDraft d)
    (ht : ∀ name pool t, currentTarget (TargetModel.switchModel name pool t).2 = currentTarget t) (h : Run P s t) :
    currentDraft t.machine.models.draft = currentDraft s.machine.models.draft ∧
      currentTarget t.machine.models.target = currentTarget s.machine.models.target := by
  refine h.invariant (I := fun t => currentDraft t.machine.models.draft = currentDraft s.machine.models.draft ∧
    currentTarget t.machine.models.target = currentTarget s.machine.models.target) ⟨rfl, rfl⟩ fun u a hu _ _ => ?_
  cases a
  case work =>
    rcases work_selection hδ hτ u with ⟨_, hd', ht'⟩ | ⟨target, draft, rest, _, _, hwork⟩
    case inl => exact ⟨hd'.trans hu.left, ht'.trans hu.right⟩
    case inr =>
      rw [VeloScheduler.next, hwork]
      refine ⟨?_, (ht _ _ _).trans hu.right⟩
      cases draft
      case none      => exact hu.left
      case some name => exact (hd _ _ _).trans hu.left
  case prefetch => rw [VeloScheduler.next, VeloScheduler.prefetch]; split <;> exact hu
  all_goals exact hu

-- The models of the repository hand a switch on to their backend, where the method of the trait does nothing and no
-- backend has one of its own: `MetalBackend::switch_model` is not a method of the trait.
theorem Run.unswitched_greedy {φ β : Type} [Logit φ] [CfgMatcher μ] [CausalLmBackend φ β]
    (hβ : ∀ name pool (b : β), CausalLmBackend.switchModel name pool b = (.ok (), b)) {current : β → Option Nat}
    {s t : VeloScheduler R μ (GreedyDraftModel μ β) (GreedyTargetModel μ β)} {P : _ → Action → Prop}
    (hδ : DraftModel.Holds fun d : GreedyDraftModel μ β => current d.backend)
    (hτ : TargetModel.Holds fun t : GreedyTargetModel μ β => current t.backend) (h : Run P s t) :
    current t.machine.models.draft.backend = current s.machine.models.draft.backend ∧
      current t.machine.models.target.backend = current s.machine.models.target.backend := by
  refine h.unswitched hδ hτ (fun name pool d => ?_) fun name pool t => ?_
  case refine_1 => simp only [DraftModel.switchModel, hβ]
  case refine_2 => simp only [TargetModel.switchModel, hβ]

end Selected

-- Models that can be switched: the target always says 7.

structure Selector where
  current : Option Nat

def Selector.switchModel (name : String) (pool : ModelPool) (m : Selector) : Except SpeculativeError Unit × Selector :=
  match pool.lookup name with
  | some model => (.ok (), ⟨some model⟩)
  | none       => (.error (.model "Model not found in pool"), m)

instance : DraftModel Empty Selector where
  switchModel := Selector.switchModel
  draft _ n m d := (.ok (replicate n ⟨7⟩), m, d)

instance : TargetModel Empty Selector where
  switchModel := Selector.switchModel
  verify _ drafted m t := (.ok (drafted.map fun _ => ⟨7⟩), m, t)

theorem Selector.current_batchEach {ρ α : Type} {one : ρ → Selector → Except SpeculativeError α × Option Empty × Selector}
    (hone : ∀ r m, (one r m).2.2 = m) (matcher : ρ → Option Empty) (rs : List ρ) (m : Selector) :
    (batchEach one matcher rs m).2.2 = m := by
  induction rs
  case nil => rfl
  case cons r rs hi =>
    have hr := hone r m
    rw [batchEach]
    split
    case h_1 h => rwa [h] at hr
    case h_2 h =>
      rw [h] at hr
      subst hr
      split
      all_goals
        rename_i h'
        rwa [h'] at hi

theorem Selector.holds : DraftModel.Holds (Selector.current) ∧ TargetModel.Holds (Selector.current) :=
  ⟨⟨rfl, rfl, congrArg _ (current_batchEach (fun _ _ => rfl) _ _ _)⟩,
    ⟨rfl, rfl, congrArg _ (current_batchEach (fun _ _ => rfl) _ _ _)⟩⟩

theorem onSelected_switched : ∃ e : VeloEngine CpuMemoryRuntime Empty, VeloEngine.new ⟨2, ⟨1, 4, 8, 2⟩⟩ = .ok e ∧
    let s : VeloScheduler CpuMemoryRuntime Empty Selector Selector :=
      ([.prefetch "b" "b.gguf", .work, .loaded "b" "b.gguf" 5, .switchModels "b" none, .submit [1] 1, .work, .work, .work,
        .work, .work, .work, .work] : List Action).foldl next (start ⟨e, ⟨⟨none⟩, ⟨none⟩⟩⟩)
    s.phase.isStep = true ∧ s.active.map (·.client) = [0] ∧ s.machine.models.target.current = some 5 ∧
      OnSelected Selector.current Selector.current s :=
  ⟨_, rfl, by decide +kernel, by decide +kernel, by decide +kernel,
    onSelected_of_inOrder Selector.holds.left Selector.holds.right (Traced.run _ (by decide +kernel))⟩

-- The worker has polled for commands, and then the client switches and submits: the request is decoded on the old model.
theorem exists_not_onSelected : ∃ e : VeloEngine CpuMemoryRuntime Empty, VeloEngine.new ⟨2, ⟨1, 4, 8, 2⟩⟩ = .ok e ∧
    ∃ s, Run Resident (start ⟨e, ⟨(⟨none⟩ : Selector), (⟨none⟩ : Selector)⟩⟩) s ∧ s.pool.lookup "b" = some 5 ∧
      s.switches = [("b", none)] ∧ s.machine.models.target.current = none ∧
      ¬ OnSelected Selector.current Selector.current s := by
  refine ⟨_, rfl, _, Traced.run [.prefetch "b" "b.gguf", .work, .loaded "b" "b.gguf" 5, .work, .switchModels "b" none,
    .submit [1] 1, .work, .work, .work, .work, .work] (by decide +kernel), by decide +kernel, rfl, rfl, fun h => ?_⟩
  have hsent := (h rfl _ mem_cons_self ⟨_, rfl, rfl⟩).left
  exact absurd hsent (by decide +kernel)

end VeloScheduler
