import VeloCore.Execution.Engine.Generate

open List

-- A client that has called `submit`: what has been sent on its two channels, and whether it has dropped the
-- token receiver. The other fields say what it asked for and when; the scheduler does not read them.
@[ext]
structure Client where
  tokens : List TokenId
  done : List (Except EngineError Unit)
  closed : Bool
  prompt : List TokenId
  maxNewTokens : Nat
  queued : Bool
  switches : Nat

-- The channels of a request are known by the number of the client.
structure SchedulerRequest where
  prompt : List TokenId
  maxNewTokens : Nat
  client : Nat
deriving DecidableEq, Repr

inductive SchedulerCommand
  | prefetch (name path : String)
  | switchModels (target : String) (draft : Option String)
deriving DecidableEq, Repr

namespace SchedulerCommand

-- The names of a `switch_models` call.
def names : SchedulerCommand → Option (String × Option String)
  | prefetch ..               => none
  | switchModels target draft => some (target, draft)

end SchedulerCommand

structure ActiveRequestInternal where
  session : SpeculativeSession
  slotId : SlotId
  maxNewTokens : Nat
  client : Nat
  generatedCount : Nat
  finished : Bool
  firstTokenSent : Bool
  cancelled : Bool
deriving DecidableEq, Repr

structure SchedulerMetrics where
  totalTokensGenerated : Nat
  totalRequestsCompleted : Nat
  activeSlots : Nat
  requestsWithTtft : Nat
deriving DecidableEq, Repr

-- What the models returned in a step.
structure StepResults where
  drafted : List (List NextTokenPrediction)
  verified : List (List VerifyStep)

-- Where the worker is: the polls of the two channels, the admission, the wait for a request, and in `step`,
-- the calls of the models, the commit of one request, the loop that sends its accepted tokens, and its
-- corrected token. A panic ends the worker's task: the next step of a panicked worker is the unwinding.
inductive Phase
  | commands
  | requests
  | admission
  | idle
  | step
  | commit (i : Nat) (results : StepResults)
  | send (i : Nat) (accepted : List TokenId) (results : StepResults)
  | correct (i : Nat) (results : StepResults)
  | cleanup (i : Nat)
  | stopped
  | panicked

namespace Phase

def isCommands : Phase → Bool
  | commands => true
  | _        => false

def isRequests : Phase → Bool
  | requests => true
  | _        => false

def isAdmission : Phase → Bool
  | admission => true
  | _         => false

def isStep : Phase → Bool
  | step => true
  | _    => false

def isPanicked : Phase → Bool
  | panicked => true
  | _        => false

end Phase

-- What the model pool had for the names of a command.
structure Selection where
  names : String × Option String
  target : Option Nat
  draft : Option (Option Nat)
deriving DecidableEq

-- The worker with the channels to it. `switches` are the calls of `switch_models` so far, and `applied` says what the
-- worker found for those that it has taken from the channel; it does not read either.
structure VeloScheduler (R μ δ τ : Type) where
  machine : Machine R μ δ τ
  pool : ModelPool
  loading : List (String × String)
  commandRx : List SchedulerCommand
  requestRx : List SchedulerRequest
  pending : List SchedulerRequest
  active : List ActiveRequestInternal
  clients : List Client
  metrics : SchedulerMetrics
  phase : Phase
  hungUp : Bool
  switches : List (String × Option String)
  applied : List Selection

namespace VeloScheduler

variable {R μ δ τ : Type} [MemoryRuntime R] [DraftModel μ δ] [TargetModel μ τ]

def start (machine : Machine R μ δ τ) : VeloScheduler R μ δ τ where
  machine
  pool := ∅
  loading := []
  commandRx := []
  requestRx := []
  pending := []
  active := []
  clients := []
  metrics := ⟨0, 0, 0, 0⟩
  phase := .commands
  hungUp := false
  switches := []
  applied := []

def admitRequest (req : SchedulerRequest) : Eff (Machine R μ δ τ) EngineError ActiveRequestInternal := do
  let slotId ← Machine.onEngine (VeloEngine.allocateSlot "No free slots")
  let prefill ← Machine.onEngine (VeloEngine.prefill req.prompt)
  Machine.onModels (Models.bind slotId prefill.cachedPrefix)
  let m ← Eff.get
  pure {
    session := m.engine.decoder.begin req.prompt
    slotId
    maxNewTokens := req.maxNewTokens
    client := req.client
    generatedCount := 0
    finished := false
    firstTokenSent := false
    cancelled := false }

variable (s : VeloScheduler R μ δ τ)

-- `token_tx.is_closed()`
def isClosed (client : Nat) : Bool :=
  (s.clients[client]?.map (·.closed)).getD true

-- The worker's task is still there to read the channels.
def isAlive : Bool :=
  match s.phase with
  | .stopped | .panicked => false
  | _ => true

def onClient (client : Nat) (f : Client → Client) : VeloScheduler R μ δ τ :=
  { s with clients := s.clients.modify client f }

def setActive (i : Nat) (req : ActiveRequestInternal) : VeloScheduler R μ δ τ :=
  { s with active := s.active.set i req }

def withPhase (phase : Phase) : VeloScheduler R μ δ τ :=
  { s with phase }

def switchTo (target : String) (draft : Option String) : VeloScheduler R μ δ τ :=
  let models := s.machine.models
  { s with
    machine := { s.machine with
      models := {
        target := (TargetModel.switchModel target s.pool models.target).2
        draft := match draft with
          | some name => (DraftModel.switchModel name s.pool models.draft).2
          | none      => models.draft } }
    applied := s.applied ++ [⟨(target, draft), s.pool.lookup target, draft.map s.pool.lookup⟩] }

def pollCommand : VeloScheduler R μ δ τ :=
  match s.commandRx with
  | [] => s.withPhase .requests
  | .prefetch name path :: rest => { s with commandRx := rest, loading := s.loading ++ [(name, path)] }
  | .switchModels target draft :: rest => { s with commandRx := rest }.switchTo target draft

def pollRequest : VeloScheduler R μ δ τ :=
  match s.requestRx with
  | []          => s.withPhase .admission
  | req :: rest => { s with requestRx := rest, pending := s.pending ++ [req] }

-- One round of the admission loop. The error of a failed admission is only printed.
def admitNext : VeloScheduler R μ δ τ :=
  if s.active.length < s.machine.engine.slotPool.capacity then
    match s.pending with
    | [] => s.withPhase .idle
    | req :: rest =>
      match admitRequest req s.machine with
      | (.ok activeReq, m) =>
        { s with
          machine := m
          pending := rest
          active := s.active ++ [activeReq]
          metrics := { s.metrics with activeSlots := s.active.length + 1 } }
      | (.error (.err _), m) => { s with machine := m, pending := rest }
      | (.error _, m)        => { s with machine := m, pending := rest, phase := .panicked }
  else
    s.withPhase .idle

-- `recv` returns `None` once the scheduler is dropped and the channel is empty; before that the worker waits.
def await : VeloScheduler R μ δ τ :=
  if s.active.isEmpty && s.pending.isEmpty then
    match s.requestRx with
    | req :: rest => { s with requestRx := rest, pending := s.pending ++ [req], phase := .commands }
    | []          => if s.hungUp then s.withPhase .stopped else s
  else if s.active.isEmpty then
    s.withPhase (.cleanup 0)
  else
    s.withPhase .step

def draftRequests (draftWindow : Nat) (active : List ActiveRequestInternal) : List (DraftRequest μ) :=
  active.map fun req =>
    { context := req.session.context
      maxTokens := min draftWindow (req.maxNewTokens - req.generatedCount)
      matcher := none }

def verifyRequests (active : List ActiveRequestInternal) (drafted : List (List NextTokenPrediction)) :
    List (VerifyRequest μ) :=
  (active.zip drafted).map fun (req, predictions) =>
    { context := req.session.context, drafted := predictions.map (·.token), matcher := none }

-- The draft and the target are called for all requests at once. An error only ends the step, and a missing result
-- is an index out of bounds, at which the worker panics.
def callModels : VeloScheduler R μ δ τ :=
  let models := s.machine.models
  match DraftModel.draftBatch (draftRequests s.machine.engine.decoder.draftWindow s.active) models.draft with
  | (.error _, _, d) =>
    { s with machine := { s.machine with models := { models with draft := d } }, phase := .cleanup 0 }
  | (.ok drafted, _, d) =>
    if drafted.length < s.active.length then
      { s with machine := { s.machine with models := { models with draft := d } }, phase := .panicked }
    else
      match TargetModel.verifyBatch (verifyRequests s.active drafted) models.target with
      | (.error _, _, t)     => { s with machine := { s.machine with models := ⟨d, t⟩ }, phase := .cleanup 0 }
      | (.ok verified, _, t) =>
        { s with machine := { s.machine with models := ⟨d, t⟩ }, phase := .commit 0 ⟨drafted, verified⟩ }

def commit (i : Nat) (results : StepResults) : VeloScheduler R μ δ τ :=
  match s.active[i]? with
  | none => s.withPhase (.cleanup 0)
  | some req =>
    match results.drafted[i]?, results.verified[i]? with
    | some drafted, some verified =>
      match req.session.commit drafted verified with
      | (.ok accepted, session) => (s.setActive i { req with session }).withPhase (.send i accepted results)
      | (.error _, session)     => (s.setActive i { req with session }).withPhase (.cleanup 0)
    | _, _ => s.withPhase .panicked

-- The first token of a request counts for the time to the first token.
def markFirst (i : Nat) (req : ActiveRequestInternal) : VeloScheduler R μ δ τ :=
  if req.firstTokenSent then
    s
  else
    { s.setActive i { req with firstTokenSent := true } with
      metrics := { s.metrics with requestsWithTtft := s.metrics.requestsWithTtft + 1 } }

-- `token_tx.send`
def sendToken (client : Nat) (token : TokenId) : VeloScheduler R μ δ τ :=
  if s.isClosed client then
    s
  else
    s.onClient client fun c => { c with tokens := c.tokens ++ [token] }

def countToken (i : Nat) (req : ActiveRequestInternal) : VeloScheduler R μ δ τ :=
  { s.setActive i { req with generatedCount := req.generatedCount + 1 } with
    metrics := { s.metrics with totalTokensGenerated := s.metrics.totalTokensGenerated + 1 } }

-- One round of the loop over the accepted tokens; the loop is left when the receiver is gone.
def send (i : Nat) (accepted : List TokenId) (results : StepResults) : VeloScheduler R μ δ τ :=
  match s.active[i]? with
  | none => s.withPhase .panicked
  | some req =>
    match accepted with
    | [] => s.withPhase (if req.cancelled then .commit (i + 1) results else .correct i results)
    | token :: rest =>
      let s := s.markFirst i req
      let req := { req with firstTokenSent := true }
      if s.isClosed req.client then
        (s.setActive i { req with cancelled := true }).withPhase (.send i [] results)
      else
        ((s.sendToken req.client token).countToken i req).withPhase (.send i rest results)

-- The corrected token counts even when it could not be sent.
def correct (i : Nat) (results : StepResults) : VeloScheduler R μ δ τ :=
  match s.active[i]? with
  | none => s.withPhase .panicked
  | some req =>
    match req.session.takeRejectedToken with
    | (none, _) => s.withPhase (.commit (i + 1) results)
    | (some token, session) =>
      let s := s.markFirst i req
      let req := { req with session, firstTokenSent := true, cancelled := req.cancelled || s.isClosed req.client }
      ((s.sendToken req.client token).countToken i req).withPhase (.commit (i + 1) results)

-- One round of the cleanup loop. `release_slot` panics when the slot is out of range.
def cleanup (i : Nat) : VeloScheduler R μ δ τ :=
  match s.active[i]? with
  | none => s.withPhase .commands
  | some req =>
    let isDone := decide (req.maxNewTokens ≤ req.generatedCount) || req.finished
    let isCancelled := req.cancelled || s.isClosed req.client
    if isDone || isCancelled then
      let s := { s with active := s.active.eraseIdx i }
      match s.machine.engine.slotPool.release req.slotId with
      | none => s.withPhase .panicked
      | some slotPool =>
        let s := { s with
          machine := { s.machine with engine := { s.machine.engine with slotPool } }
          metrics := { s.metrics with activeSlots := s.active.length } }
        if isDone && !isCancelled then
          { s.onClient req.client fun c => { c with done := c.done ++ [.ok ()] } with
            metrics := { s.metrics with totalRequestsCompleted := s.metrics.totalRequestsCompleted + 1 } }
        else
          s
    else
      s.withPhase (.cleanup (i + 1))

-- The unwinding after a panic drops what the worker owns: the ends of the channels, the queue and the active requests,
-- each with the senders to its client. Nothing is sent on these any more.
def unwind : VeloScheduler R μ δ τ :=
  { s with commandRx := [], requestRx := [], pending := [], active := [] }

-- What the worker does next.
def work : VeloScheduler R μ δ τ :=
  match s.phase with
  | .commands                => s.pollCommand
  | .requests                => s.pollRequest
  | .admission               => s.admitNext
  | .idle                    => s.await
  | .step                    => s.callModels
  | .commit i results        => s.commit i results
  | .send i accepted results => s.send i accepted results
  | .correct i results       => s.correct i results
  | .cleanup i               => s.cleanup i
  | .stopped                 => s
  | .panicked                => s.unwind

-- The clients' calls

def submit (prompt : List TokenId) (maxNewTokens : Nat) : VeloScheduler R μ δ τ :=
  { s with
    clients := s.clients ++ [⟨[], [], false, prompt, maxNewTokens, s.isAlive, s.switches.length⟩]
    requestRx := if s.isAlive then s.requestRx ++ [⟨prompt, maxNewTokens, s.clients.length⟩] else s.requestRx }

def prefetch (name path : String) : VeloScheduler R μ δ τ :=
  if s.isAlive then { s with commandRx := s.commandRx ++ [.prefetch name path] } else s

def switchModels (target : String) (draft : Option String) : VeloScheduler R μ δ τ :=
  { s with
    switches := s.switches ++ [(target, draft)]
    commandRx := if s.isAlive then s.commandRx ++ [.switchModels target draft] else s.commandRx }

-- Everything that can happen next. The calls of a client need the scheduler, which `hangUp` drops; `loaded` is the
-- end of a prefetch thread that had no error.
inductive Action
  | work
  | submit (prompt : List TokenId) (maxNewTokens : Nat)
  | prefetch (name path : String)
  | switchModels (target : String) (draft : Option String)
  | drop (client : Nat)
  | hangUp
  | loaded (name path : String) (model : Nat)

def Action.isWork : Action → Bool
  | work => true
  | _    => false

def Action.isSubmit : Action → Bool
  | submit .. => true
  | _         => false

def Enabled : Action → Prop
  | .submit .. | .prefetch .. | .switchModels .. | .hangUp => s.hungUp = false
  | .loaded name path _ => (name, path) ∈ s.loading
  | .work | .drop _ => True

instance : DecidablePred s.Enabled
  | .submit .. | .prefetch .. | .switchModels .. | .hangUp => inferInstanceAs (Decidable (s.hungUp = false))
  | .loaded name path _ => inferInstanceAs (Decidable ((name, path) ∈ s.loading))
  | .work | .drop _ => inferInstanceAs (Decidable True)

def next : Action → VeloScheduler R μ δ τ
  | .work                     => s.work
  | .submit prompt n          => s.submit prompt n
  | .prefetch name path       => s.prefetch name path
  | .switchModels target d    => s.switchModels target d
  | .drop client              => s.onClient client fun c => { c with closed := true }
  | .hangUp                   => { s with hungUp := true }
  | .loaded name path model   =>
    { s with loading := s.loading.erase (name, path), pool := s.pool.insert name model }

-- A run from `s`, in which `P` holds of every step.
inductive Run (P : VeloScheduler R μ δ τ → Action → Prop) (s : VeloScheduler R μ δ τ) : VeloScheduler R μ δ τ → Prop
  | refl : Run P s s
  | step : Run P s t → t.Enabled a → P t a → Run P s (t.next a)

theorem Run.invariant {P : VeloScheduler R μ δ τ → Action → Prop} {I : VeloScheduler R μ δ τ → Prop}
    {s t : VeloScheduler R μ δ τ} (h : Run P s t) (hs : I s)
    (hstep : ∀ t a, I t → t.Enabled a → P t a → I (t.next a)) : I t := by
  induction h
  case refl => exact hs
  case step he hp hi => exact hstep _ _ hi he hp

theorem Run.trans {P : VeloScheduler R μ δ τ → Action → Prop} {s t u : VeloScheduler R μ δ τ} (h : Run P s t)
    (h' : Run P t u) : Run P s u := by
  induction h'
  case refl => exact h
  case step he hp hi => exact hi.step he hp

-- The actions are possible from `s` on one after the other, and `P` holds of each.
def Traced (P : VeloScheduler R μ δ τ → Action → Prop) : VeloScheduler R μ δ τ → List Action → Prop
  | _, []      => True
  | s, a :: as => s.Enabled a ∧ P s a ∧ Traced P (s.next a) as

instance decidableTraced {P : VeloScheduler R μ δ τ → Action → Prop} [∀ s a, Decidable (P s a)] :
    (s : VeloScheduler R μ δ τ) → (as : List Action) → Decidable (Traced P s as)
  | _, []      => inferInstanceAs (Decidable True)
  | s, a :: as =>
    have := decidableTraced (P := P) (s.next a) as
    inferInstanceAs (Decidable (s.Enabled a ∧ P s a ∧ Traced P (s.next a) as))

theorem Traced.run {P : VeloScheduler R μ δ τ → Action → Prop} {s : VeloScheduler R μ δ τ} (as : List Action)
    (h : Traced P s as) : Run P s (as.foldl next s) := by
  induction as generalizing s
  case nil => exact .refl
  case cons a as hi => exact .trans (.step .refl h.left h.right.left) (hi h.right.right)

end VeloScheduler
