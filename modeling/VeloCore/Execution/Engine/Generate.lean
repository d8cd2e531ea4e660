import VeloCore.Execution.Engine.Basic

open List

variable {R μ δ τ : Type} [MemoryRuntime R] [CfgMatcher μ] [DraftModel μ δ] [TargetModel μ τ]

-- The engine and the models of one call of `generate_batch`.
structure Machine (R μ δ τ : Type) where
  engine : VeloEngine R μ
  models : Models δ τ

namespace Models

def onDraft (f : δ → Except SpeculativeError α × δ) : Eff (Models δ τ) SpeculativeError α :=
  Eff.zoom draft (fun d m => { m with draft := d }) id (Eff.call f)

def onTarget (f : τ → Except SpeculativeError α × τ) : Eff (Models δ τ) SpeculativeError α :=
  Eff.zoom target (fun t m => { m with target := t }) id (Eff.call f)

-- The four calls that tell the models about a request.
def bind (slot : SlotId) (cachedPrefix : CacheLookup) : Eff (Models δ τ) SpeculativeError Unit := do
  onDraft (DraftModel.bindSlot slot)
  onTarget (TargetModel.bindSlot slot)
  onDraft (DraftModel.bindPrefixCache cachedPrefix)
  onTarget (TargetModel.bindPrefixCache cachedPrefix)

end Models

namespace ActiveRequest

def unfinished (req : ActiveRequest μ) : Bool :=
  req.generated.length < req.maxNewTokens

def recordDraftCall (req : ActiveRequest μ) : ActiveRequest μ :=
  { req with session := req.session.recordDraftCall }

def recordTargetCall (req : ActiveRequest μ) : ActiveRequest μ :=
  { req with session := req.session.recordTargetCall }

-- What `commit` and the pending rejection add to a request.
def commit (req : ActiveRequest μ) (drafted : List NextTokenPrediction) (verified : List VerifyStep) :
    Except SpeculativeError (ActiveRequest μ) :=
  match req.session.commit drafted verified with
  | (.error e, _) => .error e
  | (.ok accepted, session) =>
    let generated := req.generated ++ accepted
    if session.hasPendingRejection then
      match session.takeRejectedToken with
      | (some token, session) => .ok { req with session, generated := generated ++ [token] }
      | (none, session)       => .ok { req with session, generated }
    else
      .ok { req with session, generated }

def fullSequence (req : ActiveRequest μ) : List TokenId :=
  req.session.prompt ++ req.generated

end ActiveRequest

namespace VeloEngine

-- Step A: one request after the other gets a slot, pages and a session.
def prepare (req : BatchRequest) : Eff (VeloEngine R μ) EngineError (ActiveRequest μ) := do
  let slotId ← allocateSlot "No free slots available"
  let prefill ← prefill req.prompt
  match prefill.insertedPages.or prefill.cachedPages with
  | none => Eff.throw (.speculative (.model "Failed to resolve pages for prefill"))
  | some pages => do
    bindSlot slotId (pages.pages.map UInt32.ofNat)
    let e ← Eff.get
    let matcher := req.constraint.bind fun constraint => e.parserFactory.bind (· constraint)
    pure {
      session := e.decoder.begin req.prompt
      slotId
      maxNewTokens := req.maxNewTokens
      generated := []
      prefill
      matcher := matcher.map fun m => req.prompt.foldl (fun m token => CfgMatcher.advance token m) m }

def prepareAll : List BatchRequest → Eff (VeloEngine R μ) EngineError (List (ActiveRequest μ))
  | []          => pure []
  | req :: reqs => do
    let active ← prepare req
    let rest ← prepareAll reqs
    pure (active :: rest)

def bindAll : List (ActiveRequest μ) → Eff (Models δ τ) SpeculativeError Unit
  | []          => pure ()
  | req :: reqs => do
    Models.bind req.slotId req.prefill.cachedPrefix
    bindAll reqs

-- Step B: the loop. The results of the models are matched with the requests by their position among
-- the unfinished ones.

def activeIndices (active : List (ActiveRequest μ)) : List Nat :=
  (active.zipIdx.filter (·.1.unfinished)).map (·.2)

def draftRequests (draftWindow : Nat) (active : List (ActiveRequest μ)) : List (DraftRequest μ) :=
  let draftMatchers := active.map (·.matcher.map CfgMatcher.cloneBox)
  ((active.zip draftMatchers).filter (·.1.unfinished)).map fun (req, matcher) =>
    { context := req.session.context
      maxTokens := min (req.maxNewTokens - req.generated.length) draftWindow
      matcher }

def modifyAll (f : ActiveRequest μ → ActiveRequest μ) (indices : List Nat)
    (active : List (ActiveRequest μ)) : List (ActiveRequest μ) :=
  indices.foldl (fun active i => active.modify i f) active

-- `draft_results[i]` for each unfinished request, which panics when there are too few of them.
def draftedTokens (draftResults : List (List NextTokenPrediction)) (n : Nat) :
    Eff σ ε (List (List TokenId)) :=
  if n ≤ draftResults.length then
    pure ((draftResults.take n).map fun predictions => predictions.map (·.token))
  else
    Eff.panic

def verifyRequests (active : List (ActiveRequest μ)) (drafted : List (List TokenId)) :
    List (VerifyRequest μ) :=
  ((active.filter (·.unfinished)).zip drafted).map fun (req, drafted) =>
    { context := req.session.context, drafted, matcher := req.matcher }

-- The matchers of the unfinished requests were lent to the target model.
def returnMatchers : List (ActiveRequest μ) → List (Option μ) → List (ActiveRequest μ)
  | [], _ => []
  | req :: reqs, ms =>
    if req.unfinished then
      match ms with
      | []      => req :: reqs
      | m :: ms => { req with matcher := req.matcher.bind fun m₀ => m.or (some m₀) } :: returnMatchers reqs ms
    else
      req :: returnMatchers reqs ms

def commitAt (draftResults : List (List NextTokenPrediction)) (verifyResults : List (List VerifyStep))
    (i idx : Nat) (active : List (ActiveRequest μ)) :
    Eff σ SpeculativeError (List (ActiveRequest μ)) := do
  let req ← Eff.index active idx
  let drafted ← Eff.index draftResults i
  let verified ← Eff.index verifyResults i
  match req.commit drafted verified with
  | .error e => Eff.throw e
  | .ok req  => pure (active.set idx req)

def commitAll (draftResults : List (List NextTokenPrediction)) (verifyResults : List (List VerifyStep)) :
    List (Nat × Nat) → List (ActiveRequest μ) → Eff σ SpeculativeError (List (ActiveRequest μ))
  | [], active => pure active
  | (idx, i) :: indices, active => do
    let active ← commitAt draftResults verifyResults i idx active
    commitAll draftResults verifyResults indices active

def round (draftWindow : Nat) (active : List (ActiveRequest μ)) :
    Eff (Models δ τ) SpeculativeError (List (ActiveRequest μ) ⊕ List (ActiveRequest μ)) :=
  if active.any (·.unfinished) then do
    let indices := activeIndices active
    let draftResults ← Models.onDraft fun d =>
      match DraftModel.draftBatch (draftRequests draftWindow active) d with
      | (res, _, d) => (res, d)
    let active := modifyAll ActiveRequest.recordDraftCall indices active
    let drafted ← draftedTokens draftResults indices.length
    let (verifyResults, matchers) ← Models.onTarget fun t =>
      match TargetModel.verifyBatch (verifyRequests active drafted) t with
      | (res, ms, t) => (res.map (·, ms), t)
    let active := modifyAll ActiveRequest.recordTargetCall indices (returnMatchers active matchers)
    let active ← commitAll draftResults verifyResults indices.zipIdx active
    pure (.inl active)
  else
    pure (.inr active)

-- Step C: the slots are given back and the sequences are saved.
def finish (req : ActiveRequest μ) : Eff (VeloEngine R μ) EngineError EngineOutput := do
  releaseSlot req.slotId
  let insertedHandle ← cacheSequenceIf (req.fullSequence ≠ []) req.fullSequence
  let allocator := MemoryRuntime.allocator (← Eff.get).runtime
  pure {
    tokens := req.generated
    cachedPrefix := req.prefill.cachedPrefix
    cachedPages := req.prefill.cachedPages
    insertedHandle
    insertedPages := insertedHandle.bind allocator.materializeSpan
    stats := {
      cacheHitTokens := req.prefill.stats.cacheHitTokens
      cacheMissTokens := req.prefill.stats.cacheMissTokens
      speculative := req.session.stats } }

def wrapUp : List (ActiveRequest μ) → Eff (VeloEngine R μ) EngineError (List EngineOutput)
  | []          => pure []
  | req :: reqs => do
    let output ← finish req
    let outputs ← wrapUp reqs
    pure (output :: outputs)

end VeloEngine

namespace Machine

def onEngine (x : Eff (VeloEngine R μ) EngineError α) : Eff (Machine R μ δ τ) EngineError α :=
  Eff.zoom engine (fun e m => { m with engine := e }) id x

def onModels (x : Eff (Models δ τ) SpeculativeError α) : Eff (Machine R μ δ τ) EngineError α :=
  Eff.zoom models (fun ms m => { m with models := ms }) .speculative x

-- The steps A and B of `generate_batch`.
def decode (fuel : Nat) (requests : List BatchRequest) :
    Eff (Machine R μ δ τ) EngineError (List (ActiveRequest μ)) := do
  let active ← onEngine (VeloEngine.prepareAll requests)
  onModels (VeloEngine.bindAll active)
  let draftWindow := (← Eff.get).engine.decoder.draftWindow
  onModels (Eff.loop (VeloEngine.round draftWindow) fuel active)

def generateBatch (fuel : Nat) (requests : List BatchRequest) :
    Eff (Machine R μ δ τ) EngineError (List EngineOutput) := do
  let active ← decode fuel requests
  onEngine (VeloEngine.wrapUp active)

def generate (fuel : Nat) (prompt : List TokenId) (maxNewTokens : Nat) :
    Eff (Machine R μ δ τ) EngineError EngineOutput := do
  let outputs ← generateBatch fuel [{ prompt, maxNewTokens, constraint := none }]
  Eff.index outputs 0

end Machine
