import VeloCore.Objects.Backend.Basic

open List

-- What the samplers use of `f32`.
class Logit (φ : Type) where
  negInfinity : φ
  ge : φ → φ → Bool

namespace GreedySampler

variable {φ : Type} [Logit φ]

-- The loop of `sample` from the index `i` on.
def best (mask : Option LogitMask) : List φ → Nat → φ → TokenId → TokenId
  | [], _, _, maxToken => maxToken
  | logit :: logits, i, maxLogit, maxToken =>
    if mask.any fun mask => !(mask[i]?.getD false) then
      best mask logits (i + 1) maxLogit maxToken
    else if Logit.ge logit maxLogit then
      best mask logits (i + 1) logit (UInt32.ofNat i)
    else
      best mask logits (i + 1) maxLogit maxToken

def sample (logits : List φ) (mask : Option LogitMask) : NextTokenPrediction :=
  ⟨best mask logits 0 Logit.negInfinity 0⟩

end GreedySampler

-- A backend without a state of its own: the logits depend on the tokens only.
structure StatelessBackend (φ : Type) where
  nextLogits : List TokenId → Except SpeculativeError (TokenLogits φ)
  verifyLogits : List TokenId → List TokenId → Except SpeculativeError (List (TokenLogits φ))

instance : CausalLmBackend φ (StatelessBackend φ) where
  nextLogits context b := (b.nextLogits context, b)
  verifyLogits context drafted b := (b.verifyLogits context drafted, b)

-- A request of `draft_batch` with what has been drafted for it.
structure DraftRow (μ : Type) where
  context : List TokenId
  maxTokens : Nat
  matcher : Option μ
  results : List NextTokenPrediction

namespace DraftRow

variable {φ μ : Type} [Logit φ] [CfgMatcher μ]

def isActive (row : DraftRow μ) : Bool :=
  row.results.length < row.maxTokens

def push (row : DraftRow μ) (prediction : NextTokenPrediction) (matcher : Option μ) : DraftRow μ :=
  { row with
    context := row.context ++ [prediction.token]
    matcher := matcher.map (CfgMatcher.advance prediction.token)
    results := row.results ++ [prediction] }

-- `matcher.as_mut().map(|m| m.next_mask())`
def mask (row : DraftRow μ) : Option LogitMask × Option μ :=
  match row.matcher with
  | none   => (none, none)
  | some m => ((CfgMatcher.nextMask m).1, some (CfgMatcher.nextMask m).2)

def predict (logits : TokenLogits φ) (row : DraftRow μ) : DraftRow μ :=
  let (mask, matcher) := row.mask
  row.push (GreedySampler.sample logits.values mask) matcher

end DraftRow

-- The matchers are `dyn CfgMatcher`s, and `μ` is the type behind them.
structure GreedyDraftModel (μ β : Type) where
  backend : β

namespace GreedyDraftModel

variable {φ μ β : Type} [Logit φ] [CfgMatcher μ] [CausalLmBackend φ β]

-- The loop of `draft`.
def draftLoop : Nat → DraftRow μ → β → Except SpeculativeError Unit × DraftRow μ × β
  | 0, row, b => (.ok (), row, b)
  | n + 1, row, b =>
    match CausalLmBackend.nextLogits row.context b with
    | (.error e, b)   => (.error e, { row with matcher := row.mask.2 }, b)
    | (.ok logits, b) => draftLoop n (row.predict logits) b

-- The active rows take their logits in order. A backend answers with one for each of them. The code would panic if there were
-- fewer, as they are indexed, but there is no such backend here.
def predictAll : List (DraftRow μ) → List (TokenLogits φ) → List (DraftRow μ)
  | row :: rows, logits :: batch =>
    if row.isActive then
      row.predict logits :: predictAll rows batch
    else
      row :: predictAll rows (logits :: batch)
  | rows, _ => rows

-- The loop of `draft_batch`.
def draftSteps : Nat → List (DraftRow μ) → β → Except SpeculativeError Unit × List (DraftRow μ) × β
  | 0, rows, b => (.ok (), rows, b)
  | n + 1, rows, b =>
    if rows.any (·.isActive) then
      match CausalLmBackend.nextLogitsBatch ((rows.filter (·.isActive)).map (·.context)) b with
      | (.error e, b)  => (.error e, rows, b)
      | (.ok batch, b) => draftSteps n (predictAll rows batch) b
    else
      (.ok (), rows, b)

instance : DraftModel μ (GreedyDraftModel μ β) where
  bindPrefixCache cachedPrefix d :=
    match CausalLmBackend.bindPrefixCache cachedPrefix d.backend with
    | (res, b) => (res, ⟨b⟩)
  bindSlot slot d :=
    match CausalLmBackend.bindSlot slot d.backend with
    | (res, b) => (res, ⟨b⟩)
  switchModel name pool d :=
    match CausalLmBackend.switchModel name pool d.backend with
    | (res, b) => (res, ⟨b⟩)
  draft context maxTokens matcher d :=
    match draftLoop maxTokens ⟨context, maxTokens, matcher, []⟩ d.backend with
    | (res, row, b) => (res.map fun _ => row.results, row.matcher, ⟨b⟩)
  draftBatch requests d :=
    let rows := requests.map fun r => ⟨r.context, r.maxTokens, r.matcher, []⟩
    match draftSteps ((requests.map (·.maxTokens)).max?.getD 0) rows d.backend with
    | (res, rows, b) => (res.map fun _ => rows.map (·.results), rows.map (·.matcher), ⟨b⟩)

end GreedyDraftModel

structure GreedyTargetModel (μ β : Type) where
  backend : β

namespace GreedyTargetModel

variable {φ μ β : Type} [Logit φ] [CfgMatcher μ]

-- The loop over the logits of one request. The matcher, if there is one, masks each choice and is then
-- advanced by it.
def verifySteps : List (TokenLogits φ) → Option μ → List VerifyStep × Option μ
  | [], matcher => ([], matcher)
  | logits :: rows, none =>
    let prediction := GreedySampler.sample logits.values none
    let (steps, matcher) := verifySteps rows none
    (⟨prediction.token⟩ :: steps, matcher)
  | logits :: rows, some m =>
    let (mask, m) := CfgMatcher.nextMask m
    let prediction := GreedySampler.sample logits.values (some mask)
    let (steps, matcher) := verifySteps rows (some (CfgMatcher.advance prediction.token m))
    (⟨prediction.token⟩ :: steps, matcher)

-- The lists of logits are matched with the requests by position; there are not more of them than requests.
instance [CausalLmBackend φ β] : TargetModel μ (GreedyTargetModel μ β) where
  bindPrefixCache cachedPrefix t :=
    match CausalLmBackend.bindPrefixCache cachedPrefix t.backend with
    | (res, b) => (res, ⟨b⟩)
  bindSlot slot t :=
    match CausalLmBackend.bindSlot slot t.backend with
    | (res, b) => (res, ⟨b⟩)
  switchModel name pool t :=
    match CausalLmBackend.switchModel name pool t.backend with
    | (res, b) => (res, ⟨b⟩)
  verify context drafted matcher t :=
    match CausalLmBackend.verifyLogits context drafted t.backend with
    | (.error e, b) => (.error e, matcher, ⟨b⟩)
    | (.ok rows, b) => (.ok (verifySteps rows matcher).1, (verifySteps rows matcher).2, ⟨b⟩)
  verifyBatch requests t :=
    match CausalLmBackend.verifyLogitsBatch (requests.map fun r => (r.context, r.drafted)) t.backend with
    | (.error e, b)  => (.error e, requests.map (·.matcher), ⟨b⟩)
    | (.ok batch, b) =>
      let verified := zipWith verifySteps batch (requests.map (·.matcher))
      (.ok (verified.map (·.1)), verified.map (·.2) ++ (requests.map (·.matcher)).drop batch.length, ⟨b⟩)

end GreedyTargetModel
