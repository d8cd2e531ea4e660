import VeloCore.Objects.Handle
import VeloCore.Objects.SlotPool
import Mathlib.Data.Finmap

-- The confidence of a prediction is left out: nothing that is modelled here reads it.
structure NextTokenPrediction where
  token : TokenId
deriving DecidableEq, Repr

structure VerifyStep where
  expected : TokenId
deriving DecidableEq, Repr

inductive SpeculativeError
  | emptyDraftWindow
  | draftReturnedTooMany (requested returned : Nat)
  | targetReturnedWrongLength (drafted returned : Nat)
  | model (message : String)
deriving DecidableEq, Repr

-- The resident models by name. An `Arc<Mutex<LlamaMetalModel>>` is known by its address only.
abbrev ModelPool := Finmap fun _ : String => Nat

-- A `LogitMask` is a bit vector: `mask.get(i)` is `mask[i]?`.
abbrev LogitMask := List Bool

class CfgMatcher (μ : Type) where
  nextMask : μ → LogitMask × μ
  advance : TokenId → μ → μ
  cloneBox : μ → μ

-- The elements of the slices that `draft_batch` and `verify_batch` take. The matchers are borrowed
-- mutably, so both methods also return the matchers that they leave behind.
structure DraftRequest (μ : Type) where
  context : List TokenId
  maxTokens : Nat
  matcher : Option μ

structure VerifyRequest (μ : Type) where
  context : List TokenId
  drafted : List TokenId
  matcher : Option μ

section Batch

variable {μ δ ρ α : Type}

-- The default `draft_batch` and `verify_batch`: one request after the other, up to the first error.
def batchEach (one : ρ → δ → Except SpeculativeError α × Option μ × δ) (matcher : ρ → Option μ) :
    List ρ → δ → Except SpeculativeError (List α) × List (Option μ) × δ
  | [], d => (.ok [], [], d)
  | r :: rs, d =>
    match one r d with
    | (.error e, m, d) => (.error e, m :: rs.map matcher, d)
    | (.ok a, m, d) =>
      match batchEach one matcher rs d with
      | (.error e, ms, d) => (.error e, m :: ms, d)
      | (.ok as, ms, d)   => (.ok (a :: as), m :: ms, d)

end Batch

class DraftModel (μ : outParam Type) (δ : Type) where
  bindPrefixCache : CacheLookup → δ → Except SpeculativeError Unit × δ := fun _ d => (.ok (), d)
  bindSlot : SlotId → δ → Except SpeculativeError Unit × δ := fun _ d => (.ok (), d)
  switchModel : String → ModelPool → δ → Except SpeculativeError Unit × δ := fun _ _ d => (.ok (), d)
  draft : List TokenId → Nat → Option μ → δ →
    Except SpeculativeError (List NextTokenPrediction) × Option μ × δ
  draftBatch : List (DraftRequest μ) → δ →
    Except SpeculativeError (List (List NextTokenPrediction)) × List (Option μ) × δ :=
    batchEach (fun r => draft r.context r.maxTokens r.matcher) DraftRequest.matcher

class TargetModel (μ : outParam Type) (τ : Type) where
  bindPrefixCache : CacheLookup → τ → Except SpeculativeError Unit × τ := fun _ t => (.ok (), t)
  bindSlot : SlotId → τ → Except SpeculativeError Unit × τ := fun _ t => (.ok (), t)
  switchModel : String → ModelPool → τ → Except SpeculativeError Unit × τ := fun _ _ t => (.ok (), t)
  verify : List TokenId → List TokenId → Option μ → τ →
    Except SpeculativeError (List VerifyStep) × Option μ × τ
  verifyBatch : List (VerifyRequest μ) → τ →
    Except SpeculativeError (List (List VerifyStep)) × List (Option μ) × τ :=
    batchEach (fun r => verify r.context r.drafted r.matcher) VerifyRequest.matcher

-- The two models that a call works with.
structure Models (δ τ : Type) where
  draft : δ
  target : τ
