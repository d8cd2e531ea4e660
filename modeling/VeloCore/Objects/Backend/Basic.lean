import VeloCore.Objects.Speculative.Model
import VeloCore.Primitives.Eff

-- The values are `f32`s, and `new` refuses an empty list of them.
structure TokenLogits (φ : Type) where
  values : List φ
  values_ne_nil : values ≠ []

def TokenLogits.new (values : List φ) : Except SpeculativeError (TokenLogits φ) :=
  if h : values = [] then
    .error (.model "logits must contain at least one token")
  else
    .ok { values, values_ne_nil := h }

theorem TokenLogits.new_eq_ok_iff {values : List φ} {logits : TokenLogits φ} :
    TokenLogits.new values = .ok logits ↔ values = logits.values := by
  unfold TokenLogits.new
  split
  case isTrue h  => exact iff_of_false nofun fun h' => logits.values_ne_nil (h' ▸ h)
  case isFalse h => cases logits; simp

structure Sampler (φ : Type) where
  sample : List φ → Option LogitMask → NextTokenPrediction
  isGreedy : Bool := false

-- The default `sample_next`.
def sampleWith (nextLogits : List TokenId → β → Except ε (TokenLogits φ) × β) (context : List TokenId) (sampler : Sampler φ)
    (b : β) : Except ε NextTokenPrediction × β :=
  match nextLogits context b with
  | (.error e, b)   => (.error e, b)
  | (.ok logits, b) => (.ok (sampler.sample logits.values none), b)

-- The default `next_logits_batch` and `verify_logits_batch`: `map` and `collect`, up to the first error.
def collectEach (one : ρ → β → Except ε α × β) : List ρ → β → Except ε (List α) × β
  | [], b => (.ok [], b)
  | r :: rs, b =>
    match one r b with
    | (.error e, b) => (.error e, b)
    | (.ok a, b) =>
      match collectEach one rs b with
      | (.error e, b) => (.error e, b)
      | (.ok as, b)   => (.ok (a :: as), b)

class CausalLmBackend (φ : outParam Type) (β : Type) where
  bindPrefixCache : CacheLookup → β → Except SpeculativeError Unit × β := fun _ b => (.ok (), b)
  bindSlot : SlotId → β → Except SpeculativeError Unit × β := fun _ b => (.ok (), b)
  switchModel : String → ModelPool → β → Except SpeculativeError Unit × β := fun _ _ b => (.ok (), b)
  nextLogits : List TokenId → β → Except SpeculativeError (TokenLogits φ) × β
  sampleNext : List TokenId → Sampler φ → β → Except SpeculativeError NextTokenPrediction × β :=
    sampleWith nextLogits
  nextLogitsBatch : List (List TokenId) → β → Except SpeculativeError (List (TokenLogits φ)) × β :=
    collectEach nextLogits
  verifyLogits : List TokenId → List TokenId → β → Except SpeculativeError (List (TokenLogits φ)) × β
  verifyLogitsBatch : List (List TokenId × List TokenId) → β →
    Except SpeculativeError (List (List (TokenLogits φ))) × β :=
    collectEach fun (context, drafted) => verifyLogits context drafted
