import VeloCore.Objects.Backend.Greedy
import VeloCore.Primitives.Finmap

open List

-- A backend that reads its tokens from a script, by their positions. Its logits are of the type `φ`.
structure MockBackend (φ : Type) where
  script : List TokenId
  overrides : Finmap fun _ : Nat => TokenId
  boundPrefixes : List CacheLookup
  boundSlots : List SlotId

namespace MockBackend

variable {φ : Type}

def new (script : List TokenId) : MockBackend φ where
  script
  overrides := ∅
  boundPrefixes := []
  boundSlots := []

def withOverride (b : MockBackend φ) (position : Nat) (token : TokenId) : MockBackend φ :=
  { b with overrides := b.overrides.insert position token }

def tokenAt (b : MockBackend φ) (position : Nat) : Except SpeculativeError TokenId :=
  match b.overrides.lookup position with
  | some token => .ok token
  | none =>
    match b.script[position]? with
    | some token => .ok token
    | none       => .error (.model s!"mock backend has no token at position {position}")

variable [Zero φ] [One φ]

def oneHot (token : TokenId) : Except SpeculativeError (TokenLogits φ) :=
  TokenLogits.new ((replicate (token.toNat + 1) 0).set token.toNat 1)

-- The part of `next_logits` and of each offset of `verify_logits` that reads one position.
def logitsAt (b : MockBackend φ) (position : Nat) : Except SpeculativeError (TokenLogits φ) :=
  b.tokenAt position >>= oneHot

instance : CausalLmBackend φ (MockBackend φ) where
  bindPrefixCache cachedPrefix b := (.ok (), { b with boundPrefixes := b.boundPrefixes ++ [cachedPrefix] })
  bindSlot slot b                := (.ok (), { b with boundSlots := b.boundSlots ++ [slot] })
  nextLogits context b           := (b.logitsAt context.length, b)
  verifyLogits context drafted b :=
    ((range drafted.length).mapM fun offset => b.logitsAt (context.length + offset), b)

end MockBackend
