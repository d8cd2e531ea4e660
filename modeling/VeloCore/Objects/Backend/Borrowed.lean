import VeloCore.Objects.Backend.Basic

-- A `&mut B`
structure Borrowed (β : Type) where
  backend : β

namespace Borrowed

variable {φ β α : Type}

def forward (method : β → α × β) (b : Borrowed β) : α × Borrowed β :=
  match method b.backend with
  | (a, b) => (a, ⟨b⟩)

-- The blanket implementation has these two methods only, so the trait's own bodies stand for the others.
instance [CausalLmBackend φ β] : CausalLmBackend φ (Borrowed β) where
  nextLogits context           := forward (CausalLmBackend.nextLogits context)
  verifyLogits context drafted := forward (CausalLmBackend.verifyLogits context drafted)

end Borrowed

inductive BackendCall (φ : Type)
  | bindPrefixCache (cachedPrefix : CacheLookup)
  | bindSlot (slot : SlotId)
  | switchModel (name : String) (pool : ModelPool)
  | nextLogits (context : List TokenId)
  | sampleNext (context : List TokenId) (sampler : Sampler φ)
  | nextLogitsBatch (contexts : List (List TokenId))
  | verifyLogits (context drafted : List TokenId)
  | verifyLogitsBatch (requests : List (List TokenId × List TokenId))

inductive BackendAnswer (φ : Type)
  | unit (res : Except SpeculativeError Unit)
  | logits (res : Except SpeculativeError (TokenLogits φ))
  | prediction (res : Except SpeculativeError NextTokenPrediction)
  | rows (res : Except SpeculativeError (List (TokenLogits φ)))
  | batch (res : Except SpeculativeError (List (List (TokenLogits φ))))

namespace BackendCall

open CausalLmBackend

variable {φ β : Type} [CausalLmBackend φ β]

def perform (b : β) : BackendCall φ → BackendAnswer φ × β
  | bindPrefixCache cachedPrefix => (CausalLmBackend.bindPrefixCache cachedPrefix b).map .unit id
  | bindSlot slot                => (CausalLmBackend.bindSlot slot b).map .unit id
  | switchModel name pool        => (CausalLmBackend.switchModel name pool b).map .unit id
  | nextLogits context           => (CausalLmBackend.nextLogits context b).map .logits id
  | sampleNext context sampler   => (CausalLmBackend.sampleNext context sampler b).map .prediction id
  | nextLogitsBatch contexts     => (CausalLmBackend.nextLogitsBatch contexts b).map .rows id
  | verifyLogits context drafted => (CausalLmBackend.verifyLogits context drafted b).map .rows id
  | verifyLogitsBatch requests   => (CausalLmBackend.verifyLogitsBatch requests b).map .batch id

-- What a call does to a backend that overrides none of the bodies of the trait
def performDefault (b : β) : BackendCall φ → BackendAnswer φ × β
  | bindPrefixCache _ | bindSlot _ | switchModel _ _ => (.unit (.ok ()), b)
  | nextLogits context           => (CausalLmBackend.nextLogits context b).map .logits id
  | sampleNext context sampler   => (sampleWith CausalLmBackend.nextLogits context sampler b).map .prediction id
  | nextLogitsBatch contexts     => (collectEach CausalLmBackend.nextLogits contexts b).map .rows id
  | verifyLogits context drafted => (CausalLmBackend.verifyLogits context drafted b).map .rows id
  | verifyLogitsBatch requests   =>
    (collectEach (fun (context, drafted) => CausalLmBackend.verifyLogits context drafted) requests b).map .batch id

-- The answers to some calls, each with the backend that it leaves behind
def trace (b : β) : List (BackendCall φ) → List (BackendAnswer φ × β)
  | []      => []
  | c :: cs => c.perform b :: trace (c.perform b).2 cs

-- The backend has not overridden what the call runs, or to no effect.
def AsDefault (b : β) (c : BackendCall φ) : Prop :=
  c.perform b = c.performDefault b

end BackendCall
