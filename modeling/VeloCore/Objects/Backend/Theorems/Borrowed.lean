import VeloCore.Objects.Backend.Borrowed
import VeloCore.Objects.Backend.Recorder
import VeloCore.Primitives.Steps

open List

namespace Borrowed

variable {φ β : Type} {b : β}

theorem collectEach_forward {ρ ε α : Type} (one : ρ → β → Except ε α × β) (rs : List ρ) (b : β) :
    collectEach (fun r => forward (one r)) rs ⟨b⟩ = (collectEach one rs b).map id Borrowed.mk := by
  induction rs generalizing b
  case nil => rfl
  case cons r rs hi =>
    rw [collectEach, collectEach, forward]
    match one r b with
    | (.error e, b) => rfl
    | (.ok a, b)    =>
      dsimp only
      rw [hi]
      match collectEach one rs b with
      | (.error e, b) => rfl
      | (.ok as, b)   => rfl

theorem sampleWith_forward {ε : Type} (next : List TokenId → β → Except ε (TokenLogits φ) × β) (context : List TokenId)
    (sampler : Sampler φ) (b : β) :
    sampleWith (fun context => forward (next context)) context sampler ⟨b⟩ =
      (sampleWith next context sampler b).map id Borrowed.mk := by
  rw [sampleWith, sampleWith, forward]
  match next context b with
  | (.error e, b)   => rfl
  | (.ok logits, b) => rfl

variable [CausalLmBackend φ β]

-- Through the reference, every call runs the body of the trait.
theorem perform_borrowed (c : BackendCall φ) (b : β) :
    c.perform (⟨b⟩ : Borrowed β) = (c.performDefault b).map id Borrowed.mk := by
  cases c
  case bindPrefixCache => rfl
  case bindSlot        => rfl
  case switchModel     => rfl
  case nextLogits      => rfl
  case verifyLogits    => rfl
  case sampleNext context sampler =>
    exact congrArg (Prod.map BackendAnswer.prediction id) (sampleWith_forward CausalLmBackend.nextLogits context sampler b)
  case nextLogitsBatch contexts =>
    exact congrArg (Prod.map BackendAnswer.rows id) (collectEach_forward CausalLmBackend.nextLogits contexts b)
  case verifyLogitsBatch requests =>
    exact congrArg (Prod.map BackendAnswer.batch id)
      (collectEach_forward (fun (r : List TokenId × List TokenId) => CausalLmBackend.verifyLogits r.1 r.2) requests b)

-- Calls through a reference do what they do on the backend itself if and only if each of them runs what the trait has.
theorem trace_borrowed_iff (calls : List (BackendCall φ)) (b : β) :
    (BackendCall.trace (⟨b⟩ : Borrowed β) calls).map (Prod.map id Borrowed.backend) = BackendCall.trace b calls ↔
      Steps.Along (fun b c => (c.perform b).2) BackendCall.AsDefault b calls := by
  induction calls generalizing b
  case nil => exact iff_of_true rfl trivial
  case cons c calls hi =>
    have hhead : (c.perform (⟨b⟩ : Borrowed β)).map id Borrowed.backend = c.performDefault b := by
      rw [perform_borrowed]
      rfl
    rw [BackendCall.trace, BackendCall.trace, map_cons, cons_eq_cons, hhead, Steps.Along, BackendCall.AsDefault, eq_comm]
    refine and_congr_right fun hc => ?_
    rw [perform_borrowed, hc]
    exact hi (c.performDefault b).2

-- Through the reference, a backend that notes the slot it is bound to is not told of it.
theorem not_trace_borrowed :
    ¬∀ (calls : List (BackendCall Bool)) (b : Recorder (StatelessBackend Bool)),
      (BackendCall.trace (⟨b⟩ : Borrowed (Recorder (StatelessBackend Bool))) calls).map (Prod.map id Borrowed.backend) =
        BackendCall.trace b calls := by
  intro h
  let silent : StatelessBackend Bool := ⟨fun _ => .error (.model ""), fun _ _ => .error (.model "")⟩
  have hslots := congrArg (map (·.2.slot)) (h [.bindSlot 3] ⟨silent, none, none, []⟩)
  exact absurd (show ([none] : List (Option SlotId)) = [some 3] from hslots) (by decide)

end Borrowed
