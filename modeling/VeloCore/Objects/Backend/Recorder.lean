import VeloCore.Objects.Backend.Greedy

open List

-- A forward call for a context, with what the backend was bound to last when it was made.
structure ForwardCall where
  context      : List TokenId
  slot         : Option SlotId
  cachedPrefix : Option CacheLookup
deriving DecidableEq

-- Any backend, together with its last bindings and a record of its forward calls.
structure Recorder (β : Type) where
  backend      : β
  slot         : Option SlotId
  cachedPrefix : Option CacheLookup
  calls        : List ForwardCall

namespace Recorder

variable {φ β : Type}

def call (context : List TokenId) (r : Recorder β) (b : β) : Recorder β :=
  { r with backend := b, calls := r.calls ++ [⟨context, r.slot, r.cachedPrefix⟩] }

instance [CausalLmBackend φ β] : CausalLmBackend φ (Recorder β) where
  bindPrefixCache cachedPrefix r :=
    match CausalLmBackend.bindPrefixCache cachedPrefix r.backend with
    | (res, b) => (res, { r with backend := b, cachedPrefix })
  bindSlot slot r :=
    match CausalLmBackend.bindSlot slot r.backend with
    | (res, b) => (res, { r with backend := b, slot })
  switchModel name pool r :=
    match CausalLmBackend.switchModel name pool r.backend with
    | (res, b) => (res, { r with backend := b })
  nextLogits context r :=
    match CausalLmBackend.nextLogits context r.backend with
    | (res, b) => (res, r.call context b)
  verifyLogits context drafted r :=
    match CausalLmBackend.verifyLogits context drafted r.backend with
    | (res, b) => (res, r.call context b)

variable {r r' r₁ r₂ r₃ : Recorder β}

-- Between the two states there are forward calls, all under the same bindings.
structure Serves (r r' : Recorder β) (cs : List ForwardCall) : Prop where
  slot         : r'.slot = r.slot
  cachedPrefix : r'.cachedPrefix = r.cachedPrefix
  calls        : r'.calls = r.calls ++ cs
  bound        : ∀ c ∈ cs, c.slot = r.slot ∧ c.cachedPrefix = r.cachedPrefix

namespace Serves

theorem refl : Serves r r [] :=
  ⟨rfl, rfl, by simp, by simp⟩

theorem trans (h : Serves r₁ r₂ cs) (h' : Serves r₂ r₃ cs') : Serves r₁ r₃ (cs ++ cs') where
  slot         := h'.slot.trans h.slot
  cachedPrefix := h'.cachedPrefix.trans h.cachedPrefix
  calls        := by rw [h'.calls, h.calls, append_assoc]
  bound c hc   := by
    rcases mem_append.mp hc with hc | hc
    case inl => exact h.bound c hc
    case inr => exact h.slot ▸ h.cachedPrefix ▸ h'.bound c hc

theorem call (context : List TokenId) (r : Recorder β) (b : β) :
    Serves r (r.call context b) [⟨context, r.slot, r.cachedPrefix⟩] :=
  ⟨rfl, rfl, rfl, by simp⟩

-- The calls are those since the first state.
theorem drop_eq (h : Serves r r' cs) : r'.calls.drop r.calls.length = cs := by
  rw [h.calls, drop_left]

end Serves

-- A batch is served one after the other, up to the first error; so the first one is served.
theorem collectEach_serves {ρ ε α : Type} {context : ρ → List TokenId}
    {one : ρ → Recorder β → Except ε α × Recorder β}
    (hone : ∀ q r, ∃ b, (one q r).2 = r.call (context q) b) (qs : List ρ) (r : Recorder β) : ∃ cs,
    Serves r (collectEach one qs r).2 cs ∧ ∀ q ∈ qs.head?, ∃ c ∈ cs, c.context = context q := by
  induction qs generalizing r
  case nil => exact ⟨[], .refl, by simp⟩
  case cons q qs hi =>
    have ⟨b, hb⟩ := hone q r
    have hcall : Serves r (one q r).2 [⟨context q, r.slot, r.cachedPrefix⟩] := hb ▸ Serves.call (context q) r b
    unfold collectEach
    match ho : one q r with
    | (.error e, r₁) =>
      rw [ho] at hcall
      exact ⟨_, hcall, by simp⟩
    | (.ok a, r₁) =>
      rw [ho] at hcall
      have ⟨cs, hrest, _⟩ := hi r₁
      refine ⟨_ ++ cs, hcall.trans ?_, by simp⟩
      dsimp only
      match hc : collectEach one qs r₁ with
      | (.error e, r₂) | (.ok as, r₂) => rw [hc] at hrest; exact hrest

variable [CausalLmBackend φ β]

theorem nextLogitsBatch_serves (contexts : List (List TokenId)) (r : Recorder β) : ∃ cs,
    Serves r (CausalLmBackend.nextLogitsBatch contexts r).2 cs ∧
      ∀ context ∈ contexts.head?, ∃ c ∈ cs, c.context = context :=
  collectEach_serves (fun _ _ => ⟨_, rfl⟩) contexts r

theorem verifyLogitsBatch_serves (requests : List (List TokenId × List TokenId)) (r : Recorder β) : ∃ cs,
    Serves r (CausalLmBackend.verifyLogitsBatch requests r).2 cs := by
  have hone (q : List TokenId × List TokenId) (r : Recorder β) :
      ∃ b, (CausalLmBackend.verifyLogits q.1 q.2 r).2 = r.call q.1 b := ⟨_, rfl⟩
  have ⟨cs, hs, _⟩ := collectEach_serves hone requests r
  exact ⟨cs, hs⟩

end Recorder

namespace GreedyDraftModel

variable {φ μ β : Type} [Logit φ] [CfgMatcher μ] [CausalLmBackend φ β]

open Recorder

theorem draftSteps_serves (n : Nat) (rows : List (DraftRow μ)) (r : Recorder β) :
    ∃ cs, Serves r (draftSteps n rows r).2.2 cs ∧
      (0 < n → ∀ row ∈ (rows.filter (·.isActive)).head?, ∃ c ∈ cs, c.context = row.context) := by
  induction n generalizing rows r
  case zero => exact ⟨[], .refl, nofun⟩
  case succ n hi =>
    unfold draftSteps
    split
    case isFalse hnone =>
      refine ⟨[], .refl, fun _ row hrow => absurd ?_ hnone⟩
      have ⟨hmem, hactive⟩ := mem_filter.mp (mem_of_head? hrow)
      exact any_eq_true.mpr ⟨row, hmem, hactive⟩
    case isTrue hany =>
      have ⟨cs, hs, hhead⟩ := nextLogitsBatch_serves ((rows.filter (·.isActive)).map (·.context)) r
      have hhead (row) (hrow : row ∈ (rows.filter (·.isActive)).head?) : ∃ c ∈ cs, c.context = row.context :=
        hhead row.context (by rw [head?_map]; exact Option.mem_map_of_mem _ hrow)
      match hb : CausalLmBackend.nextLogitsBatch ((rows.filter (·.isActive)).map (·.context)) r with
      | (.error e, r₁) =>
        rw [hb] at hs ⊢
        exact ⟨cs, hs, fun _ => hhead⟩
      | (.ok batch, r₁) =>
        rw [hb] at hs ⊢
        have ⟨cs', hs', _⟩ := hi (predictAll rows batch) r₁
        refine ⟨cs ++ cs', hs.trans hs', fun _ row hrow => ?_⟩
        have ⟨c, hc, hcontext⟩ := hhead row hrow
        exact ⟨c, mem_append_left _ hc, hcontext⟩

-- The first request that asks for tokens is served.
theorem draftBatch_serves (requests : List (DraftRequest μ)) (d : GreedyDraftModel μ (Recorder β)) :
    ∃ cs, Serves d.backend (DraftModel.draftBatch requests d).2.2.backend cs ∧
      ∀ q ∈ requests.head?, 0 < q.maxTokens → ∃ c ∈ cs, c.context = q.context := by
  have ⟨cs, hs, hhead⟩ := draftSteps_serves ((requests.map (·.maxTokens)).max?.getD 0)
    (requests.map fun r => ⟨r.context, r.maxTokens, r.matcher, []⟩) d.backend
  refine ⟨cs, hs, fun q hq hpos => ?_⟩
  cases requests
  case nil => contradiction
  case cons q' requests =>
    cases hq
    refine hhead ?_ ⟨q.context, q.maxTokens, q.matcher, []⟩ ?_
    case refine_1 =>
      rw [map_cons, max?_cons]
      cases (requests.map (·.maxTokens)).max? <;> simp [hpos]
    case refine_2 => simp [DraftRow.isActive, hpos]

end GreedyDraftModel

namespace GreedyTargetModel

variable {φ μ β : Type} [Logit φ] [CfgMatcher μ] [CausalLmBackend φ β]

open Recorder

theorem verifyBatch_serves (requests : List (VerifyRequest μ)) (t : GreedyTargetModel μ (Recorder β)) :
    ∃ cs, Serves t.backend (TargetModel.verifyBatch requests t).2.2.backend cs := by
  have ⟨cs, hs⟩ := verifyLogitsBatch_serves (requests.map fun r => (r.context, r.drafted)) t.backend
  refine ⟨cs, ?_⟩
  simp only [TargetModel.verifyBatch]
  match hb : CausalLmBackend.verifyLogitsBatch (requests.map fun r => (r.context, r.drafted)) t.backend with
  | (.error e, r₁) | (.ok batch, r₁) => rw [hb] at hs ⊢; exact hs

end GreedyTargetModel
