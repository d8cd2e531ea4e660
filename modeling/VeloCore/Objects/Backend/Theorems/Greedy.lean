import VeloCore.Objects.Backend.Greedy

open List

theorem collectEach_ok {ρ β ε α : Type} {one : ρ → β → Except ε α × β} (f : ρ → α) {b : β}
    (h : ∀ r, one r b = (.ok (f r), b)) (rs : List ρ) : collectEach one rs b = (.ok (rs.map f), b) := by
  induction rs
  case nil          => rfl
  case cons r rs hi => simp only [collectEach, h, hi, map_cons]

-- A stateless backend that does not fail
def StatelessBackend.answering (next : List TokenId → TokenLogits φ)
    (verify : List TokenId → List TokenId → List (TokenLogits φ)) : StatelessBackend φ where
  nextLogits context           := .ok (next context)
  verifyLogits context drafted := .ok (verify context drafted)

variable {φ μ : Type} [Logit φ] [CfgMatcher μ] {next : List TokenId → TokenLogits φ}
  {verify : List TokenId → List TokenId → List (TokenLogits φ)} {row : DraftRow μ} {rows : List (DraftRow μ)}

namespace DraftRow

def step (next : List TokenId → TokenLogits φ) (row : DraftRow μ) : DraftRow μ :=
  row.predict (next row.context)

-- What one round of `draft_batch` does to a row
def turn (next : List TokenId → TokenLogits φ) (row : DraftRow μ) : DraftRow μ :=
  if row.isActive then row.step next else row

@[simp] theorem step_maxTokens : (row.step next).maxTokens = row.maxTokens :=
  rfl

@[simp] theorem step_results_length : (row.step next).results.length = row.results.length + 1 := by
  simp [step, predict, push]

-- The rounds go on until the row has all of its tokens.
theorem turn_iterate (next : List TokenId → TokenLogits φ) (n : Nat) (row : DraftRow μ) :
    (turn next)^[n] row = (step next)^[min n (row.maxTokens - row.results.length)] row := by
  induction n generalizing row
  case zero => rw [Nat.zero_min]; rfl
  case succ n hi =>
    rw [Function.iterate_succ_apply, hi]
    by_cases hactive : row.results.length < row.maxTokens
    case pos =>
      have hmin : min (n + 1) (row.maxTokens - row.results.length) =
          min n (row.maxTokens - (row.results.length + 1)) + 1 := by omega
      rw [hmin, Function.iterate_succ_apply, turn, isActive, decide_eq_true hactive, if_pos rfl, step_maxTokens,
        step_results_length]
    case neg =>
      have hzero : row.maxTokens - row.results.length = 0 := by omega
      rw [turn, isActive, decide_eq_false hactive, if_neg Bool.false_ne_true, hzero, Nat.min_zero, Nat.min_zero]

end DraftRow

namespace GreedyDraftModel

open DraftRow StatelessBackend

theorem draftLoop_answering (n : Nat) (row : DraftRow μ) :
    draftLoop n row (answering next verify) = (.ok (), (step next)^[n] row, answering next verify) := by
  induction n generalizing row
  case zero      => rfl
  case succ n hi => exact hi _

theorem predictAll_idle (h : ¬row.isActive) (batch : List (TokenLogits φ)) :
    predictAll (row :: rows) batch = row :: predictAll rows batch := by
  cases batch
  case nil  => cases rows <;> rfl
  case cons => rw [predictAll, if_neg h]

-- The active rows find their logits by their position among the active rows.
theorem predictAll_answering (rows : List (DraftRow μ)) :
    predictAll rows (((rows.filter (·.isActive)).map (·.context)).map next) = rows.map (turn next) := by
  induction rows
  case nil => rfl
  case cons row rows hi =>
    by_cases hactive : row.isActive
    case pos =>
      rw [filter_cons_of_pos hactive, map_cons, map_cons, predictAll, if_pos hactive, hi, map_cons, turn, if_pos hactive]
      rfl
    case neg => rw [filter_cons_of_neg hactive, predictAll_idle hactive, hi, map_cons, turn, if_neg hactive]

theorem turn_of_idle (h : ¬rows.any (·.isActive)) (n : Nat) : rows.map (turn next)^[n] = rows := by
  refine map_congr_left (g := id) (fun row hrow => ?_) |>.trans (map_id rows)
  have hidle : ¬row.isActive := fun ha => h (any_eq_true.mpr ⟨row, hrow, ha⟩)
  have hturn : turn next row = row := if_neg hidle
  exact Function.iterate_fixed hturn n

theorem draftSteps_answering (n : Nat) (rows : List (DraftRow μ)) :
    draftSteps n rows (answering next verify) = (.ok (), rows.map (turn next)^[n], answering next verify) := by
  induction n generalizing rows
  case zero => simp [draftSteps]
  case succ n hi =>
    have hone (context : List TokenId) : CausalLmBackend.nextLogits context (answering next verify) =
        (.ok (next context), answering next verify) := rfl
    have hbatch : CausalLmBackend.nextLogitsBatch ((rows.filter (·.isActive)).map (·.context)) (answering next verify) =
        (.ok (((rows.filter (·.isActive)).map (·.context)).map next), answering next verify) :=
      collectEach_ok next hone _
    rw [draftSteps]
    split
    case isTrue =>
      simp only [hbatch]
      rw [predictAll_answering, hi, map_map, ← Function.iterate_succ]
    case isFalse hidle => rw [turn_of_idle hidle]

-- No request is cut short by the number of rounds.
theorem turn_iterate_max {requests : List (DraftRequest μ)} {r : DraftRequest μ} (hr : r ∈ requests) :
    (turn next)^[(requests.map (·.maxTokens)).max?.getD 0] ⟨r.context, r.maxTokens, r.matcher, []⟩ =
      (step next)^[r.maxTokens] ⟨r.context, r.maxTokens, r.matcher, []⟩ := by
  have hle : r.maxTokens ≤ (requests.map (·.maxTokens)).max?.getD 0 :=
    le_max?_getD_of_mem (mem_map_of_mem hr)
  rw [turn_iterate, length_nil, Nat.sub_zero, min_eq_right hle]

theorem draft_answering (context : List TokenId) (maxTokens : Nat) (matcher : Option μ) :
    DraftModel.draft context maxTokens matcher (⟨answering next verify⟩ : GreedyDraftModel μ (StatelessBackend φ)) =
      (.ok ((step next)^[maxTokens] ⟨context, maxTokens, matcher, []⟩).results,
        ((step next)^[maxTokens] ⟨context, maxTokens, matcher, []⟩).matcher, ⟨answering next verify⟩) := by
  simp only [DraftModel.draft, draftLoop_answering]
  rfl

theorem draftBatch_answering (requests : List (DraftRequest μ)) :
    ∃ drafts : List (List NextTokenPrediction × Option μ),
      DraftModel.draftBatch requests (⟨answering next verify⟩ : GreedyDraftModel μ (StatelessBackend φ)) =
        (.ok (drafts.map (·.1)), drafts.map (·.2), ⟨answering next verify⟩) ∧
      Forall₂ (fun r draft => DraftModel.draft r.context r.maxTokens r.matcher
        (⟨answering next verify⟩ : GreedyDraftModel μ (StatelessBackend φ)) =
          (.ok draft.1, draft.2, ⟨answering next verify⟩)) requests drafts := by
  let row (r : DraftRequest μ) := (step next)^[r.maxTokens] ⟨r.context, r.maxTokens, r.matcher, []⟩
  refine ⟨requests.map fun r => ((row r).results, (row r).matcher), ?_, ?_⟩
  case refine_1 =>
    have hrows : (requests.map fun r => (⟨r.context, r.maxTokens, r.matcher, []⟩ : DraftRow μ)).map
        (turn next)^[(requests.map (·.maxTokens)).max?.getD 0] = requests.map row := by
      rw [map_map]
      exact map_congr_left fun r hr => turn_iterate_max hr
    simp only [DraftModel.draftBatch, draftSteps_answering, hrows, map_map]
    rfl
  case refine_2 =>
    rw [forall₂_map_right_iff]
    exact forall₂_same.mpr fun r _ => draft_answering r.context r.maxTokens r.matcher

end GreedyDraftModel

namespace GreedyTargetModel

open StatelessBackend

theorem verifyBatch_answering (requests : List (VerifyRequest μ)) :
    ∃ verified : List (List VerifyStep × Option μ),
      TargetModel.verifyBatch requests (⟨answering next verify⟩ : GreedyTargetModel μ (StatelessBackend φ)) =
        (.ok (verified.map (·.1)), verified.map (·.2), ⟨answering next verify⟩) ∧
      Forall₂ (fun r steps => TargetModel.verify r.context r.drafted r.matcher
        (⟨answering next verify⟩ : GreedyTargetModel μ (StatelessBackend φ)) =
          (.ok steps.1, steps.2, ⟨answering next verify⟩)) requests verified := by
  refine ⟨requests.map fun r => verifySteps (verify r.context r.drafted) r.matcher, ?_, ?_⟩
  case refine_1 =>
    have hone (r : List TokenId × List TokenId) : CausalLmBackend.verifyLogits r.1 r.2 (answering next verify) =
        (.ok (verify r.1 r.2), answering next verify) := rfl
    have hbatch : CausalLmBackend.verifyLogitsBatch (requests.map fun r => (r.context, r.drafted))
        (answering next verify) = (.ok ((requests.map fun r => (r.context, r.drafted)).map fun r => verify r.1 r.2),
          answering next verify) :=
      collectEach_ok (fun r : List TokenId × List TokenId => verify r.1 r.2) hone _
    have hzip : zipWith verifySteps (requests.map fun r => verify r.context r.drafted) (requests.map (·.matcher)) =
        requests.map fun r => verifySteps (verify r.context r.drafted) r.matcher := by
      rw [zipWith_map, zipWith_self]
    have hdrop : (requests.map (·.matcher)).drop (requests.map fun r => verify r.context r.drafted).length = [] := by
      rw [length_map, ← length_map (·.matcher), drop_length]
    simp only [TargetModel.verifyBatch, hbatch, map_map, Function.comp_def] at hzip hdrop ⊢
    simp only [hzip, hdrop, append_nil, map_map, Function.comp_def]
  case refine_2 =>
    rw [forall₂_map_right_iff]
    exact forall₂_same.mpr fun _ _ => rfl

end GreedyTargetModel

-- The batched methods do what the others do for each request alone, and leave its matcher in the same state.
theorem batch_eq_each (next : List TokenId → TokenLogits φ) (verify : List TokenId → List TokenId → List (TokenLogits φ))
    (draftRequests : List (DraftRequest μ)) (verifyRequests : List (VerifyRequest μ)) :
    let d : GreedyDraftModel μ (StatelessBackend φ) := ⟨.answering next verify⟩
    let t : GreedyTargetModel μ (StatelessBackend φ) := ⟨.answering next verify⟩
    (∃ drafts : List (List NextTokenPrediction × Option μ),
      DraftModel.draftBatch draftRequests d = (.ok (drafts.map (·.1)), drafts.map (·.2), d) ∧
      Forall₂ (fun r draft => DraftModel.draft r.context r.maxTokens r.matcher d = (.ok draft.1, draft.2, d))
        draftRequests drafts) ∧
    ∃ verified : List (List VerifyStep × Option μ),
      TargetModel.verifyBatch verifyRequests t = (.ok (verified.map (·.1)), verified.map (·.2), t) ∧
      Forall₂ (fun r steps => TargetModel.verify r.context r.drafted r.matcher t = (.ok steps.1, steps.2, t))
        verifyRequests verified :=
  ⟨GreedyDraftModel.draftBatch_answering draftRequests, GreedyTargetModel.verifyBatch_answering verifyRequests⟩
