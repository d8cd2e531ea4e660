import Mathlib
import VeloCore.Objects.Backend.Mock
import VeloCore.Objects.Backend.Theorems.Samplers
import VeloCore.Objects.Speculative.Theorems.Agreeing

open List

variable {φ μ : Type} [LinearLogit φ] [Zero φ] [One φ] [CfgMatcher μ] {b : MockBackend φ} {token : TokenId}

theorem GreedySampler.best_replicate {n i : Nat} {maxLogit : φ} {maxToken : TokenId} (h01 : (0 : φ) ≤ 1) (h : maxLogit ≤ 0) :
    GreedySampler.best none (replicate n 0 ++ [1]) i maxLogit maxToken = UInt32.ofNat (i + n) := by
  induction n generalizing i maxLogit maxToken
  case zero => simp [GreedySampler.best, LinearLogit.ge_eq, h.trans h01]
  case succ n hi =>
    rw [replicate_succ, cons_append, GreedySampler.best]
    simp only [Option.any_none, Bool.false_eq_true, ↓reduceIte, LinearLogit.ge_eq, h, decide_true]
    rw [hi le_rfl, Nat.add_right_comm, Nat.add_assoc]

namespace MockBackend

omit [LinearLogit φ] in
theorem oneHot_isOk (token : TokenId) : ∃ logits : TokenLogits φ, oneHot token = .ok logits ∧
    logits.values = replicate token.toNat 0 ++ [1] := by
  have hvalues : (replicate (token.toNat + 1) (0 : φ)).set token.toNat 1 = replicate token.toNat 0 ++ [1] := by
    rw [replicate_succ']
    simp
  refine ⟨⟨replicate token.toNat 0 ++ [1], by simp⟩, ?_, rfl⟩
  rw [oneHot, hvalues]
  exact TokenLogits.new_eq_ok_iff.mpr rfl

-- The greedy samplers read the token back from its logits.
theorem sample_oneHot (h01 : (0 : φ) ≤ 1) {logits : TokenLogits φ} (h : oneHot token = .ok logits) :
    GreedySampler.sample logits.values none = ⟨token⟩ := by
  obtain ⟨logits', h', hvalues⟩ := oneHot_isOk (φ := φ) token
  cases h.symm.trans h'
  rw [hvalues, GreedySampler.sample, GreedySampler.best_replicate h01 (LinearLogit.negInfinity_le 0), Nat.zero_add,
    UInt32.ofNat_toNat]

end MockBackend

namespace MockBackend

-- The token that the script has after a context.
def scripted (script : List TokenId) (context : List TokenId) : TokenId :=
  (script[context.length]?).getD 0

-- The backend reads this script, without overrides.
def Reads (script : List TokenId) (b : MockBackend φ) : Prop :=
  b.script = script ∧ b.overrides = ∅

variable {script context : List TokenId}

omit [LinearLogit φ] [Zero φ] [One φ] in
theorem Reads.tokenAt (h : b.Reads script) (hlt : context.length < script.length) :
    b.tokenAt context.length = .ok (scripted script context) := by
  have hnone : b.overrides.lookup context.length = none := by rw [h.right, Finmap.lookup_empty]
  rw [MockBackend.tokenAt, hnone, h.left, scripted, getElem?_eq_getElem hlt]
  rfl

theorem Reads.logitsAt (h01 : (0 : φ) ≤ 1) (h : b.Reads script) (hlt : context.length < script.length) :
    ∃ logits, b.logitsAt context.length = .ok logits ∧ GreedySampler.sample logits.values none = ⟨scripted script context⟩ := by
  obtain ⟨logits, hlogits, _⟩ := oneHot_isOk (φ := φ) (scripted script context)
  refine ⟨logits, ?_, sample_oneHot h01 hlogits⟩
  rw [MockBackend.logitsAt, h.tokenAt hlt]
  exact hlogits

-- The draft writes down what comes next in the script.
theorem Reads.draftLoop (h01 : (0 : φ) ≤ 1) (h : b.Reads script) {w : Nat} {row : DraftRow μ} (hm : row.matcher = none)
    (hlen : row.context.length + w ≤ script.length) : ∃ row', GreedyDraftModel.draftLoop w row b = (.ok (), row', b) ∧
      row'.results = row.results ++ (greedy (scripted script) row.context w).map .mk := by
  induction w generalizing row
  case zero => exact ⟨row, rfl, by simp [greedy]⟩
  case succ w hi =>
    obtain ⟨logits, hlogits, hsample⟩ : ∃ logits, b.logitsAt row.context.length = .ok logits ∧
        GreedySampler.sample logits.values none = ⟨scripted script row.context⟩ := h.logitsAt h01 (by omega)
    have hpredict : row.predict logits = row.push ⟨scripted script row.context⟩ none := by
      simp only [DraftRow.predict, DraftRow.mask, hm, hsample]
    have hm' : (row.predict logits).matcher = none := by rw [hpredict]; rfl
    have hlen' : (row.predict logits).context.length + w ≤ script.length := by
      rw [hpredict]
      simp only [DraftRow.push, length_append, length_singleton]
      omega
    obtain ⟨row', hloop, hresults⟩ := hi hm' hlen'
    refine ⟨row', ?_, ?_⟩
    case refine_1 =>
      have hnext : CausalLmBackend.nextLogits row.context b = (.ok logits, b) := congrArg (·, b) hlogits
      rw [GreedyDraftModel.draftLoop, hnext]
      exact hloop
    case refine_2 =>
      rw [hresults, hpredict, greedy]
      simp [DraftRow.push]

theorem mapM_isOk {α β ε : Type} {g : α → Except ε β} {P : α → β → Prop} {l : List α}
    (h : ∀ a ∈ l, ∃ b, g a = .ok b ∧ P a b) : ∃ bs, l.mapM g = .ok bs ∧ Forall₂ P l bs := by
  induction l
  case nil => exact ⟨[], rfl, .nil⟩
  case cons a l hi =>
    obtain ⟨b, hb, hp⟩ := h a mem_cons_self
    obtain ⟨bs, hbs, hall⟩ := hi fun a' ha' => h a' (mem_cons_of_mem _ ha')
    refine ⟨b :: bs, ?_, .cons hp hall⟩
    rw [mapM_cons, hb, hbs]
    rfl

omit [Zero φ] [One φ] in
theorem verifySteps_none (rows : List (TokenLogits φ)) : GreedyTargetModel.verifySteps rows (none : Option μ) =
    (rows.map fun logits => ⟨(GreedySampler.sample logits.values none).token⟩, none) := by
  induction rows
  case nil              => rfl
  case cons logits _ hi => simp only [GreedyTargetModel.verifySteps, hi, map_cons]

-- The target chooses what comes next in the script, if the draft has guessed it so far.
theorem Reads.verify (h01 : (0 : φ) ≤ 1) (h : b.Reads script) {w : Nat} (hlen : context.length + w ≤ script.length) :
    TargetModel.verify context (greedy (scripted script) context w) none (⟨b⟩ : GreedyTargetModel μ (MockBackend φ)) =
      (.ok ((greedy (scripted script) context w).map .mk), none, ⟨b⟩) := by
  set drafted := greedy (scripted script) context w with hdrafted
  have hw : drafted.length = w := greedy_length
  obtain ⟨rows, hrows, hall⟩ := mapM_isOk (g := fun offset => b.logitsAt (context.length + offset)) (l := range drafted.length)
    (P := fun offset logits => GreedySampler.sample logits.values none =
      ⟨scripted script (context ++ drafted.take offset)⟩) fun offset hoffset => by
    have hlt : offset < drafted.length := mem_range.mp hoffset
    have hposition : (context ++ drafted.take offset).length = context.length + offset := by
      rw [length_append, length_take, min_eq_left hlt.le]
    rw [← hposition]
    exact h.logitsAt h01 (by omega)
  have hverify : CausalLmBackend.verifyLogits context drafted b = (.ok rows, b) := congrArg (·, b) hrows
  obtain ⟨hlength, hget⟩ := forall₂_iff_get.mp hall
  rw [length_range] at hlength
  have hsteps : rows.map (fun logits => VerifyStep.mk (GreedySampler.sample logits.values none).token) = drafted.map .mk := by
    refine ext_getElem (by rw [length_map, length_map, hlength]) fun i hi hi' => ?_
    rw [length_map] at hi hi'
    have hsample := hget i (by rwa [length_range]) hi
    have hfollows : Follows (scripted script) context drafted := follows_greedy
    have hnext := follows_iff_getElem.mp hfollows i hi'
    simp only [get_eq_getElem, getElem_range] at hsample
    rw [getElem_map, getElem_map, hsample]
    exact congrArg VerifyStep.mk hnext.symm
  simp only [TargetModel.verify, hverify, verifySteps_none, hsteps]

end MockBackend

namespace SpeculativeDecoder

open MockBackend

-- A draft and a target that read the same script agree, as far as the script goes.
theorem agreeing_mock (h01 : (0 : φ) ≤ 1) {script prompt : List TokenId} {n : Nat} (hlen : prompt.length + n ≤ script.length) :
    Agreeing (scripted script) prompt n (fun d : GreedyDraftModel μ (MockBackend φ) => d.backend.Reads script)
      fun t : GreedyTargetModel μ (MockBackend φ) => t.backend.Reads script where
  draft d k w hd hk := by
    have hcontext : (prompt ++ greedy (scripted script) prompt k).length + w ≤ script.length := by
      rw [length_append, greedy_length]
      omega
    obtain ⟨row', hloop, hresults⟩ :=
      hd.draftLoop h01 (rfl : (⟨prompt ++ greedy (scripted script) prompt k, w, none, []⟩ : DraftRow μ).matcher = none) hcontext
    refine ⟨row'.matcher, d, hd, ?_⟩
    simp only [DraftModel.draft, hloop, hresults, nil_append]
    rfl
  verify t k w ht hk := by
    refine ⟨none, t, ht, ht.verify h01 ?_⟩
    rw [length_append, greedy_length]
    omega

end SpeculativeDecoder
