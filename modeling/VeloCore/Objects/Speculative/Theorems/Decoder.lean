import VeloCore.Objects.Speculative.Decoder
import VeloCore.Objects.Speculative.Theorems.Session
import VeloCore.Objects.Speculative.Theorems.Batch

open List

namespace SpeculativeDecoder

variable {μ δ τ : Type} [DraftModel μ δ] [TargetModel μ τ] {f : List TokenId → TokenId}

-- One call of `SpeculativeSession::draft` with models that do their part.
theorem draft_emits (hd : DraftModel.Answers δ) (ht : TargetModel.VerifiesBy τ f)
    {s : SpeculativeSession} (hw : 0 < s.draftWindow) (hn : 0 < n) (m : Models δ τ) :
    ∃ drafted accepted s' m', s.draft n m = (.ok accepted, s', m') ∧ 0 < drafted ∧ drafted ≤ n ∧
      s.Emits f drafted accepted s' ∧ s'.stats.targetCalls = s.stats.targetCalls + 1 ∧
      ∀ calls : τ → Nat, TargetModel.Counts calls → calls m'.target = calls m.target + 1 := by
  obtain ⟨predictions, _, d, hd, hpos, hle⟩ := hd m.draft s.context (min n s.draftWindow) (by omega)
  obtain ⟨verified, m₁, t, ht, hv⟩ := ht m.target s.context (predictions.map (·.token))
  have hlen : verified.length = predictions.length := by simpa using congrArg length hv
  let s₁ := (s.recordDraftCall.recordDrafted predictions.length).recordTargetCall
  have e := SpeculativeSession.resolve_emits (s := s₁) hv
  refine ⟨predictions.length, _, _, ⟨d, t⟩, ?_, hpos, by omega,
    ⟨e.prompt, e.context, e.follows, by simpa using e.length_le, by simpa using e.progress, e.window⟩,
    SpeculativeSession.resolve_targetCalls, fun calls hc => ?_⟩
  case refine_1 =>
    have hne : predictions.isEmpty = false := by simpa using length_pos_iff.mp hpos
    have ht' : TargetModel.verify (s.recordDraftCall.recordDrafted predictions.length).context
        (predictions.map (·.token)) none m.target = (.ok verified, m₁, t) := ht
    simp only [SpeculativeSession.draft, hd, gt_iff_lt, Nat.not_lt.mpr hle, ↓reduceIte, hne,
      Bool.false_eq_true, length_map, ht', hlen, ne_eq, not_true_eq_false, s₁]
  case refine_2 =>
    have := hc s.context (predictions.map (·.token)) none m.target
    rwa [ht] at this

-- The loop invariant of `generate`: the session has seen exactly what was generated, all of it is
-- what the target chooses, and there were no more calls of the target than tokens.
structure Invariant (f : List TokenId → TokenId) (prompt : List TokenId) (n : Nat) (m₀ : Models δ τ)
    (v : SpeculativeSession × List TokenId) (m : Models δ τ) : Prop where
  window    : 0 < v.1.draftWindow
  context   : v.1.context = prompt ++ v.2
  follows   : Follows f prompt v.2
  length_le : v.2.length ≤ n
  stats     : v.1.stats.targetCalls ≤ v.2.length
  calls     : ∀ calls : τ → Nat, TargetModel.Counts calls →
    calls m.target ≤ calls m₀.target + v.2.length

-- One iteration appends the accepted tokens and the corrected one to `generated`.
theorem iteration_next (hd : DraftModel.Answers δ) (ht : TargetModel.VerifiesBy τ f)
    {v : SpeculativeSession × List TokenId} (hw : 0 < v.1.draftWindow) (hn : v.2.length < n)
    (m : Models δ τ) :
    ∃ drafted accepted s m', 0 < drafted ∧ drafted ≤ n - v.2.length ∧
      v.1.Emits f drafted accepted s ∧ s.stats.targetCalls = v.1.stats.targetCalls + 1 ∧
      (∀ calls : τ → Nat, TargetModel.Counts calls → calls m'.target = calls m.target + 1) ∧
      iteration n v m = (.ok (.inl
        ({ s with rejectedToken := none }, v.2 ++ SpeculativeSession.emitted accepted s)), m') := by
  obtain ⟨k, accepted, s, m', h, hk, hkn, e, hc, hcalls⟩ :=
    draft_emits hd ht hw (Nat.sub_pos_of_lt hn) m
  refine ⟨k, accepted, s, m', hk, hkn, e, hc, hcalls, ?_⟩
  have hne := e.progress hk
  obtain ⟨_, _, _, _, _, rejectedToken⟩ := s
  simp only [iteration, hn, ↓reduceIte, h, SpeculativeSession.hasPendingRejection,
    SpeculativeSession.takeRejectedToken, SpeculativeSession.emitted] at hne ⊢
  cases rejectedToken
  case none =>
    have : accepted ≠ [] := by simpa [length_pos_iff] using hne
    simp [this]
  case some t => simp

theorem iteration_step (hd : DraftModel.Answers δ) (ht : TargetModel.VerifiesBy τ f)
    (v : SpeculativeSession × List TokenId) (m : Models δ τ) (h : Invariant f prompt n m₀ v m) :
    Eff.Step
      (fun v' m' => Invariant f prompt n m₀ v' m' ∧ n - v'.2.length < n - v.2.length)
      (fun r m' => ∃ v', r = .ok v' ∧ Invariant f prompt n m₀ v' m' ∧ v'.2.length = n)
      (iteration n v m) := by
  by_cases hn : v.2.length < n
  case neg =>
    simp only [iteration, hn, ↓reduceIte]
    exact ⟨v, rfl, h, by have := h.length_le; omega⟩
  case pos =>
    obtain ⟨k, accepted, s, m', hk, hkn, e, hc, hcalls, hi⟩ := iteration_next hd ht h.window hn m
    have hpos := e.progress hk
    have hle := e.length_le
    rw [hi]
    refine ⟨⟨e.window h.window, ?_, ?_, ?_, ?_, fun calls hcnt => ?_⟩, ?_⟩
    case refine_1 => rw [e.context, h.context, append_assoc]
    case refine_2 => exact h.follows.append (h.context ▸ e.follows)
    case refine_3 => simp only [length_append]; omega
    case refine_4 => have := h.stats; simp only [length_append]; omega
    case refine_5 =>
      have := h.calls calls hcnt
      have := hcalls calls hcnt
      simp only [length_append]
      omega
    case refine_6 => simp only [length_append]; omega

-- Lossless speculative decoding.
theorem generate_follows_target (hd : DraftModel.Answers δ) (ht : TargetModel.VerifiesBy τ f)
    (decoder : SpeculativeDecoder) (prompt : List TokenId) (n : Nat) (m : Models δ τ)
    (hfuel : n < fuel) :
    ∃ out m', decoder.generate fuel prompt n m = (.ok out, m') ∧
      out.tokens.length = n ∧
      (∀ k (h : k < out.tokens.length), out.tokens[k] = f (prompt ++ out.tokens.take k)) ∧
      out.stats.targetCalls ≤ n ∧
      ∀ calls : τ → Nat, TargetModel.Counts calls → calls m'.target ≤ calls m.target + n := by
  have hinit : Invariant f prompt n m (decoder.begin prompt, []) m :=
    ⟨decoder.draftWindow_pos, by simp [begin], .nil, by simp, by simp [begin], by simp⟩
  have ⟨v, hr, inv, hlen⟩ := Eff.loop_total (V := fun v _ => n - v.2.length) (n := fuel)
    (iteration_step hd ht) hinit (by simpa using hfuel)
  generalize hl : Eff.loop (iteration n) fuel (decoder.begin prompt, []) m = r at hr inv
  obtain ⟨_, m'⟩ := r
  cases hr
  refine ⟨⟨v.2, v.1.stats⟩, m', ?_, hlen, ?_, hlen ▸ inv.stats, hlen ▸ inv.calls⟩
  case refine_1 => exact Eff.bind_ok hl
  case refine_2 => exact follows_iff_getElem.mp inv.follows

-- A draft that always guesses the token 7 and a target that counts up.
theorem generate_follows_target_counting :
    let decoder : SpeculativeDecoder := ⟨4, 8, by decide⟩
    let m : Models (Guesser fun _ => 7) (Oracle fun context => .ofNat context.length) := ⟨{}, {}⟩
    ∃ out m', decoder.generate 6 [1, 2] 5 m = (.ok out, m') ∧
      out.tokens.length = 5 ∧
      (∀ k (h : k < out.tokens.length),
        out.tokens[k] = .ofNat ([1, 2] ++ out.tokens.take k : List TokenId).length) ∧
      out.stats.targetCalls ≤ 5 ∧
      ∀ calls : Oracle _ → Nat, TargetModel.Counts calls → calls m'.target ≤ calls m.target + 5 :=
  generate_follows_target Guesser.answers Oracle.verifiesBy _ [1, 2] 5 _ (by decide)

end SpeculativeDecoder
