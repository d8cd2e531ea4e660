import Mathlib
import VeloCore.Objects.Speculative.Theorems.Decoder

open List

namespace SpeculativeDecoder

variable {μ δ τ : Type} [DraftModel μ δ] [TargetModel μ τ] {decoder : SpeculativeDecoder} {f : List TokenId → TokenId}
  {prompt : List TokenId} {D : δ → Prop} {T : τ → Prop} {n k : Nat}

-- The window after `k` rounds in which everything was accepted.
def windowAfter (decoder : SpeculativeDecoder) (k : Nat) : Nat :=
  min (decoder.draftWindow + k) (max decoder.draftWindow decoder.maxWindow)

-- How many tokens `k` such rounds come to, with full windows.
def reach (decoder : SpeculativeDecoder) : Nat → Nat
  | 0     => 0
  | k + 1 => decoder.reach k + decoder.windowAfter k

theorem draftWindow_le_windowAfter : decoder.draftWindow ≤ decoder.windowAfter k := by
  simp only [windowAfter]
  omega

theorem mul_le_reach : k * decoder.draftWindow ≤ decoder.reach k := by
  induction k
  case zero => simp [reach]
  case succ k hi =>
    rw [Nat.succ_mul, reach]
    exact Nat.add_le_add hi draftWindow_le_windowAfter

theorem windowAfter_succ : decoder.windowAfter (k + 1) =
    if decoder.windowAfter k < decoder.maxWindow then decoder.windowAfter k + 1 else decoder.windowAfter k := by
  by_cases h : decoder.windowAfter k < decoder.maxWindow
  case pos =>
    rw [if_pos h]
    simp only [windowAfter] at h ⊢
    omega
  case neg =>
    rw [if_neg h]
    simp only [windowAfter] at h ⊢
    omega

-- The draft guesses what the target chooses, as many tokens as it is asked for, up to the `n`th token after the prompt.
structure Agreeing (f : List TokenId → TokenId) (prompt : List TokenId) (n : Nat) (D : δ → Prop) (T : τ → Prop) : Prop where
  draft  : ∀ d k w, D d → k + w ≤ n → ∃ m d', D d' ∧ DraftModel.draft (prompt ++ greedy f prompt k) w none d =
    (.ok ((greedy f (prompt ++ greedy f prompt k) w).map .mk), m, d')
  verify : ∀ t k w, T t → k + w ≤ n → ∃ m t', T t' ∧
    TargetModel.verify (prompt ++ greedy f prompt k) (greedy f (prompt ++ greedy f prompt k) w) none t =
      (.ok ((greedy f (prompt ++ greedy f prompt k) w).map .mk), m, t')

-- The session and the tokens after `k` rounds.
def after (decoder : SpeculativeDecoder) (f : List TokenId → TokenId) (prompt : List TokenId) (n k : Nat) :
    SpeculativeSession × List TokenId :=
  let generated := greedy f prompt (min n (decoder.reach k))
  ({ draftWindow := decoder.windowAfter k
     maxWindow := decoder.maxWindow
     prompt
     context := prompt ++ generated
     stats := ⟨k, k, generated.length, generated.length, 0⟩
     rejectedToken := none }, generated)

theorem after_zero : decoder.after f prompt n 0 = (decoder.begin prompt, []) := by
  simp only [after, reach, Nat.min_zero, greedy, append_nil, length_nil, begin, windowAfter, Nat.add_zero]
  congr
  omega

theorem resolve_self {s : SpeculativeSession} {drafted : List TokenId} (hpos : 0 < drafted.length) :
    s.resolve drafted (drafted.map .mk) = (drafted, { s with
      draftWindow := if s.draftWindow < s.maxWindow then s.draftWindow + 1 else s.draftWindow
      context := s.context ++ drafted
      stats := { s.stats with acceptedTokens := s.stats.acceptedTokens + drafted.length }
      rejectedToken := none }) := by
  have hcompare : SpeculativeSession.compare 0 0 drafted (drafted.map .mk) = (drafted.length, none) := by
    have hself : commonPrefixLen drafted drafted = drafted.length := commonPrefixLen_eq_length_iff.mpr (prefix_refl drafted)
    rw [SpeculativeSession.compare_eq (by simp)]
    simp [Function.comp_def, hself]
  simp only [SpeculativeSession.resolve, hcompare, take_length, SpeculativeSession.accept, hpos, ↓reduceIte,
    SpeculativeSession.reject, SpeculativeSession.adjustWindow]
  split <;> rfl

-- A round accepts all that was drafted.
theorem iteration_agreeing (ha : Agreeing f prompt n D T) (hlt : decoder.reach k < n) {m : Models δ τ} (hD : D m.draft)
    (hT : T m.target) : ∃ m', D m'.draft ∧ T m'.target ∧
      iteration n (decoder.after f prompt n k) m = (.ok (.inl (decoder.after f prompt n (k + 1))), m') := by
  set w := min (n - decoder.reach k) (decoder.windowAfter k) with hw
  have hwindow := decoder.draftWindow_pos.trans_le (draftWindow_le_windowAfter (k := k))
  have hmin : min n (decoder.reach k) = decoder.reach k := min_eq_right hlt.le
  have hnext : min n (decoder.reach (k + 1)) = decoder.reach k + w := by
    rw [reach]
    omega
  obtain ⟨_, d, hD', hdraft⟩ := ha.draft m.draft (decoder.reach k) w hD (by omega)
  obtain ⟨_, t, hT', hverify⟩ := ha.verify m.target (decoder.reach k) w hT (by omega)
  refine ⟨⟨d, t⟩, hD', hT', ?_⟩
  set drafted := greedy f (prompt ++ greedy f prompt (decoder.reach k)) w with hdrafted
  have hlen : drafted.length = w := greedy_length
  have hadd : greedy f prompt (decoder.reach k + w) = greedy f prompt (decoder.reach k) ++ drafted := greedy_add
  have hempty : (drafted.map NextTokenPrediction.mk).isEmpty = false := by
    cases hcases : drafted
    case nil => rw [hcases, length_nil] at hlen; omega
    case cons => rfl
  have htokens : (drafted.map NextTokenPrediction.mk).map (·.token) = drafted := by
    rw [map_map]
    exact map_id' drafted
  have hnil : drafted ≠ [] := by
    rintro heq
    rw [heq, length_nil] at hlen
    omega
  have hreached : (decoder.after f prompt n k).1.draft (n - decoder.reach k) m =
      (.ok drafted, (decoder.after f prompt n (k + 1)).1, ⟨d, t⟩) := by
    let s := (decoder.after f prompt n k).1
    have hcontext : s.context = prompt ++ greedy f prompt (decoder.reach k) := by simp only [s, after, hmin]
    have hd' : DraftModel.draft s.context (min (n - decoder.reach k) s.draftWindow) none m.draft = (.ok (drafted.map .mk), _, d) :=
      hcontext ▸ hdraft
    have ht' : TargetModel.verify (s.recordDraftCall.recordDrafted w).context drafted none m.target =
        (.ok (drafted.map .mk), _, t) := hcontext ▸ hverify
    have hle : ¬(drafted.map NextTokenPrediction.mk).length > min (n - decoder.reach k) s.draftWindow := by
      rw [length_map, hlen]
      exact lt_irrefl w
    have hsession : { (s.recordDraftCall.recordDrafted w).recordTargetCall with
        draftWindow := if s.draftWindow < s.maxWindow then s.draftWindow + 1 else s.draftWindow
        context := s.context ++ drafted
        stats := { (s.recordDraftCall.recordDrafted w).recordTargetCall.stats with
          acceptedTokens := (s.recordDraftCall.recordDrafted w).recordTargetCall.stats.acceptedTokens + drafted.length }
        rejectedToken := none } = (decoder.after f prompt n (k + 1)).1 := by
      simp only [s, after, SpeculativeSession.recordDraftCall, SpeculativeSession.recordDrafted,
        SpeculativeSession.recordTargetCall, hmin, hnext, hadd, windowAfter_succ, greedy_length, length_append, hlen,
        append_assoc]
    have hresolve := resolve_self (s := (s.recordDraftCall.recordDrafted w).recordTargetCall) (hlen ▸ (by omega) : 0 < drafted.length)
    simp only [SpeculativeSession.draft]
    rw [show (decoder.after f prompt n k).1 = s from rfl, hd']
    dsimp only
    rw [if_neg hle, if_neg (by simp [hempty]), htokens, hlen, ht']
    dsimp only
    rw [if_neg (by simp [hlen]), hresolve]
    exact congrArg (fun s => (Except.ok drafted, s, _)) hsession
  have hgenerated : (decoder.after f prompt n k).2.length = decoder.reach k := by simp only [after, greedy_length, hmin]
  have hpending : (decoder.after f prompt n (k + 1)).1.hasPendingRejection = false := rfl
  have hemitted : (decoder.after f prompt n k).2 ++ drafted = (decoder.after f prompt n (k + 1)).2 := by
    simp only [after, hmin, hnext, hadd]
  have hempty' : drafted.isEmpty = false := by simpa using hnil
  simp only [iteration, hgenerated, hlt, ↓reduceIte, hreached, hpending, hempty', Bool.false_and, Bool.false_eq_true,
    Bool.not_false, hemitted]

theorem reach_mono {i j : Nat} (h : i ≤ j) : decoder.reach i ≤ decoder.reach j := by
  induction j, h using Nat.le_induction
  case base          => exact le_rfl
  case succ j _ hle  => exact hle.trans (Nat.le_add_right ..)

-- The number of rounds is the least with which the windows come to `n` tokens.
theorem exists_rounds (decoder : SpeculativeDecoder) (n : Nat) : ∃ rounds, ∀ k, k < rounds ↔ decoder.reach k < n := by
  have hex : ∃ k, n ≤ decoder.reach k :=
    ⟨n, (Nat.le_mul_of_pos_right n decoder.draftWindow_pos).trans mul_le_reach⟩
  refine ⟨Nat.find hex, fun k => ⟨fun hlt => Nat.lt_of_not_le (Nat.find_min hex hlt), fun hlt => ?_⟩⟩
  by_contra hge
  exact absurd ((Nat.find_spec hex).trans (reach_mono (Nat.le_of_not_lt hge))) (Nat.not_le.mpr hlt)

theorem rounds_le {rounds : Nat} (h : ∀ k, k < rounds ↔ decoder.reach k < n) :
    rounds ≤ n ∧ rounds * decoder.draftWindow < n + decoder.draftWindow := by
  have hpos := decoder.draftWindow_pos
  cases rounds
  case zero => exact ⟨Nat.zero_le n, by omega⟩
  case succ k =>
    have hlt : k * decoder.draftWindow < n := mul_le_reach.trans_lt ((h k).mp (Nat.lt_succ_self k))
    have hle : k ≤ k * decoder.draftWindow := Nat.le_mul_of_pos_right k hpos
    rw [Nat.succ_mul]
    omega

theorem loop_agreeing (ha : Agreeing f prompt n D T) {rounds fuel : Nat} (hr : ∀ k, k < rounds ↔ decoder.reach k < n)
    (hk : k ≤ rounds) (hfuel : rounds - k < fuel) {m : Models δ τ} (hD : D m.draft) (hT : T m.target) :
    ∃ m', Eff.loop (iteration n) fuel (decoder.after f prompt n k) m = (.ok (decoder.after f prompt n rounds), m') := by
  -- Each round leaves one less to go.
  induction fuel generalizing k m
  case zero => exact absurd hfuel (Nat.not_lt_zero _)
  case succ fuel hi =>
    by_cases hlt : k < rounds
    case pos =>
      obtain ⟨m₁, hD', hT', hit⟩ := iteration_agreeing ha ((hr k).mp hlt) hD hT
      obtain ⟨m', hl⟩ := hi (Nat.succ_le_of_lt hlt) (by omega) hD' hT'
      exact ⟨m', (Eff.loop_succ_next hit).trans hl⟩
    case neg =>
      obtain rfl : k = rounds := Nat.le_antisymm hk (Nat.le_of_not_lt hlt)
      have hdone : ¬(decoder.after f prompt n k).2.length < n := by
        have hge : n ≤ decoder.reach k := Nat.le_of_not_lt fun h => absurd ((hr k).mpr h) hlt
        simp only [after, greedy_length]
        omega
      have hit : iteration n (decoder.after f prompt n k) m = (.ok (.inr (decoder.after f prompt n k)), m) := by
        simp only [iteration, hdone, ↓reduceIte]
        rfl
      exact ⟨m, Eff.loop_succ_exit hit⟩

theorem after_rounds {rounds : Nat} (hr : ∀ k, k < rounds ↔ decoder.reach k < n) :
    (decoder.after f prompt n rounds).2 = greedy f prompt n ∧
      (decoder.after f prompt n rounds).1.stats = ⟨rounds, rounds, n, n, 0⟩ := by
  have hge : n ≤ decoder.reach rounds := Nat.le_of_not_lt fun h => absurd ((hr rounds).mpr h) (lt_irrefl rounds)
  simp only [after, min_eq_left hge, greedy_length, and_self]

-- With a draft that guesses right, all is accepted, and the calls of the models are the least number of windows that
-- come to `n` tokens, where each window is one larger than the one before, up to the largest.
theorem generate_agreeing (ha : Agreeing f prompt n D T) (decoder : SpeculativeDecoder) (m : Models δ τ) (hD : D m.draft)
    (hT : T m.target) (hfuel : n < fuel) : ∃ rounds m',
      decoder.generate fuel prompt n m = (.ok ⟨greedy f prompt n, ⟨rounds, rounds, n, n, 0⟩⟩, m') ∧
      (∀ k, k < rounds ↔ decoder.reach k < n) ∧ rounds * decoder.draftWindow < n + decoder.draftWindow := by
  obtain ⟨rounds, hr⟩ := exists_rounds decoder n
  obtain ⟨hle, hfew⟩ := rounds_le hr
  obtain ⟨m', hl⟩ : ∃ m', Eff.loop (iteration n) fuel (decoder.after f prompt n 0) m =
      (.ok (decoder.after f prompt n rounds), m') := loop_agreeing ha hr (Nat.zero_le rounds) (by omega) hD hT
  rw [after_zero] at hl
  refine ⟨rounds, m', (Eff.bind_ok hl).trans ?_, hr, hfew⟩
  obtain ⟨htokens, hstats⟩ : (decoder.after f prompt n rounds).2 = greedy f prompt n ∧
    (decoder.after f prompt n rounds).1.stats = ⟨rounds, rounds, n, n, 0⟩ := after_rounds hr
  dsimp only
  rw [htokens, hstats]
  rfl

theorem expectedAfter_greedy {ctx : List TokenId} : expectedAfter f ctx (greedy f ctx w) = greedy f ctx w := by
  refine ext_getElem (by simp) fun i hi hi' => ?_
  have hfollows : Follows f ctx (greedy f ctx w) := follows_greedy
  rw [follows_iff_getElem.mp hfollows i hi']
  simp [expectedAfter]

theorem agreeing_guesser (f : List TokenId → TokenId) (prompt : List TokenId) (n : Nat) :
    Agreeing f prompt n (fun _ : Guesser f => True) fun _ : Oracle f => True where
  draft d k w _ _  := ⟨none, d, trivial, rfl⟩
  verify t k w _ _ := by
    refine ⟨none, ⟨t.calls + 1⟩, trivial, ?_⟩
    simp only [TargetModel.verify, expectedAfter_greedy]

-- Windows of two, three and four tokens.
theorem generate_agreeing_nine : ∃ rounds m',
    SpeculativeDecoder.generate 10 ⟨2, 4, by decide⟩ [1, 2] 9 (⟨⟨⟩, ⟨0⟩⟩ : Models (Guesser List.sum) (Oracle List.sum)) =
      (.ok ⟨greedy List.sum [1, 2] 9, ⟨rounds, rounds, 9, 9, 0⟩⟩, m') ∧
      (∀ k, k < rounds ↔ reach ⟨2, 4, by decide⟩ k < 9) ∧ rounds * 2 < 9 + 2 :=
  generate_agreeing (agreeing_guesser List.sum [1, 2] 9) ⟨2, 4, by decide⟩ _ trivial trivial (by decide)

end SpeculativeDecoder
