import VeloCore.Objects.Backend.Greedy

open List

namespace CfgMatcher

variable {μ : Type} [CfgMatcher μ] {m : μ}

-- The state that is reached by consuming the tokens.
def consume (m : μ) (tokens : List TokenId) : μ :=
  tokens.foldl (fun m token => advance token m) m

theorem consume_append : consume m (l ++ r) = consume (consume m l) r :=
  foldl_append

def Allows (m : μ) (token : TokenId) : Prop :=
  (nextMask m).1[token.toNat]? = some true

-- Every token is allowed by the mask of the state before it.
def Accepts (m : μ) : List TokenId → Prop
  | []              => True
  | token :: tokens => Allows m token ∧ Accepts (advance token m) tokens

theorem accepts_append : Accepts m (l ++ r) ↔ Accepts m l ∧ Accepts (consume m l) r := by
  induction l generalizing m
  case nil            => simp [Accepts, consume]
  case cons t l hi    => simp [Accepts, hi, consume, and_assoc]

end CfgMatcher

namespace GreedySampler

variable {φ : Type} [Logit φ] {mask : LogitMask}

-- There is a token for the sampler to choose: one that the mask allows and whose logit can be compared.
def Choosable (logits : List φ) (mask : LogitMask) : Prop :=
  logits.length ≤ 2 ^ 32 ∧
    ∃ (i : Nat) (logit : φ), logits[i]? = some logit ∧ mask[i]? = some true ∧ Logit.ge logit Logit.negInfinity

-- Once a token has been chosen, it only gives way to another one that the mask allows.
theorem best_allowed {logits : List φ} (hlen : i + logits.length ≤ 2 ^ 32)
    (h : mask[token.toNat]? = some true ∨ maxLogit = Logit.negInfinity ∧
      ∃ (j : Nat) (logit : φ), logits[j]? = some logit ∧ mask[i + j]? = some true ∧ Logit.ge logit Logit.negInfinity) :
    mask[(best (some mask) logits i maxLogit token).toNat]? = some true := by
  induction logits generalizing i maxLogit token
  case nil => simpa [best] using h
  case cons logit logits hi =>
    rw [length_cons] at hlen
    unfold best
    split
    case isTrue hmasked =>
      have hne : mask[i]? ≠ some true := by
        intro ht
        simp [ht] at hmasked
      refine hi (by omega) <| h.imp_right fun ⟨hmax, j, logit', hj, hm, hge⟩ => ⟨hmax, ?_⟩
      cases j
      case zero   => exact absurd hm hne
      case succ j => exact ⟨j, logit', hj, Nat.add_right_comm i 1 j ▸ hm, hge⟩
    case isFalse hallowed =>
      have hi' : mask[i]? = some true := by
        cases hm : mask[i]?
        case none   => simp [hm] at hallowed
        case some b => simpa [hm] using hallowed
      split
      case isTrue =>
        refine hi (by omega) (.inl ?_)
        rwa [UInt32.toNat_ofNat_of_lt' (by simp [UInt32.size]; omega)]
      case isFalse hlt =>
        refine hi (by omega) <| h.imp_right fun ⟨hmax, j, logit', hj, hm, hge⟩ => ⟨hmax, ?_⟩
        cases j
        case zero =>
          cases hj
          exact absurd (hmax ▸ hge) hlt
        case succ j => exact ⟨j, logit', hj, Nat.add_right_comm i 1 j ▸ hm, hge⟩

theorem sample_allowed {logits : List φ} (h : Choosable logits mask) :
    mask[(sample logits (some mask)).token.toNat]? = some true := by
  have ⟨hlen, j, logit, hj, hm, hge⟩ := h
  exact best_allowed (by omega) (.inr ⟨rfl, j, logit, hj, by simpa using hm, hge⟩)

end GreedySampler

namespace GreedyTargetModel

variable {φ μ : Type} [Logit φ] [CfgMatcher μ] {m : μ}

open CfgMatcher

-- The tokens that the target chooses for the rows of logits.
def chosen (rows : List (TokenLogits φ)) (m : μ) : List TokenId :=
  (verifySteps rows (some m)).1.map (·.expected)

-- In every state on the way there is a token to choose.
def Offers : List (TokenLogits φ) → μ → Prop
  | [], _             => True
  | logits :: rows, m => GreedySampler.Choosable logits.values (nextMask m).1 ∧
      Offers rows (advance (GreedySampler.sample logits.values (some (nextMask m).1)).token m)

@[simp]
theorem verifySteps_length {rows : List (TokenLogits φ)} {matcher : Option μ} :
    (verifySteps rows matcher).1.length = rows.length := by
  induction rows generalizing matcher
  case nil => rfl
  case cons logits rows hi => cases matcher <;> simp [verifySteps, hi]

section Deterministic

variable (hstate : ∀ m : μ, (nextMask m).2 = m)
include hstate

-- The matcher has consumed whatever was chosen, committed or not.
theorem verifySteps_matcher (rows : List (TokenLogits φ)) (m : μ) :
    (verifySteps rows (some m)).2 = some (consume m (chosen rows m)) := by
  induction rows generalizing m
  case nil => rfl
  case cons logits rows hi =>
    simp only [verifySteps, chosen, hstate, map_cons, hi]
    rfl

theorem chosen_accepted {rows : List (TokenLogits φ)} (h : Offers rows m) : Accepts m (chosen rows m) := by
  induction rows generalizing m
  case nil => trivial
  case cons logits rows hi =>
    simp only [chosen, verifySteps, hstate, map_cons]
    exact ⟨GreedySampler.sample_allowed h.left, hi h.right⟩

end Deterministic
end GreedyTargetModel
