import VeloCore.Primitives.Prefix

open List

variable {α : Type*} {f : List α → α} {ctx l l₁ l₂ : List α}

-- The first `n` elements of the sequence that `f` appends to `ctx` one by one.
def greedy (f : List α → α) : List α → Nat → List α
  | _, 0       => []
  | ctx, n + 1 => f ctx :: greedy f (ctx ++ [f ctx]) n

@[simp]
theorem greedy_length : (greedy f ctx n).length = n := by
  induction n generalizing ctx
  case zero    => rfl
  case succ hi => simp [greedy, hi]

theorem greedy_add :
    greedy f ctx (m + n) = greedy f ctx m ++ greedy f (ctx ++ greedy f ctx m) n := by
  induction m generalizing ctx
  case zero      => simp [greedy]
  case succ m hi => simp [Nat.succ_add, greedy, hi]

theorem greedy_one : greedy f ctx 1 = [f ctx] :=
  rfl

theorem take_greedy (h : m ≤ n) : (greedy f ctx n).take m = greedy f ctx m := by
  obtain ⟨k, rfl⟩ := Nat.exists_eq_add_of_le h
  rw [greedy_add, take_left' greedy_length]

-- Every element of `l` is the one that `f` chooses after `ctx` and the elements before it.
def Follows (f : List α → α) (ctx l : List α) : Prop :=
  l = greedy f ctx l.length

theorem follows_greedy : Follows f ctx (greedy f ctx n) := by
  simp [Follows]

namespace Follows

theorem nil : Follows f ctx [] :=
  rfl

theorem single : Follows f ctx [f ctx] :=
  rfl

theorem append (h₁ : Follows f ctx l₁) (h₂ : Follows f (ctx ++ l₁) l₂) :
    Follows f ctx (l₁ ++ l₂) := by
  rw [Follows, length_append, greedy_add, ← h₁, ← h₂]

theorem of_isPrefix (h : Follows f ctx l₂) (hp : l₁ <+: l₂) : Follows f ctx l₁ := by
  rw [Follows, ← take_greedy hp.length_le, ← h]
  exact prefix_iff_eq_take.mp hp

theorem of_append (h : Follows f ctx (l₁ ++ l₂)) : Follows f ctx l₁ :=
  h.of_isPrefix (prefix_append ..)

end Follows

theorem follows_append_iff :
    Follows f ctx (l₁ ++ l₂) ↔ Follows f ctx l₁ ∧ Follows f (ctx ++ l₁) l₂ where
  mp h := by
    have h₁ := h.of_append
    refine ⟨h₁, ?_⟩
    rw [Follows, length_append, greedy_add, ← h₁] at h
    exact append_cancel_left h
  mpr h := h.left.append h.right

theorem follows_iff_getElem :
    Follows f ctx l ↔ ∀ k (h : k < l.length), l[k] = f (ctx ++ l.take k) := by
  induction l using reverseRecOn
  case nil => simp [Follows.nil]
  case append_singleton l a hi =>
    have hs : Follows f (ctx ++ l) [a] ↔ a = f (ctx ++ l) := by simp [Follows, greedy]
    rw [follows_append_iff, hi, hs]
    constructor
    · rintro ⟨hl, ha⟩ k hk
      rw [length_append, length_singleton, Nat.lt_succ_iff] at hk
      rcases hk.lt_or_eq with hk | rfl
      · rw [getElem_append_left hk, hl k hk, take_append_of_le_length hk.le]
      · simpa using ha
    · intro h
      refine ⟨fun k hk => ?_, by simpa using h l.length (by simp)⟩
      have := h k (by simp; omega)
      rwa [getElem_append_left hk, take_append_of_le_length hk.le] at this

section Agreement

variable {drafted : List α}

-- The choices of `f` after `ctx` followed by each of the leading parts of `drafted`.
def expectedAfter (f : List α → α) (ctx drafted : List α) : List α :=
  (range drafted.length).map fun i => f (ctx ++ drafted.take i)

@[simp]
theorem expectedAfter_length : (expectedAfter f ctx drafted).length = drafted.length := by
  simp [expectedAfter]

theorem expectedAfter_getElem? (h : i < drafted.length) :
    (expectedAfter f ctx drafted)[i]? = some (f (ctx ++ drafted.take i)) := by
  simp [expectedAfter, h]

-- The part of a draft that `f` agrees with is what `f` would have written itself.
theorem follows_take_commonPrefixLen [DecidableEq α] :
    Follows f ctx (drafted.take (commonPrefixLen drafted (expectedAfter f ctx drafted))) := by
  rw [follows_iff_getElem]
  intro k hk
  have hlen := commonPrefixLen_le_left (l := drafted) (r := expectedAfter f ctx drafted)
  simp only [length_take, lt_inf_iff] at hk
  have ht := congrArg (·[k]?) <| take_commonPrefixLen (l := drafted) (r := expectedAfter f ctx drafted)
  simp only [getElem?_take, hk.left, ↓reduceIte, expectedAfter_getElem? hk.right] at ht
  rw [getElem_take, take_take, min_eq_left hk.left.le]
  rw [getElem?_eq_getElem hk.right] at ht
  exact Option.some.inj ht

end Agreement
