import Mathlib.Tactic

open List

section CommonPrefix

variable {α : Type*} [DecidableEq α] {l r : List α}

-- The number of leading elements on which two lists agree.
def commonPrefixLen (left right : List α) : Nat :=
  ((left.zip right).takeWhile fun (l, r) => l == r).length

@[simp]
theorem commonPrefixLen_nil_left : commonPrefixLen [] r = 0 :=
  rfl

@[simp]
theorem commonPrefixLen_nil_right : commonPrefixLen l [] = 0 := by
  simp [commonPrefixLen]

theorem commonPrefixLen_cons (a b : α) (l r : List α) :
    commonPrefixLen (a :: l) (b :: r) = if a = b then commonPrefixLen l r + 1 else 0 := by
  by_cases h : a = b <;> simp [commonPrefixLen, h]

theorem commonPrefixLen_le_left : commonPrefixLen l r ≤ l.length := by
  induction l generalizing r <;> cases r
  case cons.cons a l hi b r =>
    rw [commonPrefixLen_cons]
    split <;> simp [hi]
  all_goals simp

theorem commonPrefixLen_comm : commonPrefixLen l r = commonPrefixLen r l := by
  induction l generalizing r <;> cases r
  case cons.cons a l hi b r => simp [commonPrefixLen_cons, hi, eq_comm]
  all_goals simp

theorem commonPrefixLen_le_right : commonPrefixLen l r ≤ r.length :=
  commonPrefixLen_comm (l := l) ▸ commonPrefixLen_le_left

theorem take_commonPrefixLen : l.take (commonPrefixLen l r) = r.take (commonPrefixLen l r) := by
  induction l generalizing r <;> cases r
  case cons.cons a l hi b r =>
    rw [commonPrefixLen_cons]
    split
    case isTrue h => simp [h, hi]
    case isFalse => simp
  all_goals simp

theorem getElem?_commonPrefixLen_ne
    (hl : commonPrefixLen l r < l.length) (hr : commonPrefixLen l r < r.length) :
    l[commonPrefixLen l r]? ≠ r[commonPrefixLen l r]? := by
  induction l generalizing r <;> cases r <;> simp at hl hr
  case cons.cons a l hi b r =>
    rw [commonPrefixLen_cons] at hl hr ⊢
    split
    case isFalse h => simp [h]
    case isTrue h =>
      simp only [h, ↓reduceIte] at hl hr
      simpa using hi hl hr

theorem commonPrefixLen_pos (h : a = b) : 0 < commonPrefixLen (a :: l) (b :: r) := by
  simp [commonPrefixLen_cons, h]

theorem succ_le_commonPrefixLen_iff :
    n + 1 ≤ commonPrefixLen l r ↔ n ≤ commonPrefixLen l r ∧ ∃ a, l[n]? = some a ∧ r[n]? = some a := by
  induction n generalizing l r <;> cases l <;> cases r
  case zero.cons.cons a l b r =>
    rw [commonPrefixLen_cons]
    split <;> simp_all [eq_comm]
  case succ.cons.cons n hi a l b r =>
    rw [commonPrefixLen_cons]
    split
    case isTrue => simpa using hi
    case isFalse => simp
  all_goals simp

-- The common prefix ends where the lists differ for the first time.
theorem commonPrefixLen_eq_of_take_eq (hle : n ≤ l.length) (htake : l.take n = r.take n) (hne : l[n]? ≠ r[n]?) :
    commonPrefixLen l r = n := by
  induction n generalizing l r <;> cases l <;> cases r
  case zero.cons.cons a l b r =>
    rw [commonPrefixLen_cons, if_neg (by simpa using hne)]
  case succ.cons.cons n hi a l b r =>
    have ⟨hab, htake⟩ := cons_eq_cons.mp htake
    rw [commonPrefixLen_cons, if_pos hab, hi (by simpa using hle) htake (by simpa using hne)]
  all_goals simp at hle htake ⊢

-- The common prefix is all of `r` exactly when `l` goes on from `r`.
theorem commonPrefixLen_eq_length_iff : commonPrefixLen l r = r.length ↔ r <+: l where
  mp h := by
    have := take_commonPrefixLen (l := l) (r := r)
    rw [h, take_length] at this
    exact this ▸ take_prefix ..
  mpr := by
    rintro ⟨t, rfl⟩
    induction r
    case nil => simp
    case cons hi => simp [commonPrefixLen_cons, hi]

end CommonPrefix

section LongestPrefix

variable {α β : Type*} {m : List α → Option β} {l : List α}

-- The longest key of the partial map `m` among the first `n` prefixes of `l`.
def longestPrefixUpTo (m : List α → Option β) (l : List α) : Nat → Option (Nat × β)
  | 0     => (m []).map (0, ·)
  | n + 1 =>
    match m (l.take (n + 1)) with
    | some b => some (n + 1, b)
    | none   => longestPrefixUpTo m l n

-- The longest key of the partial map `m` that is a prefix of `l`, by its length, and its value.
def longestPrefix (m : List α → Option β) (l : List α) : Option (Nat × β) :=
  longestPrefixUpTo m l l.length

theorem longestPrefixUpTo_eq_some_iff :
    longestPrefixUpTo m l n = some (k, b) ↔
      k ≤ n ∧ m (l.take k) = some b ∧ ∀ j, k < j → j ≤ n → m (l.take j) = none := by
  induction n
  case zero =>
    simp only [longestPrefixUpTo, Option.map_eq_some_iff, Prod.mk.injEq, nonpos_iff_eq_zero]
    constructor
    · rintro ⟨_, h, rfl, rfl⟩
      exact ⟨rfl, by simpa using h, by omega⟩
    · rintro ⟨rfl, h, -⟩
      exact ⟨b, by simpa using h, rfl, rfl⟩
  case succ n hi =>
    rw [longestPrefixUpTo]
    split
    case h_1 b' h =>
      simp only [Option.some.injEq, Prod.mk.injEq]
      constructor
      · rintro ⟨rfl, rfl⟩
        exact ⟨le_rfl, h, by omega⟩
      · rintro ⟨hk, hb, hj⟩
        by_cases hkn : k = n + 1
        case pos => subst hkn; exact ⟨rfl, by simpa [h] using hb⟩
        case neg => simp [hj (n + 1) (by omega) le_rfl] at h
    case h_2 h =>
      rw [hi]
      constructor
      · rintro ⟨hk, hb, hj⟩
        refine ⟨by omega, hb, fun j hkj hjn => ?_⟩
        rcases Nat.le_succ_iff.mp hjn with hjn | rfl
        · exact hj j hkj hjn
        · exact h
      · rintro ⟨hk, hb, hj⟩
        have hne : k ≠ n + 1 := by rintro rfl; simp [h] at hb
        exact ⟨by omega, hb, fun j hkj hjn => hj j hkj (by omega)⟩

theorem longestPrefixUpTo_skip (hle : k ≤ n) (h : ∀ j, k < j → j ≤ n → m (l.take j) = none) :
    longestPrefixUpTo m l n = longestPrefixUpTo m l k := by
  induction n, hle using Nat.le_induction
  case base => rfl
  case succ n hkn hi =>
    rw [longestPrefixUpTo, h (n + 1) (by omega) le_rfl]
    exact hi fun j hkj hjn => h j hkj (by omega)

-- There is no key on the way from `k` to `n`.
theorem longestPrefixUpTo_jump (hlt : k < n) (h : ∀ j, k < j → j < n → m (l.take j) = none) :
    longestPrefixUpTo m l n = ((m (l.take n)).map (n, ·)).or (longestPrefixUpTo m l k) := by
  obtain ⟨n, rfl⟩ := Nat.exists_eq_add_one_of_ne_zero (Nat.ne_zero_of_lt hlt)
  rw [longestPrefixUpTo, longestPrefixUpTo_skip (k := k) (by omega) fun j hkj hjn => h j hkj (by omega)]
  cases m (l.take (n + 1)) <;> rfl

theorem longestPrefix_eq_some_iff :
    longestPrefix m l = some (k, b) ↔
      k ≤ l.length ∧ m (l.take k) = some b ∧ ∀ j, k < j → j ≤ l.length → m (l.take j) = none :=
  longestPrefixUpTo_eq_some_iff

theorem longestPrefix_eq_self_iff : longestPrefix m l = some (l.length, b) ↔ m l = some b := by
  rw [longestPrefix_eq_some_iff, take_length]
  exact ⟨fun h => h.right.left, fun h => ⟨le_rfl, h, fun j hj hle => absurd hle (by omega)⟩⟩

-- A list is fully matched exactly when it is a key itself.
theorem longestPrefix_lt_iff (h : l ≠ []) :
    ((longestPrefix m l).map (·.1)).getD 0 < l.length ↔ m l = none := by
  cases hm : m l
  case some b => simp [longestPrefix_eq_self_iff.mpr hm]
  case none =>
    simp only [iff_true]
    cases hp : longestPrefix m l
    case none => exact length_pos_of_ne_nil h
    case some p =>
      have ⟨hle, hk, _⟩ := longestPrefix_eq_some_iff.mp hp
      refine lt_of_le_of_ne hle fun heq => ?_
      rw [show p.1 = l.length from heq, take_length, hm] at hk
      contradiction

end LongestPrefix
