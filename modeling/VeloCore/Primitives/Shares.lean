import Mathlib.Tactic

open List

-- Inverting a distribution over a list of weighted entries: the entries are passed until their share is large enough
namespace Shares

variable {α K : Type} [Field K] {w : α → K} {x : K} {all l before rest : List α} {a : α}

-- The share of some of the entries in the weight of all
def share (w : α → K) (all l : List α) : K :=
  (l.map w).sum / (all.map w).sum

@[simp]
theorem share_nil : share w all [] = 0 := by
  simp [share]

theorem share_append_singleton : share w all (before ++ [a]) = share w all before + w a / (all.map w).sum := by
  simp [share, add_div]

theorem share_self (h : (all.map w).sum ≠ 0) : share w all all = 1 :=
  div_self h

variable [LinearOrder K]

-- The shortest nonempty beginning of which the share is large enough
structure Shortest (w : α → K) (x : K) (all l : List α) : Prop where
  ne_nil  : l ≠ []
  initial : l <+: all
  reaches : x ≤ share w all l
  least   : ∀ l', l' ≠ [] → l' <+: all → x ≤ share w all l' → l <+: l'

-- No beginning is large enough so far.
def Below (w : α → K) (x : K) (all before : List α) : Prop :=
  ∀ l, l ≠ [] → l <+: before → share w all l < x

theorem sum_pos [IsStrictOrderedRing K] (hw : ∀ a ∈ all, 0 < w a) (hne : all ≠ []) : 0 < (all.map w).sum :=
  List.sum_pos _ (by simpa using hw) (by simpa using hne)

theorem Below.nil : Below w x all [] :=
  fun _ hne h => absurd (prefix_nil.mp h) hne

theorem Below.concat (h : Below w x all before) (ha : ¬x ≤ share w all (before ++ [a])) : Below w x all (before ++ [a]) := by
  intro l hne hl
  rcases prefix_concat_iff.mp hl with rfl | hl
  case inl => exact not_le.mp ha
  case inr => exact h l hne hl

-- The first entry that makes the share large enough ends the shortest beginning.
theorem Below.shortest (h : Below w x all before) (hall : before ++ a :: rest = all)
    (ha : x ≤ share w all (before ++ [a])) : Shortest w x all (before ++ [a]) where
  ne_nil  := append_ne_nil_of_right_ne_nil _ (cons_ne_nil _ _)
  initial := ⟨rest, by rw [append_assoc]; exact hall⟩
  reaches := ha
  least l hne hl hx := by
    have hinitial : before ++ [a] <+: all := ⟨rest, by rw [append_assoc]; exact hall⟩
    rcases prefix_or_prefix_of_prefix hinitial hl with hle | hge
    case inl => exact hle
    case inr =>
      rcases prefix_concat_iff.mp hge with rfl | hge
      case inl => exact prefix_rfl
      case inr => exact absurd hx (not_le.mpr (h l hne hge))

-- The empty beginning has no share.
theorem Shortest.initial_of_pos {l l' : List α} (h : Shortest w x all l) (hpos : 0 < x) (hl : l' <+: all)
    (hx : x ≤ share w all l') : l <+: l' := by
  refine h.least l' (fun hnil => ?_) hl hx
  rw [hnil, share_nil] at hx
  exact not_lt.mpr hx hpos

-- All entries have the share 1.
theorem Below.not_self (h : Below w x all all) (hsum : (all.map w).sum ≠ 0) : ¬x ≤ 1 := fun hx => by
  have hne : all ≠ [] := fun hnil => hsum (by simp [hnil])
  exact absurd (share_self hsum ▸ h all hne prefix_rfl) (not_lt.mpr hx)

end Shares
