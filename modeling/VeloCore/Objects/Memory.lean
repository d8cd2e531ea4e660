import VeloCore.Objects.Handle
import Mathlib.Tactic

-- What the memory of an engine stands for: the map from sequences to handles that the cache holds,
-- and the handles that memory is taken for.
structure Memory where
  entries : List TokenId → Option KvCacheHandle
  live : Set KvCacheHandle

namespace Memory

-- Every entry has its own memory.
structure Consistent (m : Memory) : Prop where
  live      : m.entries key = some h → h ∈ m.live
  injective : m.entries key = some h → m.entries key' = some h → key = key'

-- No memory is taken for anything but the entries.
structure Exact (m : Memory) : Prop extends m.Consistent where
  held : h ∈ m.live → ∃ key, m.entries key = some h

variable {m : Memory} {key key' : List TokenId} {keys : List (List TokenId)} {h : KvCacheHandle}

-- The entry for `key` is replaced, and the memory of the old one is released.
def save (m : Memory) (key : List TokenId) (h : KvCacheHandle) : Memory where
  entries := Function.update m.entries key (some h)
  live := { h' | h' ∈ m.live ∧ m.entries key ≠ some h' ∨ h' = h }

-- Entries are dropped, but their memory is not given back.
def forget (m : Memory) (keys : List (List TokenId)) : Memory where
  entries key := if key ∈ keys then none else m.entries key
  live := m.live

@[simp]
theorem forget_nil : m.forget [] = m := by
  simp [forget]

theorem Consistent.save (c : m.Consistent) (hnew : h ∉ m.live) : (m.save key h).Consistent where
  live {k h'} hk := by
    rcases eq_or_ne k key with rfl | hne
    case inl => exact .inr (by simpa [Memory.save, eq_comm] using hk)
    case inr =>
      simp only [Memory.save, Function.update_of_ne hne] at hk
      exact .inl ⟨c.live hk, fun hkey => hne (c.injective hk hkey)⟩
  injective {k h' k'} hk hk' := by
    simp only [Memory.save, Function.update_apply] at hk hk'
    split at hk <;> split at hk'
    case isTrue.isTrue h₁ h₂  => rw [h₁, h₂]
    case isTrue.isFalse       => cases hk; exact absurd (c.live hk') hnew
    case isFalse.isTrue       => cases hk'; exact absurd (c.live hk) hnew
    case isFalse.isFalse      => exact c.injective hk hk'

theorem Exact.save (x : m.Exact) (hnew : h ∉ m.live) : (m.save key h).Exact where
  toConsistent := x.toConsistent.save hnew
  held {h'} hl := by
    cases hl
    case inr hl => exact ⟨key, by simp [Memory.save, hl]⟩
    case inl hl =>
      have ⟨k, hk⟩ := x.held hl.left
      have hne : k ≠ key := fun heq => hl.right (heq ▸ hk)
      exact ⟨k, by simpa [Memory.save, hne] using hk⟩

theorem Consistent.forget (c : m.Consistent) : (m.forget keys).Consistent where
  live hk := c.live (Option.ite_none_left_eq_some.mp hk).right
  injective hk hk' :=
    c.injective (Option.ite_none_left_eq_some.mp hk).right (Option.ite_none_left_eq_some.mp hk').right

end Memory
