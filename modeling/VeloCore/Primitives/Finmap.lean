import Mathlib.Data.Finmap
import Mathlib.Data.Multiset.Bind

namespace Finmap

variable {α β γ : Type*} [DecidableEq α] {m : Finmap fun _ : α => β} {a a' : α} {b b' : β}

theorem lookup_insert_eq_ite : (m.insert a b).lookup a' = if a' = a then some b else m.lookup a' := by
  split
  case isTrue h  => exact h ▸ lookup_insert m
  case isFalse h => exact lookup_insert_of_ne m h

theorem lookup_erase_eq_ite : (m.erase a).lookup a' = if a' = a then none else m.lookup a' := by
  split
  case isTrue h  => exact h ▸ lookup_erase a m
  case isFalse h => exact lookup_erase_ne h

-- What the values of a map hold together.
def bindValues (m : Finmap fun _ : α => β) (f : β → Multiset γ) : Multiset γ :=
  m.entries.bind fun e => f e.2

variable {f : β → Multiset γ}

omit [DecidableEq α] in
@[simp]
theorem bindValues_empty : (∅ : Finmap fun _ : α => β).bindValues f = 0 :=
  rfl

theorem bindValues_insert (h : m.lookup a = none) :
    (m.insert a b).bindValues f = f b + m.bindValues f := by
  rw [bindValues, entries_insert_of_notMem (lookup_eq_none.mp h), Multiset.cons_bind, bindValues]

theorem insert_erase_of_lookup (h : m.lookup a = some b) : (m.erase a).insert a b = m := by
  apply ext_lookup
  intro a'
  rw [lookup_insert_eq_ite, lookup_erase_eq_ite]
  split
  case isTrue ha  => exact ha ▸ h.symm
  case isFalse ha => simp

theorem entries_eq_cons_erase (h : m.lookup a = some b) : m.entries = ⟨a, b⟩ ::ₘ (m.erase a).entries := by
  conv_lhs => rw [← insert_erase_of_lookup h]
  exact entries_insert_of_notMem (lookup_eq_none.mp (lookup_erase a m))

theorem bindValues_erase (h : m.lookup a = some b) :
    m.bindValues f = f b + (m.erase a).bindValues f := by
  conv_lhs => rw [← insert_erase_of_lookup h]
  exact bindValues_insert (lookup_erase a m)

theorem erase_of_lookup_eq_none (h : m.lookup a = none) : m.erase a = m := by
  apply ext_lookup
  intro a'
  rw [lookup_erase_eq_ite]
  split
  case isTrue ha  => exact ha ▸ h.symm
  case isFalse ha => rfl

-- Whatever was there is replaced.
theorem bindValues_insert_eq : (m.insert a b).bindValues f = f b + (m.erase a).bindValues f := by
  have herase : (m.erase a).insert a b = m.insert a b := by
    apply ext_lookup
    intro a'
    rw [lookup_insert_eq_ite, lookup_insert_eq_ite, lookup_erase_eq_ite]
    split <;> rfl
  rw [← herase, bindValues_insert (lookup_erase a m)]

end Finmap
