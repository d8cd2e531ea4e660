import Mathlib.Tactic

open List

abbrev SlotId := UInt32

structure SlotPool where
  freeSlots : List SlotId
  maxSlots : Nat
  free_lt : ∀ slot ∈ freeSlots, slot.toNat < maxSlots

namespace SlotPool

@[ext]
theorem ext' {p q : SlotPool} (hf : p.freeSlots = q.freeSlots) (hm : p.maxSlots = q.maxSlots) :
    p = q := by
  cases p; cases q; simp_all

theorem toNat_ofNat_le (i : Nat) : (UInt32.ofNat i).toNat ≤ i := by
  simp [UInt32.toNat_ofNat', Nat.mod_le]

-- The slot numbers are narrowed by `i as u32`.
def new (maxSlots : Nat) : SlotPool where
  freeSlots := (range maxSlots).map UInt32.ofNat
  maxSlots := maxSlots
  free_lt := by
    simp only [mem_map, mem_range, forall_exists_index, and_imp]
    rintro _ i hi rfl
    exact (toNat_ofNat_le i).trans_lt hi

-- `pop_front`
def alloc (p : SlotPool) : Option SlotId × SlotPool :=
  match h : p.freeSlots with
  | []          => (none, p)
  | slot :: rest =>
    (some slot, { p with
      freeSlots := rest
      free_lt := fun s hs => p.free_lt s (h ▸ mem_cons_of_mem _ hs) })

-- Panics, that is returns `none`, when the slot is out of range.
def release (p : SlotPool) (slot : SlotId) : Option SlotPool :=
  if h : slot.toNat < p.maxSlots then
    some { p with
      freeSlots := p.freeSlots ++ [slot]
      free_lt := by simpa [or_imp, forall_and] using ⟨p.free_lt, h⟩ }
  else
    none

def availableSlots (p : SlotPool) : Nat :=
  p.freeSlots.length

def capacity (p : SlotPool) : Nat :=
  p.maxSlots

variable {p q : SlotPool}

theorem alloc_nil (h : p.freeSlots = []) : p.alloc = (none, p) := by
  unfold alloc
  split
  · rfl
  · simp_all

theorem alloc_cons (h : p.freeSlots = slot :: rest) :
    ∃ q, p.alloc = (some slot, q) ∧ q.freeSlots = rest ∧ q.maxSlots = p.maxSlots := by
  unfold alloc
  split
  · simp_all
  · simp_all

theorem alloc_eq_none_iff : p.alloc = (none, q) ↔ p.freeSlots = [] ∧ q = p := by
  cases h : p.freeSlots
  case nil => simp [alloc_nil h, eq_comm]
  case cons =>
    have ⟨_, h, _⟩ := alloc_cons h
    simp [h]

theorem alloc_eq_some (h : p.alloc = (some slot, q)) :
    p.freeSlots = slot :: q.freeSlots ∧ q.maxSlots = p.maxSlots := by
  cases hp : p.freeSlots
  case nil => simp [alloc_nil hp] at h
  case cons =>
    have ⟨_, h', hf, hm⟩ := alloc_cons hp
    obtain ⟨rfl, rfl⟩ : _ ∧ _ := by simpa [h'] using h
    exact ⟨by rw [hf], hm⟩

theorem release_of_lt (h : slot.toNat < p.maxSlots) :
    ∃ q, p.release slot = some q ∧ q.freeSlots = p.freeSlots ++ [slot] ∧ q.maxSlots = p.maxSlots := by
  simp [release, h]

-- Up to 2^32 slots the narrowing loses nothing.
theorem new_map_toNat (h : n ≤ 2 ^ 32) : (new n).freeSlots.map UInt32.toNat = range n := by
  rw [new, map_map]
  conv_rhs => rw [← map_id (range n)]
  refine map_congr_left fun i hi => ?_
  rw [mem_range] at hi
  simp only [Function.comp_apply, UInt32.toNat_ofNat', id_eq]
  omega

theorem new_nodup (h : n ≤ 2 ^ 32) : (new n).freeSlots.Nodup :=
  Nodup.of_map UInt32.toNat <| new_map_toNat h ▸ nodup_range

end SlotPool
