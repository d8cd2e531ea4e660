import VeloCore.Objects.SlotPool
import VeloCore.Primitives.Steps

open List

-- A pool and the slots that it has handed out and not got back. The pool itself keeps no record of these.
structure SlotPool.Use where
  pool : SlotPool
  held : List SlotId

-- The calls that do not panic on a pool of `n` slots.
inductive SlotPool.Call (n : Nat)
  | alloc
  | release (slot : SlotId) (h : slot.toNat < n)

namespace SlotPool.Use

variable {n : Nat} {u : Use} {call : Call n}

def new (n : Nat) : Use :=
  ⟨.new n, []⟩

def next (u : Use) : Call n → Use
  | .alloc =>
    match u.pool.alloc with
    | (some slot, pool) => ⟨pool, slot :: u.held⟩
    | (none, pool)      => ⟨pool, u.held⟩
  | .release slot _ =>
    match u.pool.release slot with
    | some pool => ⟨pool, u.held.erase slot⟩
    | none      => u

-- No slot is free twice, there are not more free slots than slots, and the next slot to be handed out is not held.
structure Exclusive (u : Use) : Prop where
  nodup    : u.pool.freeSlots.Nodup
  length   : u.pool.availableSlots ≤ u.pool.capacity
  next_out : ∀ slot ∈ u.pool.alloc.1, slot ∉ u.held

-- Only slots that are held are given back.
def Returns (u : Use) : Call n → Prop
  | .alloc          => True
  | .release slot _ => slot ∈ u.held

instance : DecidableRel (Returns (n := n))
  | _, .alloc       => inferInstanceAs (Decidable True)
  | _, .release _ _ => inferInstanceAs (Decidable (_ ∈ _))

-- Each of the `n` slots is either free or held.
structure Divided (n : Nat) (u : Use) : Prop where
  capacity : u.pool.capacity = n
  nodup    : (u.pool.freeSlots ++ u.held).Nodup
  complete : ∀ slot : SlotId, slot.toNat < n → slot ∈ u.pool.freeSlots ++ u.held

namespace Divided

theorem new (h : n ≤ 2 ^ 32) : Divided n (new n) where
  capacity := rfl
  nodup := by simpa [Use.new] using new_nodup h
  complete slot hlt := by
    have hmem : slot.toNat ∈ (SlotPool.new n).freeSlots.map UInt32.toNat := by
      rw [new_map_toNat h]
      exact mem_range.mpr hlt
    have ⟨slot', hslot', heq⟩ := mem_map.mp hmem
    exact mem_append_left _ (UInt32.toNat_inj.mp heq ▸ hslot')

theorem exclusive (h : Divided n u) : Exclusive u where
  nodup := (nodup_append.mp h.nodup).left
  length := by
    have hsub : u.pool.freeSlots.map UInt32.toNat ⊆ range u.pool.maxSlots := by
      intro i hi
      have ⟨slot, hslot, heq⟩ := mem_map.mp hi
      exact mem_range.mpr (heq ▸ u.pool.free_lt slot hslot)
    have hnodup := (nodup_append.mp h.nodup).left.map fun _ _ => UInt32.toNat_inj.mp
    have hle := (hnodup.subperm hsub).length_le
    simpa [availableSlots, SlotPool.capacity] using hle
  next_out slot hslot := by
    cases hp : u.pool.freeSlots
    case nil => simp [alloc_nil hp] at hslot
    case cons first rest =>
      have ⟨_, halloc, _⟩ := alloc_cons hp
      rw [halloc, Option.mem_some_iff] at hslot
      subst hslot
      intro hheld
      exact (nodup_append.mp h.nodup).right.right first (hp ▸ mem_cons_self) first hheld rfl

theorem next (h : Divided n u) (hcall : Returns u call) : Divided n (u.next call) := by
  cases call
  case alloc =>
    cases hp : u.pool.freeSlots
    case nil => rwa [Use.next, alloc_nil hp]
    case cons slot rest =>
      have ⟨pool, halloc, hrest, hmax⟩ := alloc_cons hp
      have hperm : u.pool.freeSlots ++ u.held ~ pool.freeSlots ++ slot :: u.held := by
        rw [hp, hrest, cons_append]
        exact perm_middle.symm
      rw [Use.next, halloc]
      exact ⟨hmax.trans h.capacity, hperm.nodup_iff.mp h.nodup, fun s hs => hperm.mem_iff.mp (h.complete s hs)⟩
  case release slot hlt =>
    have ⟨pool, hrel, hfree, hmax⟩ := release_of_lt (hlt.trans_eq h.capacity.symm)
    have hperm : u.pool.freeSlots ++ u.held ~ pool.freeSlots ++ u.held.erase slot := by
      rw [hfree, append_assoc, singleton_append]
      exact (perm_cons_erase hcall).append_left _
    rw [Use.next, hrel]
    exact ⟨hmax.trans h.capacity, hperm.nodup_iff.mp h.nodup, fun s hs => hperm.mem_iff.mp (h.complete s hs)⟩

-- A slot that is not held is free, and is free twice once it is given back.
theorem not_exclusive (h : Divided n u) (hcall : ¬Returns u call) : ¬Exclusive (u.next call) := by
  cases call
  case alloc => exact absurd trivial hcall
  case release slot hlt =>
    have ⟨pool, hrel, hfree, _⟩ := release_of_lt (hlt.trans_eq h.capacity.symm)
    have hmem : slot ∈ u.pool.freeSlots := (mem_append.mp (h.complete slot hlt)).resolve_right hcall
    rw [Use.next, hrel]
    intro he
    have hnodup : (u.pool.freeSlots ++ [slot]).Nodup := hfree ▸ he.nodup
    exact (nodup_append.mp hnodup).right.right slot hmem slot (mem_singleton_self slot) rfl

end Divided

-- The numbers of more than 2^32 slots are not different.
theorem not_exclusive_new (h : 2 ^ 32 < n) : ¬Exclusive (new n) := by
  intro he
  have hnodup : ((range n).map UInt32.ofNat).Nodup := he.nodup
  have hinj := inj_on_of_nodup_map hnodup
  have hzero : (2 : Nat) ^ 32 = 0 := hinj (mem_range.mpr h) (mem_range.mpr (by omega)) rfl
  omega

-- The slots stay exclusive along a run just when they can be told apart and none is given back that is not held.
theorem exclusive_iff (calls : List (Call n)) : Steps.Always next Exclusive (new n) calls ↔
    n ≤ 2 ^ 32 ∧ Steps.Along next Returns (new n) calls := by
  by_cases h : n ≤ 2 ^ 32
  case pos =>
    rw [and_iff_right h]
    exact Steps.always_iff_along (I := Divided n) (.new h) (fun _ => Divided.exclusive) (fun _ _ hu hc => hu.next hc)
      fun _ _ hu hc => hu.not_exclusive hc
  case neg => exact iff_of_false (fun ha => not_exclusive_new (Nat.lt_of_not_le h) ha.head) fun hn => h hn.left

-- The slot is given back twice: two requests get it.
theorem exists_not_exclusive : ¬Steps.Always next Exclusive (new 1)
    ([.alloc, .release 0 (by decide), .release 0 (by decide), .alloc] : List (Call 1)) :=
  fun h => h.last.next_out 0 (by decide +kernel) (by decide +kernel)

end SlotPool.Use
