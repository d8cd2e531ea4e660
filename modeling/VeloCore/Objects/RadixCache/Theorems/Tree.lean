import VeloCore.Objects.RadixCache.Basic

open List

namespace RadixCache

variable {c : RadixCache} {node : Node} {i j id : NodeId} {t : TokenId}

-- The links, the handles and the times of access of the arena

def edge? (c : RadixCache) (i : NodeId) : Option (List TokenId) :=
  c.nodes[i]?.map (·.edge)

def child? (c : RadixCache) (i : NodeId) (t : TokenId) : Option NodeId :=
  c.nodes[i]?.bind (·.children.lookup t)

def handle? (c : RadixCache) (i : NodeId) : Option KvCacheHandle :=
  c.nodes[i]?.bind (·.handle)

def tick? (c : RadixCache) (i : NodeId) : Option Nat :=
  c.nodes[i]?.map (·.lastAccessTick)

-- A node with two children
def Branching (c : RadixCache) (i : NodeId) : Prop :=
  ∃ t u, t ≠ u ∧ (c.child? i t).isSome ∧ (c.child? i u).isSome

theorem edge?_isSome_iff : (c.edge? i).isSome ↔ i < c.nodes.length := by
  simp [edge?]

theorem child?_length : c.child? c.nodes.length t = none := by
  simp [child?]

theorem edge?_isSome_of_child? (h : c.child? i t = some j) : (c.edge? i).isSome := by
  obtain ⟨_, h, -⟩ := Option.bind_eq_some_iff.mp h
  simp [edge?, h]

theorem edge?_isSome_of_handle? (h : c.handle? i = some hd) : (c.edge? i).isSome := by
  obtain ⟨_, h, -⟩ := Option.bind_eq_some_iff.mp h
  simp [edge?, h]

theorem mem_handles_iff : hd ∈ c.handles ↔ ∃ i, c.handle? i = some hd := by
  rw [handles, mem_filterMap]
  simp only [mem_iff_getElem?, handle?, Option.bind_eq_some_iff]
  exact ⟨fun ⟨node, ⟨i, hi⟩, hh⟩ => ⟨i, node, hi, hh⟩, fun ⟨i, node, hi, hh⟩ => ⟨node, ⟨i, hi⟩, hh⟩⟩

section Updates

theorem getElem?_modifyNode {g : Node → Node} :
    (c.modifyNode id g).nodes[i]? = c.nodes[i]?.map fun node => if id = i then g node else node := by
  simp [modifyNode, getElem?_modify]

theorem edge?_modifyNode {g : Node → Node} (h : ∀ node, (g node).edge = node.edge) :
    (c.modifyNode id g).edge? = c.edge? := by
  ext1 i
  simp only [edge?, getElem?_modifyNode, Option.map_map]
  congr 1
  ext1 node
  by_cases hi : id = i <;> simp [hi, h]

theorem child?_modifyNode {g : Node → Node} (h : ∀ node, (g node).children = node.children) :
    (c.modifyNode id g).child? = c.child? := by
  ext1 i; ext1 t
  simp only [child?, getElem?_modifyNode, Option.bind_map]
  congr 1
  ext1 node
  by_cases hi : id = i <;> simp [hi, h]

theorem handle?_modifyNode {g : Node → Node} (h : ∀ node, (g node).handle = node.handle) :
    (c.modifyNode id g).handle? = c.handle? := by
  ext1 i
  simp only [handle?, getElem?_modifyNode, Option.bind_map]
  congr 1
  ext1 node
  by_cases hi : id = i <;> simp [hi, h]

theorem tick?_modifyNode {g : Node → Node} (h : ∀ node, (g node).lastAccessTick = node.lastAccessTick) :
    (c.modifyNode id g).tick? = c.tick? := by
  ext1 i
  simp only [tick?, getElem?_modifyNode, Option.map_map]
  congr 1
  ext1 node
  by_cases hi : id = i <;> simp [hi, h]

@[simp] theorem edge?_tick : c.tick.edge? = c.edge? := rfl
@[simp] theorem child?_tick : c.tick.child? = c.child? := rfl
@[simp] theorem handle?_tick : c.tick.handle? = c.handle? := rfl
@[simp] theorem tick?_tick : c.tick.tick? = c.tick? := rfl

@[simp] theorem edge?_touch : (c.touch id n).edge? = c.edge? := edge?_modifyNode fun _ => rfl
@[simp] theorem child?_touch : (c.touch id n).child? = c.child? := child?_modifyNode fun _ => rfl
@[simp] theorem handle?_touch : (c.touch id n).handle? = c.handle? := handle?_modifyNode fun _ => rfl

@[simp] theorem edge?_setHandle : (c.setHandle id hd).edge? = c.edge? :=
  edge?_modifyNode fun _ => rfl

@[simp] theorem child?_setHandle : (c.setHandle id hd).child? = c.child? :=
  child?_modifyNode fun _ => rfl

@[simp] theorem child?_setEdge : (c.setEdge id e).child? = c.child? :=
  child?_modifyNode fun _ => rfl

@[simp] theorem handle?_setEdge : (c.setEdge id e).handle? = c.handle? :=
  handle?_modifyNode fun _ => rfl

@[simp] theorem edge?_setChild : (c.setChild id t j).edge? = c.edge? :=
  edge?_modifyNode fun _ => rfl

@[simp] theorem handle?_setChild : (c.setChild id t j).handle? = c.handle? :=
  handle?_modifyNode fun _ => rfl

@[simp] theorem tick?_setHandle : (c.setHandle id o).tick? = c.tick? :=
  tick?_modifyNode fun _ => rfl

@[simp] theorem tick?_setEdge : (c.setEdge id e).tick? = c.tick? :=
  tick?_modifyNode fun _ => rfl

@[simp] theorem tick?_setChild : (c.setChild id t j).tick? = c.tick? :=
  tick?_modifyNode fun _ => rfl

theorem tick?_touch (h : (c.edge? id).isSome) : (c.touch id n).tick? = Function.update c.tick? id (some n) := by
  ext1 i
  rw [edge?_isSome_iff] at h
  by_cases hi : id = i
  case pos => subst hi; simp [tick?, touch, getElem?_modifyNode, h]
  case neg => simp [tick?, touch, getElem?_modifyNode, hi, Function.update_of_ne (Ne.symm hi)]

theorem handle?_setHandle (h : (c.edge? id).isSome) :
    (c.setHandle id o).handle? = Function.update c.handle? id o := by
  ext1 i
  rw [edge?_isSome_iff] at h
  by_cases hi : id = i
  case pos => subst hi; simp [handle?, setHandle, getElem?_modifyNode, h]
  case neg => simp [handle?, setHandle, getElem?_modifyNode, hi, Function.update_of_ne (Ne.symm hi)]

theorem edge?_setEdge (h : (c.edge? id).isSome) :
    (c.setEdge id e).edge? = Function.update c.edge? id (some e) := by
  ext1 i
  rw [edge?_isSome_iff] at h
  by_cases hi : id = i
  case pos => subst hi; simp [edge?, setEdge, getElem?_modifyNode, h]
  case neg => simp [edge?, setEdge, getElem?_modifyNode, hi, Function.update_of_ne (Ne.symm hi)]

theorem child?_setChild (h : (c.edge? id).isSome) :
    (c.setChild id t j).child? i t' = if i = id ∧ t' = t then some j else c.child? i t' := by
  rw [edge?_isSome_iff] at h
  by_cases hi : id = i
  case pos =>
    subst hi
    by_cases ht : t' = t
    case pos => subst ht; simp [child?, setChild, getElem?_modifyNode, h]
    case neg => simp [child?, setChild, getElem?_modifyNode, h, ht]
  case neg => simp [child?, setChild, getElem?_modifyNode, hi, Ne.symm hi]

theorem getElem?_pushNode :
    (c.pushNode node).nodes[i]? = if i = c.nodes.length then some node else c.nodes[i]? := by
  simp only [pushNode]
  split
  case isTrue h => simp [h]
  case isFalse h =>
    rcases Nat.lt_or_gt_of_ne h with h | h
    · rw [getElem?_append_left h]
    · rw [getElem?_eq_none (by simp; omega), getElem?_eq_none (by omega)]

theorem edge?_pushNode :
    (c.pushNode node).edge? = Function.update c.edge? c.nodes.length (some node.edge) := by
  ext1 i
  by_cases hi : i = c.nodes.length
  case pos => subst hi; simp [edge?, getElem?_pushNode]
  case neg => simp [edge?, getElem?_pushNode, hi]

theorem child?_pushNode :
    (c.pushNode node).child? i t =
      if i = c.nodes.length then node.children.lookup t else c.child? i t := by
  by_cases hi : i = c.nodes.length <;> simp [child?, getElem?_pushNode, hi]

theorem tick?_pushNode :
    (c.pushNode node).tick? = Function.update c.tick? c.nodes.length (some node.lastAccessTick) := by
  ext1 i
  by_cases hi : i = c.nodes.length
  case pos => subst hi; simp [tick?, getElem?_pushNode]
  case neg => simp [tick?, getElem?_pushNode, hi]

theorem handle?_pushNode (h : node.handle = none) : (c.pushNode node).handle? = c.handle? := by
  ext1 i
  by_cases hi : i = c.nodes.length
  case pos => subst hi; simp [handle?, getElem?_pushNode, h]
  case neg => simp [handle?, getElem?_pushNode, hi]

end Updates
end RadixCache
