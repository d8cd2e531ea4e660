import VeloCore.Objects.RadixCache.Theorems.Size

open List

namespace RadixCache

-- The links of the arena make a tree with node 0 as its root, in which each child is found by the first token of its edge.
structure Linked (c : RadixCache) : Prop where
  nonempty : 0 < c.nodes.length
  inRange  : ∀ i t j, c.child? i t = some j → i < c.nodes.length ∧ j < c.nodes.length
  root     : ∀ i t, c.child? i t ≠ some 0
  parent   : ∀ j, 0 < j → j < c.nodes.length → ∃! p : NodeId × TokenId, c.child? p.1 p.2 = some j
  keyed    : ∀ i t j, c.child? i t = some j → ∃ rest, c.edge? j = some (t :: rest)
  siblings : ∀ i t u j k, c.child? i t = some j → c.child? i u = some k → j ≠ k →
    (c.edge? j).bind head? ≠ (c.edge? k).bind head?
  acyclic  : ∀ i, ¬Relation.TransGen (fun i j => ∃ t, c.child? i t = some j) i i
  rooted   : ∀ i, i < c.nodes.length → ∃! key, c.RootPath i key
  tokenLen : ∀ i hd key, c.handle? i = some hd → c.RootPath i key → hd.tokenLen = key.length

-- Wherever an edge is split, the nodes keep their root paths, and the links still make a tree.
def Splits (c : RadixCache) : Prop :=
  ∀ i t j edge splitAt, c.child? i t = some j → c.edge? j = some edge → 0 < splitAt → splitAt < edge.length →
    ∃ c', (splitChild i j splitAt : Eff _ Empty _) c = (.ok c.nodes.length, c') ∧ Linked c' ∧
      ∀ k key, k ≠ c.nodes.length → (c'.RootPath k key ↔ c.RootPath k key)

-- A state that differs from another in the times of access at most, as it does when an insertion splits an edge
def SameLinks (c d : RadixCache) : Prop :=
  d.edge? = c.edge? ∧ d.child? = c.child? ∧ d.handle? = c.handle?

variable {c d : RadixCache} {path : NodeId → List TokenId} {i j : NodeId} {t : TokenId}

namespace Rep

-- Paths get longer on the way down.
theorem length_lt (r : Rep c path) (h : Relation.TransGen (fun i j => ∃ t, c.child? i t = some j) i j) :
    (path i).length < (path j).length := by
  have hstep {i j : NodeId} (h : ∃ t, c.child? i t = some j) : (path i).length < (path j).length := by
    have ⟨_, ht⟩ := h
    have ⟨_, _, hp⟩ := r.child ht
    simp [hp]
  induction h
  case single h    => exact hstep h
  case tail _ h hi => exact hi.trans (hstep h)

theorem linked (r : Rep c path) : Linked c where
  nonempty := edge?_isSome_iff.mp r.nonempty
  inRange i t j h := ⟨edge?_isSome_iff.mp (edge?_isSome_of_child? h), edge?_isSome_iff.mp (r.edge?_isSome h)⟩
  root i t h := (r.child_pos h).ne rfl
  parent j hpos hj := by
    have ⟨i, t, ht⟩ := r.parent hpos (edge?_isSome_iff.mpr hj)
    refine ⟨(i, t), ht, fun (k, u) hu => ?_⟩
    have ⟨hk, hu⟩ := r.parent_unique hu ht
    exact Prod.ext hk hu
  keyed i t j h := have ⟨rest, he, _⟩ := r.child h; ⟨rest, he⟩
  siblings i t u j k ht hu hne := by
    have ⟨_, hj, _⟩ := r.child ht
    have ⟨_, hk, _⟩ := r.child hu
    simp only [hj, hk, Option.bind_some, head?_cons, ne_eq, Option.some.injEq]
    rintro rfl
    exact hne (Option.some.inj (ht.symm.trans hu))
  acyclic i h := (r.length_lt h).ne rfl
  rooted i hi :=
    ⟨path i, r.rootPath (edge?_isSome_iff.mpr hi), fun _ h => (r.rootPath_iff.mp h).right.symm⟩
  tokenLen i hd key h hp := (r.rootPath_iff.mp hp).right ▸ r.handle h

theorem splits (r : Rep c path) : Splits c := by
  intro i t j edge splitAt hi hj hpos hlt
  have ⟨rest₀, he, _⟩ := r.child hi
  cases hj.symm.trans he
  have ⟨rest, hrest⟩ : ∃ rest, (t :: rest₀).take splitAt = t :: rest := by
    cases splitAt
    case zero   => contradiction
    case succ n => exact ⟨_, take_succ_cons⟩
  have ⟨u, rest', hdrop⟩ := exists_cons_of_length_pos (l := (t :: rest₀).drop splitAt) (by simp only [length_drop]; omega)
  have hedge : t :: rest₀ = t :: rest ++ u :: rest' := by rw [← hrest, ← hdrop, take_append_drop]
  have hat : splitAt = (t :: rest).length := by rw [← hrest, length_take_of_le hlt.le]
  rw [hedge] at hj
  have ⟨a, c', hs, ha, hc'⟩ := splitChild_returns (ε := Empty) (i := i) (Q := fun a c' =>
    a = c.nodes.length ∧ c' = split c i j t rest u rest' c.clock) hj ⟨rfl, rfl⟩
  subst ha hc'
  have g := split_grown (n := c.clock) hi hj r
  refine ⟨_, hat ▸ hs, g.rep.linked, fun k key hk => ?_⟩
  rw [g.rep.rootPath_iff, r.rootPath_iff, Function.update_of_ne hk, split_edge? hj, if_neg hk]
  refine and_congr_left fun _ => ?_
  split
  case isTrue h  => simp [h, hj]
  case isFalse h => rfl

end Rep

-- In every state of a cache, the arena is a tree, and stays one wherever an edge of it is split.
theorem run_linked (capacity : Option Nat) (ops : List Op) :
    Linked (run capacity ops) ∧ ∀ d, SameLinks (run capacity ops) d → Splits d :=
  have ⟨_, r⟩ := run_rep capacity ops
  ⟨r.linked, fun _ ⟨he, hc, hh⟩ => (r.same he hc hh).left.splits⟩

end RadixCache
