import VeloCore.Objects.RadixCache.Theorems.Accounts
import VeloCore.Primitives.Steps

open List

namespace RadixCache

variable {c c' : RadixCache} {path : NodeId → List TokenId} {i j k : NodeId} {t u : TokenId}

-- Apart from the root, every node has a handle or is there because paths part at it.
def Compact (c : RadixCache) : Prop :=
  ∀ i, 0 < i → (c.edge? i).isSome → (c.handle? i).isSome ∨ c.Branching i

section Count

theorem Rep.parent_unique (r : Rep c path) (h : c.child? i t = some k) (h' : c.child? j u = some k) : i = j ∧ t = u := by
  have ⟨rest, he, hp⟩ := r.child h
  have ⟨rest', he', hp'⟩ := r.child h'
  cases he.symm.trans he'
  exact ⟨r.injective (edge?_isSome_of_child? h) (edge?_isSome_of_child? h') (append_cancel_right (hp.symm.trans hp')), rfl⟩

theorem Rep.child_pos (r : Rep c path) (h : c.child? i t = some j) : 0 < j := by
  have ⟨rest, _, hp⟩ := r.child h
  refine Nat.pos_of_ne_zero fun hj => ?_
  rw [hj, r.root] at hp
  simp at hp

theorem len_eq_card : c.len = ((Finset.range c.nodes.length).filter fun i => (c.handle? i).isSome).card := by
  have hlen : c.len = c.handles.length := by
    rw [len, handles, ← countP_eq_length_filter, length_filterMap_eq_countP]
  have hsum := sum_filterMap (·.handle) (fun _ => 1) c.nodes
  rw [map_const', sum_replicate, smul_eq_mul, Nat.mul_one] at hsum
  rw [hlen, handles, hsum, Finset.card_filter]
  refine Finset.sum_congr rfl fun i _ => ?_
  rw [handle?]
  cases c.nodes[i]?.bind (·.handle) <;> rfl

-- A tree in which every inner node without a handle has two children has at most as many of those as it has other nodes.
theorem Compact.nodes_le (h : Compact c) (r : Rep c path) : c.nodes.length ≤ 2 * c.len + 1 := by
  classical
  let below := (Finset.range c.nodes.length).filter (0 < ·)
  let bare := below.filter fun i => ¬(c.handle? i).isSome
  let parent (j : NodeId) : NodeId := if h : ∃ i t, c.child? i t = some j then h.choose else 0
  have hparent {i j t} (hc : c.child? i t = some j) : parent j = i := by
    have hex : ∃ i t, c.child? i t = some j := ⟨i, t, hc⟩
    have ⟨_, hu⟩ := hex.choose_spec
    simp only [parent, dif_pos hex]
    exact (r.parent_unique hu hc).left
  have hbelow {i j t} (hc : c.child? i t = some j) : j ∈ below :=
    Finset.mem_filter.mpr ⟨Finset.mem_range.mpr (edge?_isSome_iff.mp (r.edge?_isSome hc)), r.child_pos hc⟩
  have hfiber (i) (hi : i ∈ bare) : 2 ≤ (below.filter (parent · = i)).card := by
    have ⟨hmem, hnone⟩ := Finset.mem_filter.mp hi
    have ⟨hlt, hpos⟩ := Finset.mem_filter.mp hmem
    have hsome : (c.edge? i).isSome := edge?_isSome_iff.mpr (Finset.mem_range.mp hlt)
    have ⟨t, u, htu, ht, hu⟩ := (h i hpos hsome).resolve_left hnone
    have ⟨j, hj⟩ := Option.isSome_iff_exists.mp ht
    have ⟨k, hk⟩ := Option.isSome_iff_exists.mp hu
    have hjk : j ≠ k := fun heq => htu (r.parent_unique hj (heq ▸ hk)).right
    rw [← Finset.card_pair hjk]
    refine Finset.card_le_card fun l hl => ?_
    rcases Finset.mem_insert.mp hl with rfl | hl
    case inl => exact Finset.mem_filter.mpr ⟨hbelow hj, hparent hj⟩
    case inr => cases Finset.mem_singleton.mp hl; exact Finset.mem_filter.mpr ⟨hbelow hk, hparent hk⟩
  have hdouble : bare.card * 2 ≤ below.card := calc
    bare.card * 2 = bare.card • 2 := (smul_eq_mul ..).symm
    _ ≤ ∑ i ∈ bare, (below.filter (parent · = i)).card := Finset.card_nsmul_le_sum _ _ _ hfiber
    _ = (below.filter (parent · ∈ bare)).card := Finset.sum_card_fiberwise_eq_card_filter ..
    _ ≤ below.card := Finset.card_filter_le ..
  have hnodes : c.nodes.length ≤ below.card + 1 := by
    have hrange : Finset.range c.nodes.length ⊆ below ∪ {0} := fun i hi => by
      rcases Nat.eq_zero_or_pos i with rfl | hpos
      case inl => exact Finset.mem_union_right _ (Finset.mem_singleton_self 0)
      case inr => exact Finset.mem_union_left _ (Finset.mem_filter.mpr ⟨hi, hpos⟩)
    have hcard := (Finset.card_le_card hrange).trans (Finset.card_union_le ..)
    rwa [Finset.card_range] at hcard
  have hlive : below.card ≤ bare.card + c.len := by
    rw [len_eq_card, ← Finset.card_filter_add_card_filter_not (s := below) (fun i => (c.handle? i).isSome), Nat.add_comm]
    exact Nat.add_le_add_left (Finset.card_le_card (Finset.filter_subset_filter _ (Finset.filter_subset ..))) _
  omega

end Count

namespace Op

-- The eviction step of a call only takes entries whose nodes have to stay without them: the root and those at which
-- paths part.
def Spares (c : RadixCache) (op : Op) : Prop :=
  ∀ e ∈ victims (op.due c) (op.prepare c).coldest 0, e.2.1 = 0 ∨ (op.prepare c).Branching e.2.1

end Op

section Compact

theorem Branching.congr (hc : c'.child? = c.child?) (h : c.Branching i) : c'.Branching i := by
  rwa [Branching, hc]

theorem Compact.congr (h : Compact c) (he : c'.edge? = c.edge?) (hc : c'.child? = c.child?) (hh : c'.handle? = c.handle?) :
    Compact c' := by
  intro i hpos hi
  rw [he] at hi
  rw [hh]
  exact (h i hpos hi).imp_right (.congr hc)

theorem Compact.prepare (h : Compact c) (r : Rep c path) (op : Op) : Compact (op.prepare c) := by
  cases op
  case evictColdest      => exact h
  case setCapacityTokens => exact h
  case lookup tokens =>
    have ⟨_, w⟩ := Op.prepare_lookup r tokens
    exact h.congr w.edge w.child w.handle
  case insert tokens hd hlen =>
    have ⟨leaf, c₁, _, g, _, hprepare, _, _⟩ := Op.prepare_insert r hlen
    have hset : Compact (c₁.setHandle leaf (some hd)) := by
      intro i hpos hi
      rw [edge?_setHandle] at hi
      rw [handle?_setHandle g.isSome]
      rcases eq_or_ne i leaf with rfl | hne
      case inl => exact .inl (by simp)
      case inr =>
        rw [Function.update_of_ne hne]
        by_cases hold : (c.edge? i).isSome
        case neg =>
          have hnone : (touch 0 c.tick.clock c.tick).edge? i = none := by simpa using hold
          exact .inr (.congr child?_setHandle (g.fresh hi hnone hne))
        case pos =>
          rw [g.grown.handle, handle?_touch]
          refine (h i hpos hold).imp id fun hb => .congr child?_setHandle ?_
          have ⟨t, u, htu, ht, hu⟩ := hb
          exact ⟨t, u, htu, g.grown.children (by simpa using ht), g.grown.children (by simpa using hu)⟩
    rw [hprepare]
    exact hset.congr edge?_touch child?_touch handle?_touch

-- Dropping handles leaves the nodes in place.
theorem Compact.dropHandles {es : List (Nat × NodeId × KvCacheHandle)} (h : Compact c) (hh : Held c es)
    (hb : ∀ e ∈ es, e.2.1 = 0 ∨ c.Branching e.2.1) : Compact (es.foldl (fun c e => c.dropHandle e.2.1 e.2.2) c) := by
  induction es generalizing c
  case nil => exact h
  case cons e es hi =>
    have hchild : (c.dropHandle e.2.1 e.2.2).child? = c.child? := child?_setHandle
    refine hi (fun i hpos hsome => ?_) hh.tail fun e' he => ?_
    case refine_1 =>
      have hsome : (c.edge? i).isSome := by rwa [← edge?_setHandle]
      rcases eq_or_ne i e.2.1 with rfl | hne
      case inl => exact .inr (.congr hchild ((hb e mem_cons_self).resolve_left hpos.ne'))
      case inr =>
        rw [handle?_dropHandle hh.head hne]
        exact (h i hpos hsome).imp_right (.congr hchild)
    case refine_2 => exact (hb e' (mem_cons_of_mem _ he)).imp_right (.congr hchild)

theorem Compact.next {op : Op} (h : Compact c) (r : Rep c path) (hs : op.Spares c) : Compact (op.next c) := by
  rw [op.next_eq r, evictColdest_eq]
  exact (h.prepare r op).dropHandles victims_held hs

theorem start_compact (capacity : Option Nat) : Compact (start capacity) := by
  intro i hpos hi
  have hlen : (start capacity).nodes.length = 1 := by cases capacity <;> rfl
  rw [edge?_isSome_iff, hlen] at hi
  exact absurd (Nat.lt_one_iff.mp hi) hpos.ne'

end Compact

-- As long as evictions only take entries whose nodes have to stay, there are at most two nodes for each live entry and
-- the root.
theorem always_nodes_le (capacity : Option Nat) (ops : List Op) (h : Steps.Along Op.next Op.Spares (start capacity) ops) :
    Steps.Always Op.next (fun c => c.nodes.length ≤ 2 * c.len + 1) (start capacity) ops := by
  have ⟨path, r⟩ := start_rep capacity
  have hrun : Steps.Always Op.next (fun c => ∃ path, Rep c path ∧ Compact c) (start capacity) ops := by
    refine h.always ⟨path, r, start_compact capacity⟩ fun c op hc hs => ?_
    have ⟨path, r, hc⟩ := hc
    have ⟨path', r'⟩ := op.prepare_rep r
    exact ⟨path', by rw [op.next_eq r]; exact (evictColdest_removed r').left, hc.next r hs⟩
  exact hrun.mono fun c ⟨_, r, hc⟩ => hc.nodes_le r

-- The third entry forks below the first one, whose node stays when it is evicted; the last one splits an edge.
theorem always_nodes_le_fork :
    let ops : List Op := [.insert [1] ⟨0, 1⟩ rfl, .insert [1, 2] ⟨1, 2⟩ rfl, .insert [1, 3] ⟨2, 2⟩ rfl, .evictColdest 1,
      .insert [4, 5] ⟨3, 2⟩ rfl, .insert [4, 6] ⟨4, 2⟩ rfl]
    Steps.Always Op.next (fun c => c.nodes.length ≤ 2 * c.len + 1) (start none) ops ∧
      ((ops.take 4).foldl Op.next (start none)).nodes.length = 4 ∧ ((ops.take 4).foldl Op.next (start none)).len = 2 ∧
      (ops.foldl Op.next (start none)).nodes.length = 7 ∧ (ops.foldl Op.next (start none)).len = 4 := by
  intro ops
  have hspares {c : RadixCache} {op : Op} (h : victims (op.due c) (op.prepare c).coldest 0 = []) : op.Spares c := by
    simp [Op.Spares, h]
  have hfork : ∀ e ∈ victims 1 ((Op.evictColdest 1).prepare ((ops.take 3).foldl Op.next (start none))).coldest 0, e.2.1 = 1 := by
    decide +kernel
  refine ⟨always_nodes_le none ops ⟨hspares (by decide +kernel), hspares (by decide +kernel), hspares (by decide +kernel),
    fun e he => .inr ?_, hspares (by decide +kernel), hspares (by decide +kernel), trivial⟩, by decide +kernel,
    by decide +kernel, by decide +kernel, by decide +kernel⟩
  rw [hfork e he]
  exact ⟨2, 3, by decide, by decide +kernel, by decide +kernel⟩

-- Evicting an entry leaves its node in the arena.
theorem not_nodes_le :
    ¬∀ (capacity : Option Nat) (ops : List Op),
      Steps.Always Op.next (fun c => c.nodes.length ≤ 2 * c.len + 1) (start capacity) ops := by
  intro h
  have hlast := (h none [.insert [1] ⟨0, 1⟩ rfl, .evictColdest 1]).last
  have hfalse : ¬(Op.next (Op.next (start none) (.insert [1] ⟨0, 1⟩ rfl)) (.evictColdest 1)).nodes.length ≤
      2 * (Op.next (Op.next (start none) (.insert [1] ⟨0, 1⟩ rfl)) (.evictColdest 1)).len + 1 := by decide +kernel
  exact hfalse hlast

end RadixCache
