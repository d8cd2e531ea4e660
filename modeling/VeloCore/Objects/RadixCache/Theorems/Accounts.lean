import VeloCore.Objects.RadixCache.Operation

open List

namespace RadixCache

variable {c c' : RadixCache} {path : NodeId → List TokenId} {hd : KvCacheHandle} {o : Option KvCacheHandle} {i : NodeId}

def handleLen (o : Option KvCacheHandle) : Nat :=
  (o.map (·.tokenLen)).getD 0

-- The tokens under all handles
def total (c : RadixCache) : Nat :=
  ∑ i ∈ Finset.range c.nodes.length, handleLen (c.handle? i)

def Balanced (c : RadixCache) : Prop :=
  c.residentTokens = c.total

section Total

theorem total_of_le (h : c.nodes.length ≤ m) : ∑ i ∈ Finset.range m, handleLen (c.handle? i) = c.total := by
  refine (Finset.sum_subset (Finset.range_mono h) fun i _ hi => ?_).symm
  have hnone : c.handle? i = none := by
    rw [handle?, getElem?_eq_none (by simpa using hi)]
    rfl
  rw [hnone]
  rfl

theorem total_congr (h : c'.handle? = c.handle?) : c'.total = c.total := by
  rw [← total_of_le (le_max_left c'.nodes.length c.nodes.length), ← total_of_le (le_max_right c'.nodes.length c.nodes.length), h]

theorem total_setHandle (hi : (c.edge? i).isSome) :
    (c.setHandle i o).total + handleLen (c.handle? i) = c.total + handleLen o := by
  have hlen : (c.setHandle i o).nodes.length = c.nodes.length := by simp [setHandle, modifyNode]
  have hmem : i ∈ Finset.range c.nodes.length := Finset.mem_range.mpr (edge?_isSome_iff.mp hi)
  have hupdate (k : NodeId) : handleLen ((c.setHandle i o).handle? k) =
      Function.update (fun k => handleLen (c.handle? k)) i (handleLen o) k := by
    rw [handle?_setHandle hi, Function.apply_update (fun _ => handleLen)]
  rw [total, total, hlen, Finset.sum_congr rfl fun k _ => hupdate k, Finset.sum_update_of_mem hmem,
    Finset.sum_eq_add_sum_sdiff_singleton_of_mem hmem]
  omega

theorem handleLen_le_total (hi : (c.edge? i).isSome) : handleLen (c.handle? i) ≤ c.total := by
  have h := total_setHandle (o := none) hi
  have hnone : handleLen none = 0 := rfl
  omega

theorem sum_filterMap {α β : Type} (f : α → Option β) (g : β → Nat) (l : List α) :
    ((l.filterMap f).map g).sum = ∑ i ∈ Finset.range l.length, ((l[i]?.bind f).map g).getD 0 := by
  induction l
  case nil => rfl
  case cons a l hi =>
    rw [length_cons, Finset.sum_range_succ', filterMap_cons]
    cases h : f a <;> simp [h, hi, Nat.add_comm]

theorem handles_sum : (c.handles.map (·.tokenLen)).sum = c.total :=
  sum_filterMap (·.handle) (·.tokenLen) c.nodes

end Total

namespace Balanced

theorem dropHandle (h : Balanced c) (hi : c.handle? i = some hd) :
    Balanced (c.dropHandle i hd) ∧ (c.dropHandle i hd).residentTokens + hd.tokenLen = c.residentTokens := by
  have hsome := edge?_isSome_of_handle? hi
  have hset := total_setHandle (o := none) hsome
  have hle := handleLen_le_total hsome
  have hlen : handleLen (c.handle? i) = hd.tokenLen := by rw [hi]; rfl
  have hnone : handleLen none = 0 := rfl
  have htotal : (c.dropHandle i hd).total = (c.setHandle i none).total := total_congr rfl
  have hresident : (c.dropHandle i hd).residentTokens = c.residentTokens - hd.tokenLen := rfl
  rw [Balanced] at h ⊢
  omega

theorem dropHandles {es : List (Nat × NodeId × KvCacheHandle)} (h : Balanced c) (hh : Held c es) :
    Balanced (es.foldl (fun c e => c.dropHandle e.2.1 e.2.2) c) ∧
      (es.foldl (fun c e => c.dropHandle e.2.1 e.2.2) c).residentTokens + tokenSum es = c.residentTokens := by
  induction es generalizing c
  case nil => exact ⟨h, rfl⟩
  case cons e es hi =>
    have ⟨hb, hr⟩ := h.dropHandle hh.head
    have ⟨hb', hr'⟩ := hi hb hh.tail
    refine ⟨hb', ?_⟩
    rw [foldl_cons, tokenSum, map_cons, sum_cons, Nat.add_left_comm, ← tokenSum, hr', Nat.add_comm, hr]

end Balanced

-- The eviction goes through all entries.
theorem coldest_perm : (c.coldest.map (·.2.2)).Perm c.handles := by
  have hmap : (c.nodes.zipIdx.filterMap fun p => p.1.handle.map (p.1.lastAccessTick, p.2, ·)).map (·.2.2) =
      c.handles := by
    rw [map_filterMap, handles, ← zipIdx_map_fst 0 c.nodes, filterMap_map]
    simp [Function.comp_def]
  rw [← hmap]
  exact (perm_insertionSort ..).map _

theorem coldest_tokenSum : tokenSum c.coldest = c.total := by
  rw [← handles_sum, ← (coldest_perm.map _).sum_eq, map_map]
  rfl

namespace Balanced

theorem evictColdest (h : Balanced c) (n : Nat) : Balanced (c.evictColdest n).2 ∧
    (c.evictColdest n).2.residentTokens ≤ c.residentTokens - n := by
  have hafter : (c.evictColdest n).2 = (victims n c.coldest 0).foldl (fun c e => c.dropHandle e.2.1 e.2.2) c := by
    rw [evictColdest_eq]
  rw [hafter]
  have ⟨hb, hr⟩ := h.dropHandles (victims_held (n := n))
  refine ⟨hb, ?_⟩
  rcases @victims_enough c.coldest n 0 with hall | henough
  case inl =>
    have hsum : tokenSum (victims n c.coldest 0) = c.residentTokens := by rw [hall, coldest_tokenSum, h]
    omega
  case inr => omega

theorem prepare (h : Balanced c) (r : Rep c path) (op : Op) : Balanced (op.prepare c) := by
  cases op
  case evictColdest      => exact h
  case setCapacityTokens => exact h
  case lookup tokens =>
    have ⟨_, w⟩ := Op.prepare_lookup r tokens
    exact w.resident.trans (h.trans (total_congr w.handle).symm)
  case insert tokens hd hlen =>
    have ⟨leaf, c₁, _, g, hleaf, hprepare, _, _⟩ := Op.prepare_insert r hlen
    have hset := total_setHandle (o := some hd) g.isSome
    have hle := handleLen_le_total g.isSome
    have htotal : c₁.total = c.total := total_congr (g.grown.handle.trans handle?_touch)
    have hresident : c₁.residentTokens = c.residentTokens := g.grown.resident
    have hafter : (account (c.entries tokens) hd (touch leaf c.tick.clock (c₁.setHandle leaf (some hd)))).total =
        (c₁.setHandle leaf (some hd)).total := total_congr handle?_touch
    have haccount : (account (c.entries tokens) hd (touch leaf c.tick.clock (c₁.setHandle leaf (some hd)))).residentTokens =
        c₁.residentTokens - handleLen (c.entries tokens) + hd.tokenLen := rfl
    have hsome : handleLen (some hd) = hd.tokenLen := rfl
    rw [hprepare, Balanced]
    rw [hleaf] at hset hle
    rw [Balanced] at h
    omega

theorem next (h : Balanced c) (r : Rep c path) (op : Op) : Balanced (op.next c) := by
  rw [op.next_eq r]
  exact ((h.prepare r op).evictColdest _).left

end Balanced

theorem run_balanced (capacity : Option Nat) (ops : List Op) : Balanced (run capacity ops) := by
  induction ops using reverseRecOn
  case nil => cases capacity <;> rfl
  case append_singleton ops op hi =>
    have ⟨_, r⟩ := run_rep capacity ops
    rw [run_concat]
    exact hi.next r op

-- The live keys of a cache
structure Lists (keys : List (List TokenId)) (c : RadixCache) : Prop where
  nodup : keys.Nodup
  live  : key ∈ keys ↔ (c.entries key).isSome

theorem coldest_lists (r : Rep c path) : Lists (c.coldest.map (path ·.2.1)) c where
  nodup := by
    have hpath : c.coldest.map (path ·.2.1) = (c.coldest.map (·.2.1)).map path := by rw [map_map]; rfl
    rw [hpath]
    refine coldest_nodup.map_on fun i hi j hj h => ?_
    have hsome {i} (hi : i ∈ c.coldest.map (·.2.1)) : (c.edge? i).isSome := by
      have ⟨e, he, hei⟩ := mem_map.mp hi
      exact hei ▸ edge?_isSome_of_handle? (mem_coldest he)
    exact r.injective (hsome hi) (hsome hj) h
  live {key} := by
    rw [mem_map, Option.isSome_iff_exists]
    constructor
    case mp =>
      rintro ⟨e, he, rfl⟩
      have hh := mem_coldest he
      exact ⟨e.2.2, (r.entries_path (edge?_isSome_of_handle? hh)).trans hh⟩
    case mpr =>
      rintro ⟨hd, hk⟩
      have ⟨i, hi, hp⟩ := r.live_iff.mp (r.entries_eq_some_iff.mp hk)
      have ⟨tick, hmem⟩ := exists_mem_coldest hi
      exact ⟨_, hmem, hp⟩

theorem coldest_len : c.len = c.coldest.length := by
  have hlen := (coldest_perm (c := c)).length_eq
  rw [length_map] at hlen
  rw [hlen, len, handles, ← countP_eq_length_filter, length_filterMap_eq_countP]

-- The resident tokens are those of the live entries, after every operation, and those that insert or set the capacity
-- leave no more of them than the capacity.
theorem run_accounts (capacity : Option Nat) (ops : List Op) :
    let c := run capacity ops
    (∃ keys, Lists keys c ∧ c.len = keys.length ∧
      c.residentTokens = (keys.map fun key => handleLen (c.entries key)).sum) ∧
    (∀ tokens hd h, ∀ limit ∈ ((Op.insert tokens hd h).next c).capacityTokens,
      ((Op.insert tokens hd h).next c).residentTokens ≤ limit) ∧
    ∀ n, ∀ limit ∈ ((Op.setCapacityTokens n).next c).capacityTokens,
      ((Op.setCapacityTokens n).next c).residentTokens ≤ limit := by
  have hb := run_balanced capacity ops
  have ⟨path, r⟩ := run_rep capacity ops
  generalize run capacity ops = c at hb r ⊢
  have hcap (op : Op) (hdue : op.due c = (op.prepare c).overflow) :
      ∀ limit ∈ (op.next c).capacityTokens, (op.next c).residentTokens ≤ limit := by
    intro limit hlimit
    have ⟨_, r'⟩ := op.prepare_rep r
    rw [op.next_eq r] at hlimit ⊢
    have hle := ((hb.prepare r op).evictColdest (op.due c)).right
    rw [(evictColdest_victims r').right.capacity, Option.mem_def] at hlimit
    have hover : (op.prepare c).overflow = (op.prepare c).residentTokens - limit := by
      rw [overflow, hlimit, Option.elim_some]
    omega
  refine ⟨⟨_, coldest_lists r, ?_, ?_⟩, fun tokens hd h => hcap _ rfl, fun n => hcap _ rfl⟩
  case refine_1 => rw [coldest_len, length_map]
  case refine_2 =>
    have hsum : (c.coldest.map (path ·.2.1)).map (fun key => handleLen (c.entries key)) =
        c.coldest.map (·.2.2.tokenLen) := by
      rw [map_map]
      refine map_congr_left fun e he => ?_
      have hh := mem_coldest he
      simp only [Function.comp, r.entries_path (edge?_isSome_of_handle? hh), hh]
      rfl
    rw [hsum, ← tokenSum, coldest_tokenSum]
    exact hb

end RadixCache
