import VeloCore.Objects.RadixCache.Theorems.Rep

open List

namespace RadixCache

variable {c c' : RadixCache} {path : NodeId → List TokenId} {key : List TokenId}
  {keys : List (List TokenId)} {handles : List KvCacheHandle}

-- The entries under `keys` were removed, and nothing else happened to the map.
structure Removed (c c' : RadixCache) (keys : List (List TokenId)) (handles : List KvCacheHandle) :
    Prop where
  nodup     : keys.Nodup
  evicted   : keys.map c.entries = handles.map some
  entries   : ∀ key, c'.entries key = if key ∈ keys then none else c.entries key
  capacity  : c'.capacityTokens = c.capacityTokens

namespace Removed

theorem none : Removed c c [] [] :=
  ⟨nodup_nil, rfl, fun _ => by simp, rfl⟩

theorem live (h : Removed c c' keys handles) (hk : key ∈ keys) : ∃ hd, c.entries key = some hd := by
  have hk := mem_map_of_mem (f := c.entries) hk
  rw [h.evicted] at hk
  have ⟨hd, _, he⟩ := mem_map.mp hk
  exact ⟨hd, he.symm⟩

end Removed

theorem Rep.dropHandle (r : Rep c path) (h : c.handle? i = some hd) :
    Rep (c.dropHandle i hd) path ∧
      (c.dropHandle i hd).entries = Function.update c.entries (path i) .none := by
  obtain ⟨r₁, he₁⟩ := r.setHandle (edge?_isSome_of_handle? h) (o := .none) (by simp)
  obtain ⟨r₂, he₂⟩ := r₁.same (d := c.dropHandle i hd) rfl rfl rfl
  exact ⟨r₂, he₂.trans he₁⟩

theorem handle?_dropHandle (h : c.handle? i = some hd) (hji : j ≠ i) :
    (c.dropHandle i hd).handle? j = c.handle? j := by
  have := handle?_setHandle (edge?_isSome_of_handle? h) (o := .none)
  exact (congrFun this j).trans (Function.update_of_ne hji ..)

theorem Removed.cons (r : Rep c path) (hi : c.handle? i = some hd)
    (h : Removed (c.dropHandle i hd) c' keys handles) :
    Removed c c' (path i :: keys) (hd :: handles) := by
  obtain ⟨-, he⟩ := r.dropHandle hi
  have hmem : path i ∉ keys := by
    intro hk
    obtain ⟨hd, hlive⟩ := h.live hk
    rw [he, Function.update_self] at hlive
    contradiction
  refine ⟨nodup_cons.mpr ⟨hmem, h.nodup⟩, ?_, fun key => ?_, h.capacity⟩
  case refine_1 =>
    rw [map_cons, map_cons, r.entries_path (edge?_isSome_of_handle? hi), hi, ← h.evicted]
    congr 1
    refine map_congr_left fun key hk => ?_
    rw [he, Function.update_of_ne (by rintro rfl; exact hmem hk)]
  case refine_2 =>
    rw [h.entries, he]
    rcases eq_or_ne key (path i) with rfl | hk <;> simp [*]

-- The entries that the loop evicts: the first ones, until enough tokens are freed
def victims (n : Nat) : List (Nat × NodeId × KvCacheHandle) → Nat → List (Nat × NodeId × KvCacheHandle)
  | [], _            => []
  | e :: es, freed =>
    if n ≤ freed then [] else e :: victims n es (freed + e.2.2.tokenLen)

section Victims

variable {es : List (Nat × NodeId × KvCacheHandle)} {n freed k : Nat}

def tokenSum (es : List (Nat × NodeId × KvCacheHandle)) : Nat :=
  (es.map (·.2.2.tokenLen)).sum

theorem victims_prefix : victims n es freed <+: es := by
  induction es generalizing freed
  case nil => exact prefix_rfl
  case cons e es hi =>
    rw [victims]
    split
    case isTrue  => exact nil_prefix
    case isFalse => exact (prefix_cons_inj e).mpr hi

-- No victim is one too many.
theorem victims_lt (h : k < (victims n es freed).length) : freed + tokenSum ((victims n es freed).take k) < n := by
  induction es generalizing freed k
  case nil => simp [victims] at h
  case cons e es hi =>
    rw [victims] at h ⊢
    split at h
    case isTrue => simp at h
    case isFalse hlt =>
      rw [if_neg hlt]
      cases k
      case zero => simpa [tokenSum] using hlt
      case succ k =>
        have hi := hi (by simpa using h)
        simp only [take_succ_cons, tokenSum, map_cons, sum_cons] at hi ⊢
        omega

-- The loop only stops short when enough is freed.
theorem victims_enough : victims n es freed = es ∨ n ≤ freed + tokenSum (victims n es freed) := by
  induction es generalizing freed
  case nil => exact .inl rfl
  case cons e es hi =>
    rw [victims]
    split
    case isTrue hle => exact .inr (by omega)
    case isFalse =>
      rcases @hi (freed + e.2.2.tokenLen) with heq | hle
      case inl => exact .inl (congrArg (e :: ·) heq)
      case inr =>
        refine .inr ?_
        simp only [tokenSum, map_cons, sum_cons] at hle ⊢
        omega

end Victims

-- The entries are live, each of them at a node of its own.
structure Held (c : RadixCache) (es : List (Nat × NodeId × KvCacheHandle)) : Prop where
  live  : ∀ e ∈ es, c.handle? e.2.1 = some e.2.2
  nodup : (es.map (·.2.1)).Nodup

namespace Held

variable {es es' : List (Nat × NodeId × KvCacheHandle)}

theorem head (h : Held c (e :: es)) : c.handle? e.2.1 = some e.2.2 :=
  h.live e mem_cons_self

theorem tail (h : Held c (e :: es)) : Held (c.dropHandle e.2.1 e.2.2) es := by
  have hn := h.nodup
  rw [map_cons, nodup_cons] at hn
  refine ⟨fun e' he => ?_, hn.right⟩
  rw [handle?_dropHandle h.head (fun heq => hn.left (heq ▸ mem_map_of_mem (f := fun e => e.2.1) he))]
  exact h.live e' (mem_cons_of_mem _ he)

theorem of_prefix (h : Held c es') (hp : es <+: es') : Held c es :=
  ⟨fun _ he => h.live _ (hp.mem he), h.nodup.sublist (hp.map (·.2.1)).sublist⟩

end Held

theorem evictLoop_eq {es : List (Nat × NodeId × KvCacheHandle)} (h : Held c es) : evictLoop n es freed c =
    ((victims n es freed).map (·.2.2), (victims n es freed).foldl (fun c e => c.dropHandle e.2.1 e.2.2) c) := by
  induction es generalizing c freed
  case nil => rfl
  case cons e es hi =>
    rw [evictLoop, victims]
    split
    case isTrue  => rfl
    case isFalse =>
      rw [if_pos (by exact h.head), hi h.tail]
      rfl

theorem dropHandles_removed {es : List (Nat × NodeId × KvCacheHandle)} (r : Rep c path) (h : Held c es) :
    Rep (es.foldl (fun c e => c.dropHandle e.2.1 e.2.2) c) path ∧
      Removed c (es.foldl (fun c e => c.dropHandle e.2.1 e.2.2) c) (es.map (path ·.2.1)) (es.map (·.2.2)) := by
  induction es generalizing c
  case nil => exact ⟨r, .none⟩
  case cons e es hi =>
    have ⟨r', hr⟩ := hi (r.dropHandle h.head).left h.tail
    exact ⟨r', hr.cons r h.head⟩

theorem mem_coldest_iff : e ∈ c.coldest ↔ c.tick? e.2.1 = some e.1 ∧ c.handle? e.2.1 = some e.2.2 := by
  rw [coldest, mem_insertionSort, mem_filterMap]
  constructor
  case mp =>
    rintro ⟨⟨node, id⟩, hm, he⟩
    obtain ⟨hd, hh, rfl⟩ := Option.map_eq_some_iff.mp he
    simp [handle?, tick?, mem_zipIdx_iff_getElem?.mp hm, hh]
  case mpr =>
    obtain ⟨tick, id, hd⟩ := e
    rintro ⟨ht, hh⟩
    obtain ⟨node, hnode, htick⟩ := Option.map_eq_some_iff.mp ht
    have hh : node.handle = some hd := by simpa [handle?, hnode] using hh
    refine ⟨(node, id), mem_zipIdx_iff_getElem?.mpr hnode, ?_⟩
    dsimp only
    rw [hh, Option.map_some, htick]

theorem mem_coldest (h : e ∈ c.coldest) : c.handle? e.2.1 = some e.2.2 :=
  (mem_coldest_iff.mp h).right

theorem exists_mem_coldest (h : c.handle? i = some hd) : ∃ tick, (tick, i, hd) ∈ c.coldest := by
  have ⟨node, hnode, hh⟩ := Option.bind_eq_some_iff.mp h
  exact ⟨node.lastAccessTick, mem_coldest_iff.mpr ⟨by simp [tick?, hnode], h⟩⟩

theorem map_filterMap_sublist {f : α → Option β} {g : β → γ} {k : α → γ} {l : List α}
    (h : ∀ a b, f a = some b → g b = k a) : ((l.filterMap f).map g).Sublist (l.map k) := by
  induction l
  case nil => simp
  case cons a l hi =>
    rw [filterMap_cons, map_cons]
    split
    case h_1        => exact hi.cons _
    case h_2 b hb   => simpa [h a b hb] using hi

theorem coldest_nodup : (c.coldest.map (·.2.1)).Nodup := by
  rw [coldest, ((perm_insertionSort ..).map _).nodup_iff]
  refine (map_filterMap_sublist (k := (·.2)) ?_).nodup (zipIdx_map_snd .. ▸ nodup_range')
  rintro ⟨node, id⟩ _ he
  obtain ⟨_, _, rfl⟩ := Option.map_eq_some_iff.mp he
  rfl

theorem coldest_held : Held c c.coldest :=
  ⟨fun _ => mem_coldest, coldest_nodup⟩

theorem victims_held : Held c (victims n c.coldest 0) :=
  coldest_held.of_prefix victims_prefix

theorem evictColdest_eq : c.evictColdest n = (⟨(victims n c.coldest 0).map (·.2.2)⟩,
    (victims n c.coldest 0).foldl (fun c e => c.dropHandle e.2.1 e.2.2) c) := by
  rw [evictColdest, evictLoop_eq coldest_held]

theorem evictColdest_victims (r : Rep c path) :
    Rep (c.evictColdest n).2 path ∧ Removed c (c.evictColdest n).2 ((victims n c.coldest 0).map (path ·.2.1))
      (c.evictColdest n).1.evicted := by
  rw [evictColdest_eq]
  exact dropHandles_removed r victims_held

theorem evictColdest_removed (r : Rep c path) :
    Rep (c.evictColdest n).2 path ∧
      ∃ keys, Removed c (c.evictColdest n).2 keys (c.evictColdest n).1.evicted :=
  have ⟨r', h⟩ := evictColdest_victims r
  ⟨r', _, h⟩

theorem evictColdest_zero : (c.evictColdest 0).2 = c := by
  rw [evictColdest]
  cases c.coldest <;> simp [evictLoop]

theorem evictColdest_empty (h : c.handles = []) : (c.evictColdest n).2 = c := by
  have hnil : c.coldest = [] := by
    refine eq_nil_iff_forall_not_mem.mpr fun e he => ?_
    have hmem := mem_handles_iff.mpr ⟨_, mem_coldest he⟩
    simp [h] at hmem
  rw [evictColdest, hnil, evictLoop]

theorem evictToCapacity_removed (r : Rep c path) :
    Rep c.evictToCapacity path ∧ ∃ keys handles, Removed c c.evictToCapacity keys handles := by
  unfold evictToCapacity
  split
  case h_1 => exact ⟨r, [], [], .none⟩
  case h_2 =>
    split
    case isTrue => exact ⟨r, [], [], .none⟩
    case isFalse =>
      obtain ⟨r', keys, h⟩ := evictColdest_removed r
      exact ⟨r', keys, _, h⟩

end RadixCache
