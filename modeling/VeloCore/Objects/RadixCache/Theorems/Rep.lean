import VeloCore.Objects.RadixCache.Entries

open List

namespace RadixCache

-- The shape of the tree, for a labelling of the nodes with their root paths.
structure Rep (c : RadixCache) (path : NodeId → List TokenId) : Prop where
  root      : path 0 = []
  nonempty  : (c.edge? 0).isSome
  child     : c.child? i t = some j → ∃ rest, c.edge? j = some (t :: rest) ∧ path j = path i ++ t :: rest
  parent    : 0 < j → (c.edge? j).isSome → ∃ i t, c.child? i t = some j
  injective : (c.edge? i).isSome → (c.edge? j).isSome → path i = path j → i = j
  handle    : c.handle? i = some h → h.tokenLen = (path i).length

variable {c c' : RadixCache} {path : NodeId → List TokenId}

namespace Rep

theorem edge?_isSome (r : Rep c path) (h : c.child? i t = some j) : (c.edge? j).isSome := by
  obtain ⟨rest, he, -⟩ := r.child h
  simp [he]

-- A node whose path goes on from the path of another lies below a child of that other node.
theorem exists_child (r : Rep c path) (hi : (c.edge? i).isSome) (hk : (c.edge? k).isSome)
    (h : path k = path i ++ t :: rest) : ∃ j, c.child? i t = some j ∧ path j <+: path k := by
  induction hn : (path k).length using Nat.strongRecOn generalizing i k t rest
  case ind n hind =>
    have hpos : 0 < k := by
      rw [Nat.pos_iff_ne_zero]
      rintro rfl
      simp [r.root] at h
    obtain ⟨p, u, hu⟩ := r.parent hpos hk
    have hp := edge?_isSome_of_child? hu
    obtain ⟨edge, he, hpk⟩ := r.child hu
    have hpi : path i <+: path k := ⟨_, h.symm⟩
    have hpp : path p <+: path k := ⟨_, hpk.symm⟩
    rcases Nat.lt_trichotomy (path i).length (path p).length with hl | hl | hl
    case inl =>
      -- `i` lies above the parent of `k`.
      obtain ⟨s, hs⟩ := prefix_of_prefix_length_le hpi hpp hl.le
      cases s
      case nil => simp at hs; simp [hs] at hl
      case cons v s =>
        rw [h, ← hs] at hpk
        have ⟨hv, _⟩ : t = v ∧ rest = s ++ u :: edge := by simpa using hpk
        obtain ⟨j, hj, hjp⟩ := hind (path p).length (by simp [← hn, h, ← hs, hpk]) hi hp hs.symm rfl
        exact ⟨j, hv ▸ hj, hjp.trans hpp⟩
    case inr.inl =>
      have hip : path i = path p := (prefix_of_prefix_length_le hpi hpp hl.le).eq_of_length hl
      obtain rfl := r.injective hi hp hip
      rw [h] at hpk
      have hv : t = u := by simpa using congrArg head? (append_cancel_left hpk)
      exact ⟨k, hv ▸ hu, prefix_rfl⟩
    case inr.inr =>
      -- `i` would lie on the edge that leads to `k`.
      obtain ⟨s, hs⟩ := prefix_of_prefix_length_le hpp hpi hl.le
      cases s
      case nil => simp at hs; simp [hs] at hl
      case cons v s =>
        have hik : (path i).length < (path k).length := by simp [h]
        obtain ⟨j, hj, hjp⟩ := hind (path i).length (by omega) hp hi hs.symm rfl
        rw [h, ← hs] at hpk
        have ⟨hv, _⟩ : v = u ∧ s ++ t :: rest = edge := by simpa using hpk
        rw [hv, hu] at hj
        cases hj
        exact absurd hjp.length_le (by omega)

variable {key : List TokenId} {hd : KvCacheHandle}

theorem rootPath (r : Rep c path) (hi : (c.edge? i).isSome) : c.RootPath i (path i) := by
  induction hn : (path i).length using Nat.strongRecOn generalizing i
  case ind n hind =>
    rcases Nat.eq_zero_or_pos i with rfl | hpos
    case inl => exact r.root ▸ .root hi
    case inr =>
      obtain ⟨p, t, ht⟩ := r.parent hpos hi
      obtain ⟨rest, he, hp⟩ := r.child ht
      exact hp ▸ .child (hind _ (by simp [← hn, hp]) (edge?_isSome_of_child? ht) rfl) ht he

theorem rootPath_iff (r : Rep c path) : c.RootPath i key ↔ (c.edge? i).isSome ∧ path i = key where
  mp h := by
    induction h
    case root h => exact ⟨h, r.root⟩
    case child ht he hind =>
      obtain ⟨rest, he', hp⟩ := r.child ht
      rw [he'] at he
      cases he
      exact ⟨by simp [he'], by rw [hp, hind.right]⟩
  mpr := fun ⟨hi, hp⟩ => hp ▸ r.rootPath hi

theorem live_iff (r : Rep c path) : c.Live key hd ↔ ∃ i, c.handle? i = some hd ∧ path i = key where
  mp  := fun ⟨i, hp, hh⟩ => ⟨i, hh, (r.rootPath_iff.mp hp).right⟩
  mpr := fun ⟨i, hh, hp⟩ => ⟨i, r.rootPath_iff.mpr ⟨edge?_isSome_of_handle? hh, hp⟩, hh⟩

theorem live_unique (r : Rep c path) (h₁ : c.Live key h₁') (h₂ : c.Live key h₂') : h₁' = h₂' := by
  obtain ⟨i, hi, hpi⟩ := r.live_iff.mp h₁
  obtain ⟨j, hj, hpj⟩ := r.live_iff.mp h₂
  obtain rfl := r.injective (edge?_isSome_of_handle? hi) (edge?_isSome_of_handle? hj) (hpi.trans hpj.symm)
  exact Option.some.inj (hi.symm.trans hj)

theorem entries_eq_some_iff (r : Rep c path) : c.entries key = some hd ↔ c.Live key hd := by
  unfold entries
  split
  case isTrue h =>
    rw [Option.some.injEq]
    exact ⟨fun he => he ▸ h.choose_spec, fun hl => r.live_unique h.choose_spec hl⟩
  case isFalse h => simpa using fun hl => h ⟨hd, hl⟩

theorem entries_path (r : Rep c path) (hi : (c.edge? i).isSome) :
    c.entries (path i) = c.handle? i := by
  ext h
  rw [r.entries_eq_some_iff, r.live_iff]
  refine ⟨fun ⟨j, hj, hp⟩ => ?_, fun hh => ⟨i, hh, rfl⟩⟩
  exact r.injective (edge?_isSome_of_handle? hj) hi hp ▸ hj

theorem mem_handles_iff (r : Rep c path) : hd ∈ c.handles ↔ ∃ key, c.entries key = some hd := by
  rw [RadixCache.mem_handles_iff]
  constructor
  case mp =>
    rintro ⟨i, hi⟩
    exact ⟨path i, (r.entries_path (edge?_isSome_of_handle? hi)).trans hi⟩
  case mpr =>
    rintro ⟨key, hk⟩
    have ⟨i, hi, _⟩ := r.live_iff.mp (r.entries_eq_some_iff.mp hk)
    exact ⟨i, hi⟩

theorem entries_eq_none (r : Rep c path) (h : ∀ i, (c.edge? i).isSome → path i ≠ key) :
    c.entries key = none := by
  rw [Option.eq_none_iff_forall_ne_some]
  intro hd he
  obtain ⟨i, hi, hp⟩ := r.live_iff.mp (r.entries_eq_some_iff.mp he)
  exact h i (edge?_isSome_of_handle? hi) hp

theorem tokenLen_eq (r : Rep c path) (h : c.entries key = some hd) : hd.tokenLen = key.length := by
  obtain ⟨i, hi, hp⟩ := r.live_iff.mp (r.entries_eq_some_iff.mp h)
  exact hp ▸ r.handle hi

theorem congr (r : Rep c path) (he : c'.edge? = c.edge?) (hc : c'.child? = c.child?)
    (hh : ∀ i hd, c'.handle? i = some hd → hd.tokenLen = (path i).length) : Rep c' path where
  root      := r.root
  nonempty  := he ▸ r.nonempty
  child     := he ▸ hc ▸ r.child
  parent    := he ▸ hc ▸ r.parent
  injective := he ▸ r.injective
  handle    := hh _ _

-- A change of times of access only.
theorem same {d : RadixCache} (r : Rep c path) (he : d.edge? = c.edge?) (hc : d.child? = c.child?)
    (hh : d.handle? = c.handle?) : Rep d path ∧ d.entries = c.entries := by
  have r' : Rep d path := r.congr he hc fun _ _ h => r.handle (hh ▸ h)
  refine ⟨r', funext fun key => Option.ext fun hd => ?_⟩
  rw [r'.entries_eq_some_iff, r.entries_eq_some_iff, r'.live_iff, r.live_iff, hh]

-- Setting the handle of a node changes the entry at its path only.
theorem setHandle {o : Option KvCacheHandle} (r : Rep c path) (hi : (c.edge? i).isSome)
    (hlen : ∀ h, o = some h → h.tokenLen = (path i).length) :
    Rep (c.setHandle i o) path ∧
      (c.setHandle i o).entries = Function.update c.entries (path i) o := by
  have r' : Rep (c.setHandle i o) path := by
    refine r.congr edge?_setHandle child?_setHandle fun j h hj => ?_
    rw [handle?_setHandle hi] at hj
    rcases eq_or_ne j i with rfl | hji
    case inl => exact hlen h (by simpa using hj)
    case inr => exact r.handle (by rwa [Function.update_of_ne hji] at hj)
  refine ⟨r', funext fun key => ?_⟩
  rcases eq_or_ne key (path i) with rfl | hk
  case inl =>
    rw [Function.update_self, r'.entries_path (by simpa using hi), handle?_setHandle hi,
      Function.update_self]
  case inr =>
    rw [Function.update_of_ne hk]
    refine Option.ext fun h => ?_
    rw [r'.entries_eq_some_iff, r.entries_eq_some_iff, r'.live_iff, r.live_iff, handle?_setHandle hi]
    refine exists_congr fun j => and_congr_left fun hp => ?_
    rw [Function.update_of_ne (by rintro rfl; exact hk hp.symm)]

end Rep

theorem edge?_new : new.edge? i = if i = 0 then some [] else none := by
  cases i <;> simp [edge?, new]

theorem child?_new : new.child? i t = none := by
  cases i <;> simp [child?, new]

theorem handle?_new : new.handle? i = none := by
  cases i <;> simp [handle?, new]

theorem rep_new : Rep new fun _ => [] where
  root      := rfl
  nonempty  := rfl
  child     := by simp [child?_new]
  parent    := fun hj h => absurd h (by simp [edge?_new, hj.ne'])
  injective := by simp [edge?_new]
  handle    := by simp [handle?_new]

theorem entries_new : new.entries = fun _ => none := by
  funext key
  refine Option.eq_none_iff_forall_ne_some.mpr fun hd he => ?_
  have ⟨i, hi, _⟩ := rep_new.live_iff.mp (rep_new.entries_eq_some_iff.mp he)
  simp [handle?_new] at hi

end RadixCache
