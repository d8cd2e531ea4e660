import Mathlib
import VeloCore.Objects.Metal.KvStore
import VeloCore.Primitives.Steps

open List

namespace MetalKvStore

-- The calls that change a store.
inductive Call
  | allocate (tokenLen : Nat)
  | release (handle : KvCacheHandle)
deriving DecidableEq, Repr

def Call.run (store : MetalKvStore) : Call → MetalKvStore
  | .allocate tokenLen => (store.allocate tokenLen).2
  | .release handle    => (store.releaseBlock handle).2

end MetalKvStore

namespace MetalKvBlock

-- The bytes of a block in a pool.
def region (block : MetalKvBlock) : Set Nat :=
  Set.Ico block.offset (block.offset + block.bytes)

end MetalKvBlock

namespace MetalKvStore

-- The regions of the live blocks, in the pool of one layer.
structure Apart (layerBytes : Nat) (store : MetalKvStore) : Prop where
  disjoint : ∀ k k' block block', store.blocks.lookup k = some block → store.blocks.lookup k' = some block' → k ≠ k' →
    Disjoint block.region block'.region
  inside   : ∀ k block, store.blocks.lookup k = some block → block.offset + block.bytes ≤ layerBytes

-- Each page is free or belongs to a block that fits into it.
structure Paged (kvBytesPerToken poolPages pageTokens : Nat) (store : MetalKvStore) : Prop where
  wf            : store.Wf
  bytesPerToken : store.bytesPerToken = kvBytesPerToken
  offsets       : store.blocks.bindValues (fun block => {block.offset}) + (store.freeOffsets : Multiset Nat) =
    (range poolPages).map (· * (pageTokens * kvBytesPerToken))
  fits          : ∀ k block, store.blocks.lookup k = some block → block.bytes ≤ pageTokens * kvBytesPerToken

variable {t n p m : Nat} {store : MetalKvStore}

theorem paged_new : (new t n p).Paged t n p where
  wf            := wf_new
  bytesPerToken := rfl
  offsets       := by simp [new]
  fits _ _ h    := by simp [new] at h

namespace Paged

theorem offset (h : store.Paged t n p) {k : Nat} {block : MetalKvBlock} (hb : store.blocks.lookup k = some block) :
    ∃ i < n, block.offset = i * (p * t) := by
  have hmem : block.offset ∈ ((range n).map (· * (p * t)) : Multiset Nat) := by
    rw [← h.offsets, Finmap.bindValues_erase hb]
    simp
  have ⟨i, hi, he⟩ := mem_map.mp (Multiset.mem_coe.mp hmem)
  exact ⟨i, mem_range.mp hi, he.symm⟩

theorem apart (h : store.Paged t n p) : store.Apart (n * (p * t)) where
  disjoint k k' block block' hb hb' hne := by
    have hfit := h.fits k block hb
    have hfit' := h.fits k' block' hb'
    have ⟨i, _, hi⟩ := h.offset hb
    have ⟨j, _, hj⟩ := h.offset hb'
    refine Set.disjoint_left.mpr fun x hx hx' => ?_
    have ⟨hle, hlt⟩ := Set.mem_Ico.mp hx
    have ⟨hle', hlt'⟩ := Set.mem_Ico.mp hx'
    have hpos : 0 < p * t := by omega
    -- Two blocks have different pages.
    have hpages : block.offset ≠ block'.offset := by
      have hnodup : ((range n).map (· * (p * t)) : Multiset Nat).Nodup :=
        Multiset.coe_nodup.mpr (nodup_range.map fun a b hab => Nat.eq_of_mul_eq_mul_right hpos hab)
      have herase : (store.blocks.erase k).lookup k' = some block' := by
        rw [Finmap.lookup_erase_eq_ite, if_neg hne.symm, hb']
      rw [← h.offsets, Finmap.bindValues_erase hb, Finmap.bindValues_erase herase] at hnodup
      intro heq
      rw [heq] at hnodup
      simp [Multiset.nodup_cons] at hnodup
    rcases Nat.lt_trichotomy i j with hij | hij | hij
    case inl =>
      have hpage := Nat.mul_le_mul_right (p * t) (Nat.succ_le_of_lt hij)
      rw [Nat.succ_mul] at hpage
      omega
    case inr.inl => exact hpages (by rw [hi, hj, hij])
    case inr.inr =>
      have hpage := Nat.mul_le_mul_right (p * t) (Nat.succ_le_of_lt hij)
      rw [Nat.succ_mul] at hpage
      omega
  inside k block hb := by
    have ⟨i, hi, ho⟩ := h.offset hb
    have hfit := h.fits k block hb
    have hpage := Nat.mul_le_mul_right (p * t) (Nat.succ_le_of_lt hi)
    rw [Nat.succ_mul] at hpage
    omega

theorem allocate (h : store.Paged t n p) (hm : t = 0 ∨ n = 0 ∨ m ≤ p) : (store.allocate m).2.Paged t n p := by
  match ha : store.allocate m with
  | (.error e, store') => exact allocate_error ha ▸ h
  | (.ok handle, store') =>
    have hw := (allocate_ok h.wf ha).left
    obtain ⟨offset, ho, rfl, rfl⟩ := allocate_eq_ok ha
    refine ⟨hw, h.bytesPerToken, ?_, fun k block hk => ?_⟩
    case refine_1 =>
      have hnone : store.blocks.lookup store.nextBlockId = none := by
        cases hl : store.blocks.lookup store.nextBlockId
        case none => rfl
        case some => exact absurd (h.wf.lt hl) (Nat.lt_irrefl _)
      have hfree : store.freeOffsets = store.freeOffsets.dropLast ++ [offset] :=
        (dropLast_append_getLast? offset ho).symm
      have hold := h.offsets
      rw [hfree, ← Multiset.coe_add] at hold
      rw [Finmap.bindValues_insert hnone, ← hold]
      simp only [Multiset.coe_singleton]
      abel
    case refine_2 =>
      dsimp only at hk
      rw [Finmap.lookup_insert_eq_ite] at hk
      split at hk
      case isFalse => exact h.fits k block hk
      case isTrue =>
        cases hk
        rw [h.bytesPerToken]
        rcases hm with rfl | rfl | hm
        case inl => exact Nat.le_refl 0
        case inr.inr => exact Nat.mul_le_mul_right t hm
        case inr.inl =>
          -- There is no page to take.
          have hempty : store.freeOffsets = [] := by
            have hzero := h.offsets
            simp only [range_zero, map_nil, Multiset.coe_nil, add_eq_zero] at hzero
            simpa using hzero.right
          simp [hempty] at ho

theorem releaseBlock (h : store.Paged t n p) (handle : KvCacheHandle) : (store.releaseBlock handle).2.Paged t n p := by
  unfold MetalKvStore.releaseBlock
  split
  case h_1 => exact h
  case h_2 block hb =>
    have hlookup {k block} (hk : (store.blocks.erase handle.blockId).lookup k = some block) :
        store.blocks.lookup k = some block := by
      rw [Finmap.lookup_erase_eq_ite] at hk
      split at hk
      case isTrue  => contradiction
      case isFalse => exact hk
    refine ⟨⟨fun hk => h.wf.id (hlookup hk), fun hk => h.wf.lt (hlookup hk)⟩, h.bytesPerToken, ?_,
      fun k b hk => h.fits k b (hlookup hk)⟩
    have hold := h.offsets
    rw [Finmap.bindValues_erase hb] at hold
    rw [← hold, ← Multiset.coe_add]
    simp only [Multiset.coe_singleton]
    abel

theorem run (h : store.Paged t n p) (c : Call) (hc : ∀ m, c = .allocate m → t = 0 ∨ n = 0 ∨ m ≤ p) :
    (c.run store).Paged t n p := by
  cases c
  case allocate m     => exact h.allocate (hc m rfl)
  case release handle => exact h.releaseBlock handle

end Paged

theorem new_succ_freeOffsets :
    (new t (n + 1) p).freeOffsets = ((range n).map fun i => (i + 1) * (p * t)).reverse ++ [0] := by
  simp [new, range_succ_eq_map, Function.comp_def]

-- The first block has the first page.
theorem allocate_new : (new t (n + 1) p).allocate m = (.ok ⟨1, m⟩, {
    nextBlockId := 2
    bytesPerToken := t
    blocks := Finmap.insert 1 ⟨⟨1, m⟩, m * t, 0⟩ ∅
    freeOffsets := ((range n).map fun i => (i + 1) * (p * t)).reverse }) := by
  unfold allocate
  rw [new_succ_freeOffsets, getLast?_concat, dropLast_concat]
  rfl

-- An allocation of more tokens than a page holds reaches into the next page, or out of the pool.
theorem not_apart_of_lt (ht : 0 < t) (hm : p < m) : ¬Steps.Always Call.run (Apart ((n + 1) * (p * t))) (new t (n + 1) p)
    [.allocate m, .allocate 1] := by
  intro h
  have hlong : p * t < m * t := Nat.mul_lt_mul_of_pos_right hm ht
  have hfirst := h.right.head
  have hsecond := h.right.right
  simp only [Call.run, allocate_new] at hfirst hsecond
  cases n
  case zero =>
    have := hfirst.inside 1 ⟨⟨1, m⟩, m * t, 0⟩ (Finmap.lookup_insert _)
    simp only [Nat.zero_add, Nat.one_mul] at this
    omega
  case succ n =>
    have hfree : ((range (n + 1)).map fun i => (i + 1) * (p * t)).reverse.getLast? = some (p * t) := by
      simp [range_succ_eq_map]
    simp only [Steps.Always, allocate, hfree] at hsecond
    have hd := hsecond.disjoint 1 2 ⟨⟨1, m⟩, m * t, 0⟩ ⟨⟨2, 1⟩, 1 * t, p * t⟩
      (by rw [Finmap.lookup_insert_of_ne _ (by decide), Finmap.lookup_insert]) (Finmap.lookup_insert _) (by decide)
    have hin : p * t ∈ MetalKvBlock.region ⟨⟨1, m⟩, m * t, 0⟩ := Set.mem_Ico.mpr ⟨Nat.zero_le _, by dsimp only; omega⟩
    have hin' : p * t ∈ MetalKvBlock.region ⟨⟨2, 1⟩, 1 * t, p * t⟩ := Set.mem_Ico.mpr ⟨Nat.le_refl _, by dsimp only; omega⟩
    exact Set.disjoint_left.mp hd hin hin'

-- Whatever is allocated and released, the regions stay apart just when no allocation asks for more tokens than a page
-- holds, unless there are no bytes or no pages at all.
theorem apart_iff (kvBytesPerToken poolPages pageTokens maxLen : Nat) :
    (∀ calls : List Call, (∀ m, .allocate m ∈ calls → m ≤ maxLen) →
      Steps.Always Call.run (Apart (poolPages * (pageTokens * kvBytesPerToken)))
        (new kvBytesPerToken poolPages pageTokens) calls) ↔
      kvBytesPerToken = 0 ∨ poolPages = 0 ∨ maxLen ≤ pageTokens := by
  constructor
  case mp =>
    intro h
    by_contra hn
    push Not at hn
    have ⟨ht, hpages, hm⟩ := hn
    have ⟨n, hn⟩ := Nat.exists_eq_succ_of_ne_zero hpages
    subst hn
    refine not_apart_of_lt (Nat.pos_of_ne_zero ht) hm (h _ fun m' hm' => ?_)
    have : m' = maxLen ∨ m' = 1 := by simpa using hm'
    omega
  case mpr =>
    intro h calls hcalls
    suffices hp : Steps.Always Call.run (Paged kvBytesPerToken poolPages pageTokens)
        (new kvBytesPerToken poolPages pageTokens) calls from hp.mono fun _ => Paged.apart
    refine (Steps.Along.of_mem (P := fun _ c => c ∈ calls) fun _ _ hc => hc).always paged_new fun s c hs hc =>
      hs.run c fun m hm => ?_
    have hle := hcalls m (hm ▸ hc)
    omega

-- The first block is longer than a page, and reaches into the second one.
theorem exists_not_apart : ¬Steps.Always Call.run (Apart (2 * (4 * 1))) (new 1 2 4) [.allocate 5, .allocate 1] :=
  not_apart_of_lt (by decide) (by decide)

end MetalKvStore
