import VeloCore.Objects.KvStore

open List

structure MetalKvBlock where
  handle : KvCacheHandle
  bytes : Nat
  offset : Nat
deriving DecidableEq, Repr

-- The store of the Metal runtime, less its two buffers. The offsets are a stack with its top at the end.
structure MetalKvStore where
  nextBlockId : Nat
  bytesPerToken : Nat
  blocks : Finmap fun _ : Nat => MetalKvBlock
  freeOffsets : List Nat

namespace MetalKvStore

def new (kvBytesPerToken poolPages pageTokens : Nat) : MetalKvStore where
  nextBlockId := 1
  bytesPerToken := kvBytesPerToken
  blocks := ∅
  freeOffsets := ((range poolPages).map (· * (pageTokens * kvBytesPerToken))).reverse

-- The number of live blocks.
def len (store : MetalKvStore) : Nat :=
  store.blocks.entries.card

def allocatedBytes (store : MetalKvStore) : Nat :=
  (store.blocks.entries.map (·.2.bytes)).sum

def allocate (tokenLen : Nat) (store : MetalKvStore) : Except KvStoreError KvCacheHandle × MetalKvStore :=
  match store.freeOffsets.getLast? with
  | none => (.error .emptyBlock, store)
  | some offset =>
    let handle : KvCacheHandle := { blockId := store.nextBlockId, tokenLen }
    let block : MetalKvBlock := { handle, bytes := tokenLen * store.bytesPerToken, offset }
    (.ok handle, { store with
      nextBlockId := store.nextBlockId + 1
      blocks := store.blocks.insert handle.blockId block
      freeOffsets := store.freeOffsets.dropLast })

def getBlock (store : MetalKvStore) (handle : KvCacheHandle) : Option MetalKvBlock :=
  (store.blocks.lookup handle.blockId).filter (·.handle = handle)

-- The handle is not compared with the one of the block.
def releaseBlock (handle : KvCacheHandle) (store : MetalKvStore) : Except KvStoreError Unit × MetalKvStore :=
  match store.blocks.lookup handle.blockId with
  | none => (.error (.unknownBlock handle), store)
  | some block =>
    (.ok (), { store with
      blocks := store.blocks.erase handle.blockId
      freeOffsets := store.freeOffsets ++ [block.offset] })

instance : KvBlockStore MetalKvStore where
  allocate := allocate
  release := releaseBlock

def Live (store : MetalKvStore) (handle : KvCacheHandle) : Prop :=
  (store.getBlock handle).isSome

structure Wf (store : MetalKvStore) : Prop where
  id : store.blocks.lookup k = some block → block.handle.blockId = k
  lt : store.blocks.lookup k = some block → k < store.nextBlockId

variable {store store' : MetalKvStore} {h h' : KvCacheHandle}

theorem live_iff : store.Live h ↔ ∃ block, store.blocks.lookup h.blockId = some block ∧ block.handle = h := by
  simp [Live, getBlock, Option.any_eq_true]

theorem wf_new : (new n p t).Wf where
  id h := by simp [new] at h
  lt h := by simp [new] at h

theorem not_live_new : ¬(new n p t).Live h := by
  simp [live_iff, new]

theorem live_injective (h₁ : store.Live h) (h₂ : store.Live h') (he : h.blockId = h'.blockId) : h = h' := by
  have ⟨b, hb, hh⟩ := live_iff.mp h₁
  have ⟨b', hb', hh'⟩ := live_iff.mp h₂
  have hbb : b = b' := Option.some.inj <| hb.symm.trans <| he ▸ hb'
  rw [← hh, ← hh', hbb]

theorem allocate_eq_ok (he : store.allocate n = (.ok h, store')) : ∃ offset, store.freeOffsets.getLast? = some offset ∧
    h = ⟨store.nextBlockId, n⟩ ∧ store' = { store with
      nextBlockId := store.nextBlockId + 1
      blocks := store.blocks.insert h.blockId ⟨h, n * store.bytesPerToken, offset⟩
      freeOffsets := store.freeOffsets.dropLast } := by
  unfold allocate at he
  split at he
  case h_1 => simp at he
  case h_2 offset ho =>
    cases he
    exact ⟨offset, ho, rfl, rfl⟩

theorem allocate_ok (w : store.Wf) (he : store.allocate n = (.ok h, store')) :
    store'.Wf ∧ h.tokenLen = n ∧ (∀ h', store.Live h' → h'.blockId ≠ h.blockId) ∧
      (∀ h', store'.Live h' ↔ store.Live h' ∨ h' = h) ∧
      store.freeOffsets.length = store'.freeOffsets.length + 1 := by
  obtain ⟨offset, ho, rfl, rfl⟩ := allocate_eq_ok he
  have hnone : store.blocks.lookup store.nextBlockId = none := by
    cases hl : store.blocks.lookup store.nextBlockId
    case none => rfl
    case some => exact absurd (w.lt hl) (Nat.lt_irrefl _)
  refine ⟨⟨fun {k b} hk => ?_, fun {k b} hk => ?_⟩, rfl, fun h' hl => ?_, fun h' => ?_, ?_⟩
  case refine_1 =>
    rw [Finmap.lookup_insert_eq_ite] at hk
    split at hk
    case isTrue hkn => cases hk; exact hkn.symm
    case isFalse    => exact w.id hk
  case refine_2 =>
    rw [Finmap.lookup_insert_eq_ite] at hk
    split at hk
    case isTrue hkn => exact Nat.lt_succ_of_le hkn.le
    case isFalse    => exact Nat.lt_succ_of_lt (w.lt hk)
  case refine_3 =>
    have ⟨_, hb, _⟩ := live_iff.mp hl
    exact (w.lt hb).ne
  case refine_4 =>
    simp only [live_iff, Finmap.lookup_insert_eq_ite]
    split
    case isTrue heq =>
      have hnone : store.blocks.lookup h'.blockId = none := heq ▸ hnone
      simp [hnone, eq_comm]
    case isFalse hne =>
      refine (or_iff_left ?_).symm
      rintro rfl
      exact hne rfl
  case refine_5 =>
    have hpos : 0 < store.freeOffsets.length := length_pos_iff.mpr fun hn => by simp [hn] at ho
    simp only [length_dropLast]
    omega

theorem allocate_error (he : store.allocate n = (.error e, store')) : store' = store := by
  unfold allocate at he
  split at he <;> cases he
  rfl

theorem allocate_isOk (hroom : 0 < store.freeOffsets.length) : ∃ h store', store.allocate n = (.ok h, store') := by
  have ⟨offset, ho⟩ := Option.isSome_iff_exists.mp (getLast?_isSome.mpr (ne_nil_of_length_pos hroom))
  unfold allocate
  rw [ho]
  exact ⟨_, _, rfl⟩

theorem release_ok (w : store.Wf) (hl : store.Live h) :
    ∃ store', store.releaseBlock h = (.ok (), store') ∧ store'.Wf ∧
      (∀ h', store'.Live h' ↔ store.Live h' ∧ h' ≠ h) ∧
      store'.freeOffsets.length = store.freeOffsets.length + 1 := by
  have ⟨b, hb, hh⟩ := live_iff.mp hl
  have hlookup {k b} (hk : (store.blocks.erase h.blockId).lookup k = some b) :
      store.blocks.lookup k = some b := by
    rw [Finmap.lookup_erase_eq_ite] at hk
    split at hk
    case isTrue  => contradiction
    case isFalse => exact hk
  refine ⟨{ store with blocks := store.blocks.erase h.blockId, freeOffsets := store.freeOffsets ++ [b.offset] },
    by simp [releaseBlock, hb], ⟨fun hk => w.id (hlookup hk), fun hk => w.lt (hlookup hk)⟩, fun h' => ?_, by simp⟩
  simp only [live_iff, Finmap.lookup_erase_eq_ite]
  split
  case isTrue heq =>
    refine iff_of_false (by simp) fun ⟨hl', hne⟩ => hne ?_
    exact live_injective (live_iff.mpr hl') hl heq
  case isFalse hne =>
    refine (and_iff_left ?_).symm
    rintro rfl
    exact hne rfl

-- There is room as long as there are free offsets.
instance : LawfulKvBlockStore MetalKvStore where
  Wf := Wf
  Live := Live
  Room k store := k ≤ store.freeOffsets.length
  live_injective _ := live_injective
  allocate_ok w he :=
    have ⟨w', hl, hf, hi, hfree⟩ := allocate_ok w he
    ⟨w', hl, hf, hi, fun k hk => by omega⟩
  allocate_error := allocate_error
  allocate_isOk _ hroom := allocate_isOk (by omega)
  release_ok w hl :=
    have ⟨s', he, w', hi, hfree⟩ := release_ok w hl
    ⟨s', he, w', hi, fun k hk => by omega⟩
  room_of_succ h := by omega

end MetalKvStore
