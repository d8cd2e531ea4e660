import VeloCore.Objects.Handle
import VeloCore.Primitives.Finmap
import Mathlib.Tactic

structure KvBlock where
  handle : KvCacheHandle
  bytes : Nat
deriving DecidableEq, Repr

inductive KvStoreError
  | emptyBlock
  | unknownBlock (handle : KvCacheHandle)
deriving DecidableEq, Repr

class KvBlockStore (σ : Type) where
  allocate : Nat → σ → Except KvStoreError KvCacheHandle × σ
  release : KvCacheHandle → σ → Except KvStoreError Unit × σ

-- What the engine relies on in a store. `Room n` says that there is room for `n` more blocks.
class LawfulKvBlockStore (σ : Type) [KvBlockStore σ] where
  Wf : σ → Prop
  Live : σ → KvCacheHandle → Prop
  Room : Nat → σ → Prop
  live_injective {s : σ} : Wf s → Live s h → Live s h' → h.blockId = h'.blockId → h = h'
  allocate_ok {s : σ} : Wf s → KvBlockStore.allocate n s = (.ok h, s') →
    Wf s' ∧ h.tokenLen = n ∧ (∀ h', Live s h' → h'.blockId ≠ h.blockId) ∧
    (∀ h', Live s' h' ↔ Live s h' ∨ h' = h) ∧ ∀ k, Room (k + 1) s → Room k s'
  allocate_error {s : σ} : KvBlockStore.allocate n s = (.error e, s') → s' = s
  allocate_isOk {s : σ} : 0 < n → Room (k + 1) s → ∃ h s', KvBlockStore.allocate n s = (.ok h, s')
  release_ok {s : σ} : Wf s → Live s h →
    ∃ s', KvBlockStore.release h s = (.ok (), s') ∧ Wf s' ∧ (∀ h', Live s' h' ↔ Live s h' ∧ h' ≠ h) ∧
    ∀ k, Room k s → Room (k + 1) s'
  room_of_succ {s : σ} : Room (k + 1) s → Room k s

-- The CPU store. The block ids of the source are `u64`s.
structure InMemoryKvStore where
  nextBlockId : Nat
  bytesPerToken : Nat
  blocks : Finmap fun _ : Nat => KvBlock

namespace InMemoryKvStore

def new (bytesPerToken : Nat) : InMemoryKvStore where
  nextBlockId := 1
  bytesPerToken := bytesPerToken
  blocks := ∅

def len (store : InMemoryKvStore) : Nat :=
  store.blocks.entries.card

def allocatedBytes (store : InMemoryKvStore) : Nat :=
  (store.blocks.entries.map (·.2.bytes)).sum

def get (store : InMemoryKvStore) (handle : KvCacheHandle) : Option KvBlock :=
  (store.blocks.lookup handle.blockId).filter (·.handle = handle)

def allocate (tokenLen : Nat) (store : InMemoryKvStore) :
    Except KvStoreError KvCacheHandle × InMemoryKvStore :=
  if tokenLen = 0 then
    (.error .emptyBlock, store)
  else
    let handle : KvCacheHandle := { blockId := store.nextBlockId, tokenLen }
    let block : KvBlock := { handle, bytes := tokenLen * store.bytesPerToken }
    (.ok handle, { store with
      nextBlockId := store.nextBlockId + 1
      blocks := store.blocks.insert handle.blockId block })

-- A block is taken out first, and put back when the handle turns out to be another one's.
def release (handle : KvCacheHandle) (store : InMemoryKvStore) :
    Except KvStoreError Unit × InMemoryKvStore :=
  match store.blocks.lookup handle.blockId with
  | none => (.error (.unknownBlock handle), store)
  | some block =>
    let blocks := store.blocks.erase handle.blockId
    if block.handle ≠ handle then
      (.error (.unknownBlock handle), { store with blocks := blocks.insert block.handle.blockId block })
    else
      (.ok (), { store with blocks })

instance : KvBlockStore InMemoryKvStore where
  allocate := allocate
  release := release

-- The handles of the blocks.
def Live (store : InMemoryKvStore) (handle : KvCacheHandle) : Prop :=
  (store.get handle).isSome

-- A block is stored under its own id, and all ids so far are below the next one.
structure Wf (store : InMemoryKvStore) : Prop where
  id : store.blocks.lookup k = some block → block.handle.blockId = k
  lt : store.blocks.lookup k = some block → k < store.nextBlockId

variable {store store' : InMemoryKvStore} {h h' : KvCacheHandle}

theorem live_iff : store.Live h ↔ ∃ block, store.blocks.lookup h.blockId = some block ∧ block.handle = h := by
  simp [Live, get, Option.any_eq_true]

theorem wf_new : (new n).Wf where
  id h := by simp [new] at h
  lt h := by simp [new] at h

theorem not_live_new : ¬(new n).Live h := by
  simp [live_iff, new]

theorem Wf.lookup_next (w : store.Wf) : store.blocks.lookup store.nextBlockId = none := by
  cases h : store.blocks.lookup store.nextBlockId
  case none => rfl
  case some => exact absurd (w.lt h) (Nat.lt_irrefl _)

theorem live_injective (h₁ : store.Live h) (h₂ : store.Live h') (he : h.blockId = h'.blockId) : h = h' := by
  have ⟨b, hb, hh⟩ := live_iff.mp h₁
  have ⟨b', hb', hh'⟩ := live_iff.mp h₂
  have hbb : b = b' := Option.some.inj <| hb.symm.trans <| he ▸ hb'
  rw [← hh, ← hh', hbb]

theorem allocate_ok (w : store.Wf) (he : store.allocate n = (.ok h, store')) :
    store'.Wf ∧ h.tokenLen = n ∧ (∀ h', store.Live h' → h'.blockId ≠ h.blockId) ∧
      ∀ h', store'.Live h' ↔ store.Live h' ∨ h' = h := by
  unfold allocate at he
  split at he
  case isTrue => simp at he
  case isFalse =>
    cases he
    refine ⟨⟨fun {k b} hk => ?_, fun {k b} hk => ?_⟩, rfl, fun h' hl => ?_, fun h' => ?_⟩
    case refine_1 =>
      rw [Finmap.lookup_insert_eq_ite] at hk
      split at hk
      case isTrue hkn => cases hk; exact hkn.symm
      case isFalse    => exact w.id hk
    case refine_2 =>
      rw [Finmap.lookup_insert_eq_ite] at hk
      split at hk
      case isTrue hkn => exact Nat.lt_succ_of_le hkn.le
      case isFalse    => exact Nat.lt_succ_of_lt (w.lt hk)
    case refine_3 =>
      have ⟨_, hb, _⟩ := live_iff.mp hl
      exact (w.lt hb).ne
    case refine_4 =>
      simp only [live_iff, Finmap.lookup_insert_eq_ite]
      split
      case isTrue heq =>
        have hnone : store.blocks.lookup h'.blockId = none := heq ▸ w.lookup_next
        simp [hnone, eq_comm]
      case isFalse hne =>
        refine (or_iff_left ?_).symm
        rintro rfl
        exact hne rfl

theorem allocate_error (he : store.allocate n = (.error e, store')) : store' = store := by
  unfold allocate at he
  split at he <;> cases he
  rfl

theorem release_ok (w : store.Wf) (hl : store.Live h) :
    ∃ store', store.release h = (.ok (), store') ∧ store'.Wf ∧
      ∀ h', store'.Live h' ↔ store.Live h' ∧ h' ≠ h := by
  have ⟨b, hb, hh⟩ := live_iff.mp hl
  have hlookup {k b} (hk : (store.blocks.erase h.blockId).lookup k = some b) :
      store.blocks.lookup k = some b := by
    rw [Finmap.lookup_erase_eq_ite] at hk
    split at hk
    case isTrue  => contradiction
    case isFalse => exact hk
  refine ⟨{ store with blocks := store.blocks.erase h.blockId }, by simp [release, hb, hh],
    ⟨fun hk => w.id (hlookup hk), fun hk => w.lt (hlookup hk)⟩, fun h' => ?_⟩
  simp only [live_iff, Finmap.lookup_erase_eq_ite]
  split
  case isTrue heq =>
    refine iff_of_false (by simp) fun ⟨hl', hne⟩ => hne ?_
    exact live_injective (live_iff.mpr hl') hl heq
  case isFalse hne =>
    refine (and_iff_left ?_).symm
    rintro rfl
    exact hne rfl

-- There is always room.
instance : LawfulKvBlockStore InMemoryKvStore where
  Wf := Wf
  Live := Live
  Room _ _ := True
  live_injective _ := live_injective
  allocate_ok w he :=
    have ⟨w', hl, hf, hi⟩ := allocate_ok w he
    ⟨w', hl, hf, hi, fun _ => id⟩
  allocate_error := allocate_error
  allocate_isOk hn _ := ⟨_, _, if_neg hn.ne'⟩
  release_ok w hl :=
    have ⟨s', he, w', hi⟩ := release_ok w hl
    ⟨s', he, w', hi, fun _ => id⟩
  room_of_succ := id

end InMemoryKvStore
