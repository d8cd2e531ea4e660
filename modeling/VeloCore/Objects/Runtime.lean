import VeloCore.Objects.KvStore
import VeloCore.Objects.PagedAttention
import VeloCore.Objects.SlotPool
import VeloCore.Objects.Speculative.Model

-- The fields of the configuration that only the Metal runtime and the models read are left out.
structure MemoryRuntimeConfig where
  bytesPerToken : Nat
  pagedBlockSize : Nat
  pagedTotalPages : Nat
  maxSlots : Nat
deriving DecidableEq, Repr

-- `store` and `store_mut` are a getter and a setter here, and so are `allocator` and
-- `allocator_mut`. All allocators of the source are the block manager, some of them behind a lock.
class MemoryRuntime (R : Type) where
  Store : Type
  [kvBlockStore : KvBlockStore Store]
  store : R → Store
  setStore : Store → R → R
  allocator : R → PagedAttentionBlockManager
  setAllocator : PagedAttentionBlockManager → R → R
  bindSlot : SlotId → List UInt32 → R → Except SpeculativeError Unit × R

attribute [reducible, instance] MemoryRuntime.kvBlockStore

open MemoryRuntime

-- The store and the allocator are separate parts of a runtime, and binding a slot touches neither.
-- It may refuse a list of more pages than there are.
class LawfulMemoryRuntime (R : Type) [MemoryRuntime R] where
  [lawfulStore : LawfulKvBlockStore (Store R)]
  Wf : R → Prop
  wf_setStore {r : R} : Wf r → Wf (setStore s r)
  wf_setAllocator {r : R} : Wf r → a.config = (allocator r).config → Wf (setAllocator a r)
  store_setStore {r : R} : store (setStore s r) = s
  store_setAllocator {r : R} : store (setAllocator a r) = store r
  allocator_setStore {r : R} : allocator (setStore s r) = allocator r
  allocator_setAllocator {r : R} : allocator (setAllocator a r) = a
  bindSlot_frame {r : R} : Wf r → bindSlot slot pages r = (res, r') →
    Wf r' ∧ store r' = store r ∧ allocator r' = allocator r
  bindSlot_isOk {r : R} : Wf r → pages.length ≤ (allocator r).config.totalPages →
    ∃ r', bindSlot slot pages r = (.ok (), r')

attribute [reducible, instance] LawfulMemoryRuntime.lawfulStore
attribute [simp] LawfulMemoryRuntime.store_setStore LawfulMemoryRuntime.store_setAllocator
attribute [simp] LawfulMemoryRuntime.allocator_setStore LawfulMemoryRuntime.allocator_setAllocator

namespace MemoryRuntime

variable {R : Type} [MemoryRuntime R] [LawfulMemoryRuntime R]

open LawfulMemoryRuntime LawfulKvBlockStore

-- The store and the allocator agree on the handles that memory is taken for.
structure Sound (r : R) : Prop where
  runtime   : LawfulMemoryRuntime.Wf r
  store     : LawfulKvBlockStore.Wf (MemoryRuntime.store r)
  allocator : (MemoryRuntime.allocator r).Wf
  mapped h  : (MemoryRuntime.allocator r).Mapped h ↔ Live (MemoryRuntime.store r) h

variable {r : R} {h : KvCacheHandle}

-- No pages are mapped for a handle that is new to the store.
theorem lookup_eq_none (w : Sound r) (hnew : ∀ h', Live (store r) h' → h'.blockId ≠ h.blockId) :
    (allocator r).mappings.lookup h.blockId = none := by
  cases hl : (allocator r).mappings.lookup h.blockId
  case none => rfl
  case some mapping =>
    have hid := w.allocator.id hl
    exact absurd hid (hnew _ <| (w.mapped _).mp ⟨mapping, hid ▸ hl, rfl⟩)

-- A block was allocated, and pages for it.
theorem Sound.reserve (w : Sound r) (hs : KvBlockStore.allocate n (MemoryRuntime.store r) = (.ok h, s))
    (ha : (MemoryRuntime.allocator r).allocate h n = (.ok mapping, a)) :
    Sound (setAllocator a (setStore s r)) ∧ h.tokenLen = n ∧ ¬Live (MemoryRuntime.store r) h ∧
      (∀ h', Live s h' ↔ Live (MemoryRuntime.store r) h' ∨ h' = h) ∧
      a.config = (MemoryRuntime.allocator r).config ∧
      (MemoryRuntime.allocator r).freePages.length =
        a.freePages.length + (MemoryRuntime.allocator r).pagesForTokens n ∧
      ∀ k, Room (k + 1) (MemoryRuntime.store r) → Room k s := by
  have ⟨hsw, hlen, hnew, hlive, hroom⟩ := allocate_ok w.store hs
  have hlookup := lookup_eq_none w hnew
  have ⟨haw, hac, ham, hfree⟩ := PagedAttentionBlockManager.allocate_ok w.allocator hlookup (hlen ▸ ha)
  refine ⟨⟨wf_setAllocator (wf_setStore w.runtime) (by simpa using hac), by simpa using hsw, by simpa using haw,
    fun h' => ?_⟩, hlen, fun hl => hnew h hl rfl, hlive, hac, hlen ▸ hfree, hroom⟩
  simp [ham, hlive, w.mapped]

-- A block was allocated, but there were no pages for it, and it was given back.
theorem Sound.rollback (w : Sound r) (hs : KvBlockStore.allocate n (MemoryRuntime.store r) = (.ok h, s))
    (ha : (MemoryRuntime.allocator r).allocate h n = (.error e, a)) :
    ∃ s', KvBlockStore.release h s = (.ok (), s') ∧ Sound (setStore s' (setAllocator a (setStore s r))) ∧
      a = MemoryRuntime.allocator r ∧ ∀ h', Live s' h' ↔ Live (MemoryRuntime.store r) h' := by
  have ⟨hsw, hlen, hnew, hlive, hroom⟩ := allocate_ok w.store hs
  have ⟨s', hr, hsw', hlive', hroom'⟩ := release_ok hsw ((hlive h).mpr (.inr rfl))
  have ha := PagedAttentionBlockManager.allocate_error ha
  have hsame h' : Live s' h' ↔ Live (MemoryRuntime.store r) h' := by
    rw [hlive', hlive]
    have hne (hl : Live (MemoryRuntime.store r) h') : h' ≠ h := fun heq => hnew h' hl (heq ▸ rfl)
    tauto
  refine ⟨s', hr, ⟨wf_setStore (wf_setAllocator (wf_setStore w.runtime) (by simp [ha])), by simpa using hsw',
    by simpa [ha] using w.allocator, fun h' => ?_⟩, ha, hsame⟩
  simp [ha, hsame, w.mapped]

-- The memory of a live handle is released, in the store and in the allocator.
theorem Sound.release (w : Sound r) (hl : Live (MemoryRuntime.store r) h) :
    ∃ s a, KvBlockStore.release h (MemoryRuntime.store r) = (.ok (), s) ∧
      (MemoryRuntime.allocator r).release h = (.ok (), a) ∧ Sound (setAllocator a (setStore s r)) ∧
      (∀ h', Live s h' ↔ Live (MemoryRuntime.store r) h' ∧ h' ≠ h) ∧
      a.config = (MemoryRuntime.allocator r).config ∧
      (MemoryRuntime.allocator r).freePages.length ≤ a.freePages.length ∧
      ∀ k, Room k (MemoryRuntime.store r) → Room k s := by
  have ⟨s, hs, hsw, hlive, hroom⟩ := release_ok w.store hl
  have ⟨a, ha, haw, hac, ham, hfree⟩ := PagedAttentionBlockManager.release_ok w.allocator ((w.mapped h).mpr hl)
  refine ⟨s, a, hs, ha, ⟨wf_setAllocator (wf_setStore w.runtime) (by simpa using hac), by simpa using hsw,
    by simpa using haw, fun h' => ?_⟩, hlive, hac, by omega, fun k hk => room_of_succ (hroom k hk)⟩
  simp [ham, hlive, w.mapped]

end MemoryRuntime

structure CpuMemoryRuntime where
  store : InMemoryKvStore
  allocator : PagedAttentionBlockManager

namespace CpuMemoryRuntime

def new (config : MemoryRuntimeConfig) : Except PageManagerError CpuMemoryRuntime :=
  (PagedAttentionConfig.new config.pagedBlockSize config.pagedTotalPages).map fun c =>
    { store := .new config.bytesPerToken, allocator := .new c }

instance : MemoryRuntime CpuMemoryRuntime where
  Store := InMemoryKvStore
  store := store
  setStore s r := { r with store := s }
  allocator := allocator
  setAllocator a r := { r with allocator := a }
  bindSlot _ _ r := (.ok (), r)

instance : LawfulMemoryRuntime CpuMemoryRuntime where
  lawfulStore := inferInstanceAs (LawfulKvBlockStore InMemoryKvStore)
  Wf _ := True
  wf_setStore := id
  wf_setAllocator h _ := h
  store_setStore := rfl
  store_setAllocator := rfl
  allocator_setStore := rfl
  allocator_setAllocator := rfl
  bindSlot_frame w h := by cases h; exact ⟨w, rfl, rfl⟩
  bindSlot_isOk _ _ := ⟨_, rfl⟩

theorem new_eq_ok {config : MemoryRuntimeConfig} {r : CpuMemoryRuntime} (h : new config = .ok r) :
    Sound r ∧ (∀ h, ¬LawfulKvBlockStore.Live (MemoryRuntime.store r) h) ∧
      r.allocator.config.totalPages = config.pagedTotalPages ∧ r.allocator.config.blockSize = config.pagedBlockSize := by
  unfold new PagedAttentionConfig.new at h
  split at h
  case isTrue => contradiction
  case isFalse hpos =>
    have h := Except.ok.inj h
    subst h
    have hnew {h} : ¬(InMemoryKvStore.new config.bytesPerToken).Live h := InMemoryKvStore.not_live_new
    refine ⟨⟨trivial, InMemoryKvStore.wf_new, PagedAttentionBlockManager.wf_new, fun h => ?_⟩, fun _ => hnew, rfl, rfl⟩
    exact iff_of_false PagedAttentionBlockManager.not_mapped_new hnew

end CpuMemoryRuntime
