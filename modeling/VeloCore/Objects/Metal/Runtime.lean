import VeloCore.Objects.Metal.KvStore
import VeloCore.Objects.Runtime

open List

-- The memory of the Metal runtime, less the device. The page table is a buffer of one row of
-- `paged_total_pages` entries for each of the `max_slots` slots. It is all zeros at first. The numbers from
-- `max_slots * paged_total_pages` on stand for what lies behind the buffer.
structure MetalMemoryRuntime where
  memory : MemoryRuntimeConfig
  store : MetalKvStore
  allocator : PagedAttentionBlockManager
  slotMapping : Nat → UInt32

namespace MetalMemoryRuntime

-- The checks of the name of the model and of the devices are left out.
def new (memory : MemoryRuntimeConfig) : Except SpeculativeError MetalMemoryRuntime :=
  if memory.bytesPerToken = 0 then
    .error (.model "memory.bytes_per_token must be greater than zero")
  else if h : memory.pagedBlockSize = 0 then
    .error (.model "memory.paged_block_size must be greater than zero")
  else if memory.pagedTotalPages = 0 then
    .error (.model "memory.paged_total_pages must be greater than zero")
  else
    .ok {
      memory
      store := .new memory.bytesPerToken memory.pagedTotalPages memory.pagedBlockSize
      allocator := .new ⟨memory.pagedBlockSize, memory.pagedTotalPages, Nat.pos_of_ne_zero h⟩
      slotMapping := fun _ => 0 }

def bindSlot (slot : SlotId) (pages : List UInt32) (r : MetalMemoryRuntime) :
    Except SpeculativeError Unit × MetalMemoryRuntime :=
  let maxPages := r.memory.pagedTotalPages
  if pages.length > maxPages then
    (.error (.model s!"Request pages ({pages.length}) exceed max pages per slot ({maxPages})"), r)
  else
    let start := slot.toNat * maxPages
    let stop := start + pages.length
    -- `write_bytes` counts in entries, but gets the number of bytes of the rest of the row: it also clears the entries
    -- behind the row, and what lies behind the buffer when they go past its end.
    let count := (maxPages - pages.length) * 4
    (.ok (), { r with
      slotMapping := fun k =>
        if start ≤ k ∧ k < stop then pages.getD (k - start) 0
        else if stop ≤ k ∧ k < stop + count then 0
        else r.slotMapping k })

instance : MemoryRuntime MetalMemoryRuntime where
  Store := MetalKvStore
  store := store
  setStore s r := { r with store := s }
  allocator := allocator
  setAllocator a r := { r with allocator := a }
  bindSlot := bindSlot

-- The entries of the row of a slot.
def row (r : MetalMemoryRuntime) (slot : SlotId) : List UInt32 :=
  (range r.memory.pagedTotalPages).map fun i => r.slotMapping (slot.toNat * r.memory.pagedTotalPages + i)

instance : LawfulMemoryRuntime MetalMemoryRuntime where
  lawfulStore := inferInstanceAs (LawfulKvBlockStore MetalKvStore)
  Wf r := r.memory.pagedTotalPages = r.allocator.config.totalPages
  wf_setStore := id
  wf_setAllocator h hc := h.trans (congrArg (·.totalPages) hc).symm
  store_setStore := rfl
  store_setAllocator := rfl
  allocator_setStore := rfl
  allocator_setAllocator := rfl
  bindSlot_frame w h := by
    simp only [MemoryRuntime.bindSlot, bindSlot] at h
    split at h <;> cases h <;> exact ⟨w, rfl, rfl⟩
  bindSlot_isOk w h := ⟨_, if_neg <| Nat.not_lt.mpr <| h.trans_eq w.symm⟩

open MemoryRuntime

variable {r r' : MetalMemoryRuntime} {memory : MemoryRuntimeConfig} {slot slot' : SlotId} {pages : List UInt32}

theorem new_eq_ok (h : new memory = .ok r) :
    Sound r ∧ (∀ h, ¬LawfulKvBlockStore.Live (MemoryRuntime.store r) h) ∧ r.memory = memory ∧
      r.allocator.config.totalPages = memory.pagedTotalPages ∧ r.allocator.config.blockSize = memory.pagedBlockSize := by
  unfold new at h
  split at h <;> try contradiction
  split at h <;> try contradiction
  split at h <;> try contradiction
  cases h
  refine ⟨⟨rfl, MetalKvStore.wf_new, PagedAttentionBlockManager.wf_new, fun h => ?_⟩,
    fun _ => MetalKvStore.not_live_new, rfl, rfl, rfl⟩
  exact iff_of_false PagedAttentionBlockManager.not_mapped_new MetalKvStore.not_live_new

-- The pages, and zeros behind them.
def paddedRow (r : MetalMemoryRuntime) (pages : List UInt32) : List UInt32 :=
  (range r.memory.pagedTotalPages).map fun i => pages.getD i 0

-- The entries behind the row of a slot that are cleared when the slot is bound to `n` pages.
def Overruns (maxPages : Nat) (slot : SlotId) (n k : Nat) : Prop :=
  (slot.toNat + 1) * maxPages ≤ k ∧ k < (slot.toNat + 1) * maxPages + 3 * (maxPages - n)

instance : Decidable (Overruns maxPages slot n k) :=
  inferInstanceAs (Decidable (_ ∧ _))

theorem bindSlot_eq_ok (h : bindSlot slot pages r = (.ok (), r')) :
    pages.length ≤ r.memory.pagedTotalPages ∧ r'.memory = r.memory ∧ r'.store = r.store ∧ r'.allocator = r.allocator ∧
      r'.row slot = r.paddedRow pages ∧
      ∀ k, k < slot.toNat * r.memory.pagedTotalPages ∨ (slot.toNat + 1) * r.memory.pagedTotalPages ≤ k →
        r'.slotMapping k = if Overruns r.memory.pagedTotalPages slot pages.length k then 0 else r.slotMapping k := by
  simp only [bindSlot] at h
  split at h
  case isTrue => simp at h
  case isFalse hle =>
    cases h
    have hle := Nat.not_lt.mp hle
    refine ⟨hle, rfl, rfl, rfl, ?_, fun k hk => ?_⟩
    case refine_1 =>
      refine map_congr_left fun i hi => ?_
      have hi : i < r.memory.pagedTotalPages := mem_range.mp hi
      dsimp only
      rw [Nat.add_sub_cancel_left]
      split
      case isTrue => rfl
      case isFalse hlt => rw [if_pos (by omega), getD_eq_getElem?_getD, getElem?_eq_none (by omega), Option.getD_none]
    case refine_2 =>
      rw [Nat.succ_mul] at hk
      dsimp only
      rw [if_neg (by omega)]
      refine if_congr ?_ rfl rfl
      rw [Overruns, Nat.succ_mul]
      omega

-- The rows of two slots have no entry in common.
theorem index_lt_or_le (h : slot' ≠ slot) (hi : i < n) :
    slot'.toNat * n + i < slot.toNat * n ∨ (slot.toNat + 1) * n ≤ slot'.toNat * n + i := by
  have hne : slot'.toNat ≠ slot.toNat := fun heq => h (UInt32.toNat_inj.mp heq)
  rcases Nat.lt_or_gt_of_ne hne with hlt | hlt
  case inl =>
    have hrow := Nat.mul_le_mul_right n (Nat.succ_le_of_lt hlt)
    rw [Nat.succ_mul] at hrow
    omega
  case inr => exact .inr ((Nat.mul_le_mul_right n (Nat.succ_le_of_lt hlt)).trans (Nat.le_add_right _ _))

-- What the kernels make of a position: `slot_mapping[slot_id * max_pages + (pos / block_size)]` and
-- `pos % block_size`.
def cell (r : MetalMemoryRuntime) (slot : SlotId) (pos : Nat) : UInt32 × Nat :=
  (r.slotMapping (slot.toNat * r.allocator.config.totalPages + pos / r.allocator.config.blockSize),
    pos % r.allocator.config.blockSize)

-- The kernels find the positions below `n` on the pages that were bound, each on a cell of its own.
structure Covered (r : MetalMemoryRuntime) (slot : SlotId) (pages : List PageId) (n : Nat) : Prop where
  page     : pos < n → pages[pos / r.allocator.config.blockSize]? = some (r.cell slot pos).1.toNat
  distinct : pos < n → pos' < n → r.cell slot pos = r.cell slot pos' → pos = pos'

-- The entries of a row that lists the pages, of which some have been cleared
structure Lists (r : MetalMemoryRuntime) (slot : SlotId) (ids : List PageId) (cleared : Nat → Prop) : Prop where
  zero  : ids[i]? = some page → cleared i → r.slotMapping (slot.toNat * r.memory.pagedTotalPages + i) = 0
  entry : ids[i]? = some page → ¬cleared i →
    r.slotMapping (slot.toNat * r.memory.pagedTotalPages + i) = UInt32.ofNat page

theorem entry_of_row {ids : List PageId} (hrow : r.row slot = r.paddedRow (ids.map UInt32.ofNat))
    (hle : ids.length ≤ r.memory.pagedTotalPages) (hi : ids[i]? = some page) :
    r.slotMapping (slot.toNat * r.memory.pagedTotalPages + i) = UInt32.ofNat page := by
  have ⟨hlt, _⟩ := List.getElem?_eq_some_iff.mp hi
  have hentry := congrArg (·[i]?) hrow
  simp only [row, paddedRow, getElem?_map, getElem?_range (hlt.trans_le hle), Option.map_some, Option.some.injEq,
    getD_eq_getElem?_getD, hi] at hentry
  rw [hentry, Option.getD_some]

-- The pages have to last, their numbers must not be cut off, and none is cleared but the page 0.
theorem covered_iff_of_lists {ids : List PageId} {cleared : Nat → Prop}
    (hw : r.memory.pagedTotalPages = r.allocator.config.totalPages) (l : r.Lists slot ids cleared)
    (hn : ids.Nodup) (hlen : ids.length = (p + r.allocator.config.blockSize - 1) / r.allocator.config.blockSize)
    (hp : 0 < p) (hpn : p ≤ n) :
    Covered r slot ids n ↔ n ≤ ids.length * r.allocator.config.blockSize ∧ (∀ page ∈ ids, page < 2 ^ 32) ∧
      ∀ i page, ids[i]? = some page → cleared i → page = 0 := by
  have hb := r.allocator.config.blockSize_pos
  constructor
  case mp =>
    intro c
    -- Each page has a position below `p`.
    have hentry {i page} (hi : ids[i]? = some page) :
        page = (r.slotMapping (slot.toNat * r.memory.pagedTotalPages + i)).toNat := by
      have ⟨hk, _⟩ := List.getElem?_eq_some_iff.mp hi
      have hlt : i * r.allocator.config.blockSize < n := by
        rw [hlen, Nat.lt_div_iff_mul_lt hb] at hk
        omega
      have h := c.page hlt
      rw [cell, Nat.mul_div_cancel _ hb, hi, ← hw] at h
      exact Option.some.inj h
    refine ⟨?_, fun page hpage => ?_, fun i page hi hcleared => ?_⟩
    case refine_1 =>
      have ⟨hlt, _⟩ := List.getElem?_eq_some_iff.mp (c.page (show n - 1 < n by omega))
      have := (Nat.div_lt_iff_lt_mul hb).mp hlt
      omega
    case refine_2 =>
      have ⟨i, hi⟩ := mem_iff_getElem?.mp hpage
      exact hentry hi ▸ UInt32.toNat_lt _
    case refine_3 => rw [hentry hi, l.zero hi hcleared, UInt32.toNat_zero]
  case mpr =>
    intro ⟨hlast, hsmall, hkept⟩
    have hpage {pos} (hpos : pos < n) : ids[pos / r.allocator.config.blockSize]? = some (r.cell slot pos).1.toNat := by
      have hlt : pos / r.allocator.config.blockSize < ids.length := (Nat.div_lt_iff_lt_mul hb).mpr (by omega)
      have hget := getElem?_eq_getElem hlt
      rw [cell, ← hw, hget]
      by_cases hcleared : cleared (pos / r.allocator.config.blockSize)
      case pos => rw [l.zero hget hcleared, hkept _ _ hget hcleared, UInt32.toNat_zero]
      case neg => rw [l.entry hget hcleared, UInt32.toNat_ofNat', Nat.mod_eq_of_lt (hsmall _ (getElem_mem hlt))]
    refine ⟨hpage, fun {pos pos'} hpos hpos' hc => ?_⟩
    have ⟨hlt, _⟩ := List.getElem?_eq_some_iff.mp (hpage hpos)
    have hdiv := (getElem?_inj hlt hn).mp ((hpage hpos).trans (hc ▸ (hpage hpos').symm))
    have hmod : pos % r.allocator.config.blockSize = pos' % r.allocator.config.blockSize := congrArg Prod.snd hc
    rw [← Nat.div_add_mod pos r.allocator.config.blockSize, hdiv, hmod, Nat.div_add_mod]

end MetalMemoryRuntime
