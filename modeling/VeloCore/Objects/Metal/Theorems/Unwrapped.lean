import VeloCore.Objects.Metal.Theorems.Paging
import VeloCore.Objects.Gguf.Theorems.Loader

open List

theorem uint_lt (n : Nat) : uint n < 2 ^ 32 :=
  Nat.mod_lt n (by norm_num)

namespace MetalMemoryRuntime

variable {memory : MemoryRuntimeConfig} {m : ModelLoader.ModelMeta} {r : MetalMemoryRuntime}

-- What a kernel is passed for a slot whose pages are all the same
def samePage (memory : MemoryRuntimeConfig) (m : ModelLoader.ModelMeta) (slot : SlotId) (page : Nat) : PagedArgs :=
  .ofHost (fun _ => .ofNat page) slot memory.pagedTotalPages memory.pagedBlockSize m.nHeadKv m.headDim

-- A place in the pools that a request can be given: a slot, one of all pages, a position and a head
structure Place (memory : MemoryRuntimeConfig) (m : ModelLoader.ModelMeta) where
  slot   : SlotId
  page   : Nat
  pos    : Nat
  kvHead : Nat
  slot_lt   : slot.toNat < memory.maxSlots
  page_lt   : page < memory.pagedTotalPages
  pos_lt    : pos < memory.pagedTotalPages * memory.pagedBlockSize
  kvHead_lt : kvHead < m.nHeadKv

namespace Place

variable (p : Place memory m)

def args : PagedArgs :=
  samePage memory m p.slot p.page

-- Where a record of `width` units is, as numbers without a bound
def offset (width : Nat) : Nat :=
  p.page * memory.pagedBlockSize * m.nHeadKv * width + p.pos % memory.pagedBlockSize * m.nHeadKv * width + p.kvHead * width

-- The page table is looked up where it should be, with no division by zero.
def TableExact : Prop :=
  0 < p.args.blockSize ∧
    p.args.tableIndex (uint p.pos) = p.slot.toNat * memory.pagedTotalPages + p.pos / memory.pagedBlockSize

-- `kv_update` and the attention over 32-bit floats
def CellsExact : Prop :=
  p.args.kvHead (uint p.pos) p.kvHead = p.offset m.headDim ∧
    ∀ dimIdx < m.headDim, p.args.kvUpdateCell (uint p.pos) p.kvHead dimIdx = p.offset m.headDim + dimIdx

-- `kv_update_int8` and the attention over bytes
def BytesExact : Prop :=
  p.args.headBytes = m.headDim + 4 ∧ p.args.kvHeadInt8 (uint p.pos) p.kvHead = p.offset (m.headDim + 4) ∧
    p.args.kvUpdateInt8Offset (uint p.pos) p.kvHead = p.offset (m.headDim + 4)

end Place

-- No cast of the host and no address of the kernels for the type of the cache is cut off.
structure Unwrapped (memory : MemoryRuntimeConfig) (m : ModelLoader.ModelMeta) (kvType : KvCacheType) : Prop where
  maxPages : uint memory.pagedTotalPages = memory.pagedTotalPages
  pageIds  : ∀ page < memory.pagedTotalPages, uint page = page
  table    : ∀ p : Place memory m, p.TableExact
  pool     : ∀ p : Place memory m, if kvType = .fp32 then p.CellsExact else p.BytesExact

-- There are few enough pages, and few enough entries of the table and numbers or bytes of a pool.
def Countable (memory : MemoryRuntimeConfig) (m : ModelLoader.ModelMeta) (kvType : KvCacheType) : Prop :=
  memory.pagedTotalPages < 2 ^ 32 ∧ (memory.maxSlots = 0 ∨
    min memory.maxSlots (2 ^ 32) * memory.pagedTotalPages ≤ 2 ^ 32 ∧ memory.pagedBlockSize < 2 ^ 32 ∧
      if kvType = .fp32 then
        memory.pagedTotalPages * memory.pagedBlockSize * m.nHeadKv * m.headDim ≤ 2 ^ 32
      else
        m.headDim + 4 < 2 ^ 32 ∧
          (memory.pagedTotalPages * memory.pagedBlockSize * m.nHeadKv - 1) * (m.headDim + 4) < 2 ^ 32)

theorem new_pos (h : new memory = .ok r) :
    0 < memory.bytesPerToken ∧ 0 < memory.pagedBlockSize ∧ 0 < memory.pagedTotalPages := by
  unfold new at h
  split at h <;> try contradiction
  split at h <;> try contradiction
  split at h <;> try contradiction
  exact ⟨Nat.pos_of_ne_zero ‹_›, Nat.pos_of_ne_zero ‹_›, Nat.pos_of_ne_zero ‹_›⟩

-- The last place of all
def Place.last (hs : 0 < memory.maxSlots) (hb : 0 < memory.pagedBlockSize) (ht : 0 < memory.pagedTotalPages) (hn : 0 < m.nHeadKv) :
    Place memory m where
  slot      := .ofNat (min memory.maxSlots (2 ^ 32) - 1)
  page      := memory.pagedTotalPages - 1
  pos       := memory.pagedTotalPages * memory.pagedBlockSize - 1
  kvHead    := m.nHeadKv - 1
  slot_lt   := by rw [UInt32.toNat_ofNat_of_lt' (show _ < 2 ^ 32 by omega)]; omega
  page_lt   := Nat.sub_lt ht Nat.one_pos
  pos_lt    := Nat.sub_lt (Nat.mul_pos ht hb) Nat.one_pos
  kvHead_lt := Nat.sub_lt hn Nat.one_pos

section Last

variable (hs : 0 < memory.maxSlots) (hb : 0 < memory.pagedBlockSize) (ht : 0 < memory.pagedTotalPages) (hn : 0 < m.nHeadKv)

include hb ht in
theorem last_pos : (memory.pagedTotalPages * memory.pagedBlockSize - 1) / memory.pagedBlockSize = memory.pagedTotalPages - 1 ∧
    (memory.pagedTotalPages * memory.pagedBlockSize - 1) % memory.pagedBlockSize = memory.pagedBlockSize - 1 := by
  have hsplit : memory.pagedTotalPages * memory.pagedBlockSize - 1 =
      memory.pagedBlockSize * (memory.pagedTotalPages - 1) + (memory.pagedBlockSize - 1) := by
    obtain ⟨n, hn⟩ := Nat.exists_eq_succ_of_ne_zero ht.ne'
    rw [hn, Nat.succ_mul, Nat.succ_sub_one, Nat.mul_comm n]
    omega
  rw [hsplit, Nat.mul_add_div hb, Nat.mul_add_mod, Nat.div_eq_of_lt (Nat.sub_lt hb Nat.one_pos),
    Nat.mod_eq_of_lt (Nat.sub_lt hb Nat.one_pos), Nat.add_zero]
  exact ⟨rfl, rfl⟩

theorem last_offset (w : Nat) : (Place.last hs hb ht hn).offset w + w =
    memory.pagedTotalPages * memory.pagedBlockSize * m.nHeadKv * w := by
  obtain ⟨t, ht'⟩ := Nat.exists_eq_succ_of_ne_zero ht.ne'
  obtain ⟨b, hb'⟩ := Nat.exists_eq_succ_of_ne_zero hb.ne'
  obtain ⟨n, hn'⟩ := Nat.exists_eq_succ_of_ne_zero hn.ne'
  simp only [Place.offset, Place.last, (last_pos hb ht).right]
  rw [ht', hb', hn']
  simp only [Nat.succ_eq_add_one, Nat.add_sub_cancel]
  ring

theorem last_table (h : (Place.last (m := m) hs hb ht hn).TableExact) :
    min memory.maxSlots (2 ^ 32) * memory.pagedTotalPages ≤ 2 ^ 32 := by
  have hslot : (UInt32.ofNat (min memory.maxSlots (2 ^ 32) - 1)).toNat = min memory.maxSlots (2 ^ 32) - 1 :=
    UInt32.toNat_ofNat_of_lt' (show _ < 2 ^ 32 by omega)
  have hlt := h.right.symm.trans_lt (uint_lt _)
  simp only [Place.last, (last_pos hb ht).left, hslot] at hlt
  obtain ⟨s, hs'⟩ := Nat.exists_eq_succ_of_ne_zero (show min memory.maxSlots (2 ^ 32) ≠ 0 by omega)
  rw [hs', Nat.succ_sub_one] at hlt
  rw [hs', Nat.succ_mul]
  omega

end Last

-- With few enough of all, the last numbers are those that are meant.
section Countable

variable (hpages : memory.pagedTotalPages < 2 ^ 32) (hblock : memory.pagedBlockSize < 2 ^ 32)
  (htokens : memory.pagedTotalPages * memory.pagedBlockSize ≤ 2 ^ 32) (hb : 0 < memory.pagedBlockSize) (p : Place memory m)

include hpages hblock htokens hb

theorem table_exact (htable : min memory.maxSlots (2 ^ 32) * memory.pagedTotalPages ≤ 2 ^ 32) : p.TableExact := by
  have hslot : p.slot.toNat < min memory.maxSlots (2 ^ 32) := lt_min p.slot_lt p.slot.toNat_lt
  have hpage : p.pos / memory.pagedBlockSize < memory.pagedTotalPages := (Nat.div_lt_iff_lt_mul hb).mpr p.pos_lt
  have hindex := Nat.digits_lt hslot hpage
  simp only [Place.TableExact, Place.args, samePage, PagedArgs.ofHost, PagedArgs.tableIndex]
  rw [uint_eq hblock, uint_eq hpages, uint_eq (p.pos_lt.trans_le htokens), uint_eq (hindex.trans_le htable)]
  exact ⟨hb, rfl⟩

omit hb in
-- The place of a position on its page
theorem place_eq : p.args.place (uint p.pos) = p.page * memory.pagedBlockSize + p.pos % memory.pagedBlockSize := by
  simp only [Place.args, samePage, PagedArgs.ofHost, PagedArgs.place, PagedArgs.blockIdx, PagedArgs.tokenInBlock]
  rw [uint_eq hblock, uint_eq (p.pos_lt.trans_le htokens), UInt32.toNat_ofNat_of_lt' (p.page_lt.trans hpages)]

omit hb in
theorem offset_eq (hm : m.nHeadKv < 2 ^ 32) (w : Nat) :
    p.args.place (uint p.pos) * (p.args.nHeadKv * w) + p.kvHead * w = p.offset w := by
  have hkv : p.args.nHeadKv = m.nHeadKv := uint_eq hm
  rw [place_eq hpages hblock htokens, hkv, Place.offset]
  ring

omit hpages hblock htokens in
theorem offset_le (w : Nat) : p.offset w + w ≤ memory.pagedTotalPages * memory.pagedBlockSize * m.nHeadKv * w := by
  have hplace := Nat.digits_lt p.page_lt (Nat.mod_lt p.pos hb)
  have hhead := Nat.digits_lt hplace p.kvHead_lt
  have hmul := Nat.mul_le_mul_right w (Nat.succ_le_of_lt hhead)
  calc p.offset w + w = ((p.page * memory.pagedBlockSize + p.pos % memory.pagedBlockSize) * m.nHeadKv + p.kvHead + 1) * w := by
        rw [Place.offset]
        ring
    _ ≤ memory.pagedTotalPages * memory.pagedBlockSize * m.nHeadKv * w := hmul

end Countable

-- Where the numbers of a pool can be counted, so can the tokens.
theorem tokens_le_of {k w : Nat} (hn : 0 < n) (hw : 0 < w) (h : k * n * w ≤ 2 ^ 32) : k ≤ 2 ^ 32 :=
  calc k ≤ k * n := Nat.le_mul_of_pos_right _ hn
    _ ≤ k * n * w := Nat.le_mul_of_pos_right _ hw
    _ ≤ 2 ^ 32 := h

theorem tokens_le_of_sub {k w : Nat} (hn : 0 < n) (hw : 4 ≤ w) (h : (k * n - 1) * w < 2 ^ 32) : k ≤ 2 ^ 30 := by
  have hk : k ≤ k * n := Nat.le_mul_of_pos_right _ hn
  have hmul : (k * n - 1) * 4 ≤ (k * n - 1) * w := Nat.mul_le_mul_left _ hw
  omega

-- A token takes some bytes of the cache.
section Accepted

variable {kvType : KvCacheType} (h : new memory = .ok r) (hm : m.Sane) (hbytes : memory.bytesPerToken = m.kvBytesPerToken kvType)

include h hbytes

theorem nHeadKv_pos : 0 < m.nHeadKv := Nat.pos_of_ne_zero fun h0 => by
  have ⟨hpos, _⟩ := new_pos h
  rw [hbytes, ModelLoader.ModelMeta.kvBytesPerToken, h0, Nat.zero_mul] at hpos
  exact Nat.lt_irrefl 0 hpos

theorem headDim_pos (hfp : kvType = .fp32) : 0 < m.headDim := Nat.pos_of_ne_zero fun h0 => by
  have ⟨hpos, _⟩ := new_pos h
  rw [hbytes, hfp, ModelLoader.ModelMeta.kvBytesPerToken, ModelLoader.ModelMeta.kvBytesPerTokenPerHead, h0] at hpos
  exact Nat.lt_irrefl 0 hpos

theorem countable_of_unwrapped (hu : Unwrapped memory m kvType) : Countable memory m kvType := by
  have ⟨_, hb, ht⟩ := new_pos h
  have hn := nHeadKv_pos h hbytes
  have hblocks : memory.pagedBlockSize ≤ memory.pagedTotalPages * memory.pagedBlockSize := Nat.le_mul_of_pos_left _ ht
  refine ⟨hu.maxPages ▸ uint_lt _, or_iff_not_imp_left.mpr fun hs => ?_⟩
  replace hs := Nat.pos_of_ne_zero hs
  have htable := hu.table (.last hs hb ht hn)
  have hpool := hu.pool (.last hs hb ht hn)
  have hlast := last_offset (m := m) hs hb ht hn
  refine ⟨last_table hs hb ht hn htable, ?_⟩
  split at hpool
  case isTrue hfp =>
    rw [if_pos hfp]
    have hpos := headDim_pos h hbytes hfp
    have hlt := (hpool.right (m.headDim - 1) (by omega)).symm.trans_lt (uint_lt _)
    have hle : memory.pagedTotalPages * memory.pagedBlockSize * m.nHeadKv * m.headDim ≤ 2 ^ 32 := by
      rw [← hlast]
      omega
    refine ⟨Nat.lt_of_le_of_ne (hblocks.trans (tokens_le_of hn hpos hle)) fun heq => ?_, hle⟩
    -- A block size of this number of tokens would be taken for none.
    have hzero : uint memory.pagedBlockSize = 0 := heq ▸ Nat.mod_self _
    exact absurd (hzero ▸ htable.left) (Nat.lt_irrefl 0)
  case isFalse hfp =>
    rw [if_neg hfp]
    have hlt := hpool.right.right.symm.trans_lt (uint_lt _)
    have hsub : (memory.pagedTotalPages * memory.pagedBlockSize * m.nHeadKv - 1) * (m.headDim + 4) < 2 ^ 32 := by
      rw [Nat.sub_mul, Nat.one_mul, ← hlast]
      omega
    have hle := hblocks.trans (tokens_le_of_sub hn (Nat.le_add_left 4 _) hsub)
    exact ⟨hle.trans_lt (by norm_num), hpool.left ▸ uint_lt _, hsub⟩

include hm

theorem unwrapped_of_countable (hc : Countable memory m kvType) : Unwrapped memory m kvType := by
  have ⟨_, hb, ht⟩ := new_pos h
  have hn := nHeadKv_pos h hbytes
  have hdim : m.headDim < 2 ^ 32 := (hm.headDim_eq ▸ Nat.div_le_self _ _).trans_lt hm.nEmbd_lt
  have ⟨hpages, hc⟩ := hc
  have hcount (p : Place memory m) := hc.resolve_left (Nat.zero_lt_of_lt p.slot_lt).ne'
  have htokens (p : Place memory m) : memory.pagedTotalPages * memory.pagedBlockSize ≤ 2 ^ 32 := by
    have ⟨_, _, hpool⟩ := hcount p
    split at hpool
    case isTrue hfp  => exact tokens_le_of hn (headDim_pos h hbytes hfp) hpool
    case isFalse hfp => exact (tokens_le_of_sub hn (Nat.le_add_left 4 _) hpool.right).trans (by norm_num)
  refine ⟨uint_eq hpages, fun page hpage => uint_eq (hpage.trans hpages),
    fun p => table_exact hpages (hcount p).right.left (htokens p) hb p (hcount p).left, fun p => ?_⟩
  have ⟨_, hblock, hpool⟩ := hcount p
  have hoffset := offset_eq hpages hblock (htokens p) p hm.nHeadKv_lt
  have hle := offset_le hb p
  have hargs : p.args.headDim = m.headDim := uint_eq hdim
  split at hpool
  case isTrue hfp =>
    have hpos := headDim_pos h hbytes hfp
    have hlt : p.offset m.headDim + m.headDim ≤ 2 ^ 32 := (hle m.headDim).trans hpool
    rw [if_pos hfp]
    refine ⟨?_, fun dimIdx hlt' => ?_⟩
    case refine_1 => rw [PagedArgs.kvHead, hargs, PagedArgs.readOffset_eq (by rw [hoffset]; omega), hoffset]
    case refine_2 =>
      rw [PagedArgs.kvUpdateCell, hargs, PagedArgs.writeOffset_eq (by rw [hoffset]; omega), hoffset, uint_eq (by omega)]
  case isFalse hfp =>
    have hlt : p.offset (m.headDim + 4) < 2 ^ 32 := by
      have := hle (m.headDim + 4)
      rw [Nat.sub_mul, Nat.one_mul] at hpool
      omega
    have hbytes : p.args.headBytes = m.headDim + 4 := by rw [PagedArgs.headBytes, hargs, uint_eq hpool.left]
    rw [if_neg hfp]
    refine ⟨hbytes, ?_, ?_⟩
    case refine_1 => rw [PagedArgs.kvHeadInt8, hbytes, PagedArgs.readOffset_eq (by rwa [hoffset]), hoffset]
    case refine_2 => rw [PagedArgs.kvUpdateInt8Offset, hbytes, PagedArgs.writeOffset_eq (by rwa [hoffset]), hoffset]

end Accepted

theorem unwrapped_iff (h : new memory = .ok r) (hm : m.Sane) (kvType : KvCacheType)
    (hbytes : memory.bytesPerToken = m.kvBytesPerToken kvType) : Unwrapped memory m kvType ↔ Countable memory m kvType :=
  ⟨countable_of_unwrapped h hbytes, unwrapped_of_countable h hm hbytes⟩

-- A model with eight heads of 128 keys, and 2048 pages
theorem unwrapped_small : Unwrapped ⟨4096, 16, 2048, 4⟩ ⟨"", 1, 4096, 1, 32, 8, 1, 1, 128, 0, 0, .q4_0⟩ .fp32 :=
  (unwrapped_iff rfl ⟨by decide, by decide, by decide, by decide, by decide, by decide, .inl rfl⟩ .fp32 rfl).mpr
    ⟨by decide, .inr (by decide)⟩

-- The same with more pages, for which each pool is of less than 5 GiB
theorem exists_wrapped : ∃ (memory : MemoryRuntimeConfig) (m : ModelLoader.ModelMeta) (r : MetalMemoryRuntime),
    new memory = .ok r ∧ m.Sane ∧ memory.bytesPerToken = m.kvBytesPerToken .int8 ∧ ¬Unwrapped memory m .int8 := by
  refine ⟨⟨1056, 16, 300000, 4⟩, ⟨"", 1, 4096, 1, 32, 8, 1, 1, 128, 0, 0, .q4_0⟩, _, rfl,
    ⟨by decide, by decide, by decide, by decide, by decide, by decide, .inl rfl⟩, rfl, fun h => ?_⟩
  exact absurd (countable_of_unwrapped rfl rfl h).right (by decide)

end MetalMemoryRuntime
