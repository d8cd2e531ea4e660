import VeloCore.Objects.Metal.Paging
import VeloCore.Objects.Metal.Theorems.KvLayers

open List

-- Two digits of a number
theorem Nat.digits_inj {a a' b b' m : Nat} (hb : b < m) (hb' : b' < m) (h : a * m + b = a' * m + b') : a = a' ∧ b = b' := by
  have hm := Nat.zero_lt_of_lt hb
  have hdiv := congrArg (· / m) h
  have hmod := congrArg (· % m) h
  simp only [Nat.mul_comm _ m, Nat.mul_add_div hm, Nat.mul_add_mod, Nat.div_eq_of_lt hb, Nat.div_eq_of_lt hb',
    Nat.mod_eq_of_lt hb, Nat.mod_eq_of_lt hb'] at hdiv hmod
  exact ⟨by omega, hmod⟩

theorem Nat.digits_lt {a b n m : Nat} (ha : a < n) (hb : b < m) : a * m + b < n * m := by
  have := Nat.mul_le_mul_right m (Nat.succ_le_of_lt ha)
  rw [Nat.succ_mul] at this
  omega

namespace PagedArgs

variable {args : PagedArgs} {w t k : Nat}

theorem offset_split (args : PagedArgs) (w t k : Nat) : args.place t * (args.nHeadKv * w) + k * w =
    args.blockIdx t * args.blockSize * args.nHeadKv * w + args.tokenInBlock t * args.nHeadKv * w + k * w := by
  rw [place]
  ring

theorem writeOffset_eq (h : args.place t * (args.nHeadKv * w) + k * w < 2 ^ 32) :
    args.writeOffset w t k = args.place t * (args.nHeadKv * w) + k * w := by
  rw [writeOffset, ← offset_split, uint_eq h]

theorem readOffset_eq (h : args.place t * (args.nHeadKv * w) + k * w < 2 ^ 32) :
    args.readOffset w t k = args.place t * (args.nHeadKv * w) + k * w := by
  rw [offset_split] at h ⊢
  rw [readOffset, uint_eq (by omega), uint_eq (by omega), uint_eq (by omega)]

end PagedArgs

namespace MetalMemoryRuntime

variable {r r' : MetalMemoryRuntime} {slot slot' : SlotId} {pages : List UInt32} {calls : List (SlotId × List UInt32)}

section Rows

theorem bindSlot_error (h : bindSlot slot pages r = (.error e, r')) : r' = r := by
  simp only [bindSlot] at h
  split at h <;> simp_all

theorem bindSlot_ok (slot : SlotId) (h : pages.length ≤ r.memory.pagedTotalPages) : ∃ r', bindSlot slot pages r = (.ok (), r') :=
  ⟨_, if_neg (Nat.not_lt.mpr h)⟩

theorem bindSlot_of_lt (slot : SlotId) (h : r.memory.pagedTotalPages < pages.length) : ∃ e, bindSlot slot pages r = (.error e, r) :=
  ⟨_, if_pos h⟩

theorem memory_bindSlot (slot : SlotId) (pages : List UInt32) : (bindSlot slot pages r).2.memory = r.memory := by
  by_cases hle : pages.length ≤ r.memory.pagedTotalPages
  case pos =>
    have ⟨_, h⟩ := bindSlot_ok slot hle
    rw [h]
    exact (bindSlot_eq_ok h).right.left
  case neg =>
    have ⟨_, h⟩ := bindSlot_of_lt slot (Nat.lt_of_not_le hle)
    rw [h]

theorem Harmless.overruns (h : Harmless r slot pages) (hle : pages.length ≤ r.memory.pagedTotalPages)
    (hk : Overruns r.memory.pagedTotalPages slot pages.length k) :
    k < r.memory.maxSlots * r.memory.pagedTotalPages ∧ r.slotMapping k = 0 := by
  have hk' := h hle (k - (slot.toNat + 1) * r.memory.pagedTotalPages) (Nat.sub_lt_left_of_lt_add hk.left hk.right)
  rwa [Nat.add_sub_cancel' hk.left] at hk'

-- A call keeps the other rows when there is nothing to clear behind its own.
theorem framed_iff (slot : SlotId) (pages : List UInt32) (htable : r.memory.maxSlots * r.memory.pagedTotalPages < 2 ^ 32) :
    Framed r slot pages ↔ Harmless r slot pages := by
  constructor
  case mp =>
    intro f hle i hi
    have ho : Overruns r.memory.pagedTotalPages slot pages.length ((slot.toNat + 1) * r.memory.pagedTotalPages + i) :=
      ⟨Nat.le_add_right _ _, Nat.add_lt_add_left hi _⟩
    have hk := f.inside hle ho
    refine ⟨hk, ?_⟩
    -- The entry is in the row of another slot, which is not changed.
    have hpos : 0 < r.memory.pagedTotalPages := by omega
    generalize hk' : (slot.toNat + 1) * r.memory.pagedTotalPages + i = k at ho hk ⊢
    have hrow : k / r.memory.pagedTotalPages < r.memory.maxSlots := Nat.div_lt_of_lt_mul (Nat.mul_comm _ _ ▸ hk)
    have hsmall : k / r.memory.pagedTotalPages < 2 ^ 32 :=
      hrow.trans_le ((Nat.le_mul_of_pos_right _ hpos).trans htable.le)
    have htoNat : (UInt32.ofNat (k / r.memory.pagedTotalPages)).toNat = k / r.memory.pagedTotalPages := by
      rw [UInt32.toNat_ofNat', Nat.mod_eq_of_lt hsmall]
    have hne : UInt32.ofNat (k / r.memory.pagedTotalPages) ≠ slot := by
      intro heq
      have := (Nat.le_div_iff_mul_le hpos).mpr ho.left
      rw [heq] at htoNat
      omega
    have hkept := f.rows hne (htoNat.symm ▸ hrow)
    obtain ⟨r', h⟩ := bindSlot_ok slot hle
    obtain ⟨_, hmem, _, _, _, hentries⟩ := bindSlot_eq_ok h
    rw [h] at hkept
    have hentry := congrArg (·[k % r.memory.pagedTotalPages]?) hkept
    simp only [row, hmem, getElem?_map, getElem?_range (Nat.mod_lt k hpos), Option.map_some, Option.some.injEq, htoNat,
      Nat.div_add_mod'] at hentry
    rw [← hentry, hentries k (.inr ho.left), if_pos ho]
  case mpr =>
    intro hz
    refine ⟨fun hle ho => (hz.overruns hle ho).left, fun {slot'} hne _ => ?_⟩
    by_cases hle : pages.length ≤ r.memory.pagedTotalPages
    case neg =>
      obtain ⟨_, h⟩ := bindSlot_of_lt slot (Nat.lt_of_not_le hle)
      rw [h]
    case pos =>
      obtain ⟨r', h⟩ := bindSlot_ok slot hle
      obtain ⟨_, hmem, _, _, _, hentries⟩ := bindSlot_eq_ok h
      rw [h, row, row, hmem]
      refine map_congr_left fun i hi => ?_
      rw [hentries _ (index_lt_or_le hne (mem_range.mp hi))]
      split
      case isTrue ho => exact (hz.overruns hle ho).right.symm
      case isFalse   => rfl

-- What such a call does to the rows
theorem row_bindSlot (h : Framed r slot pages) (hslot : slot'.toNat < r.memory.maxSlots) : (bindSlot slot pages r).2.row slot' =
    if slot = slot' ∧ pages.length ≤ r.memory.pagedTotalPages then r.paddedRow pages else r.row slot' := by
  by_cases hle : pages.length ≤ r.memory.pagedTotalPages
  case neg =>
    have ⟨_, h⟩ := bindSlot_of_lt slot (Nat.lt_of_not_le hle)
    rw [h, if_neg fun hs => hle hs.right]
  case pos =>
    split
    case isFalse hs => exact h.rows (fun heq => hs ⟨heq.symm, hle⟩) hslot
    case isTrue hs =>
      have ⟨_, h⟩ := bindSlot_ok slot hle
      rw [h, ← hs.left]
      exact (bindSlot_eq_ok h).right.right.right.right.left

theorem bindAll_concat (r : MetalMemoryRuntime) (calls : List (SlotId × List UInt32)) (call : SlotId × List UInt32) :
    r.bindAll (calls ++ [call]) = (bindSlot call.1 call.2 (r.bindAll calls)).2 := by
  simp [bindAll]

theorem memory_bindAll : (r.bindAll calls).memory = r.memory := by
  induction calls using reverseRecOn
  case nil => rfl
  case append_singleton calls call hi => rw [bindAll_concat, memory_bindSlot, hi]

theorem each_concat {p : MetalMemoryRuntime → SlotId → List UInt32 → Prop} (calls : List (SlotId × List UInt32))
    (call : SlotId × List UInt32) : Each p r (calls ++ [call]) ↔ Each p r calls ∧ p (r.bindAll calls) call.1 call.2 := by
  induction calls generalizing r
  case nil => simp [Each, bindAll]
  case cons first calls hi => simp [Each, hi, bindAll, and_assoc]

theorem each_framed_iff (calls : List (SlotId × List UInt32)) (htable : r.memory.maxSlots * r.memory.pagedTotalPages < 2 ^ 32) :
    Each Framed r calls ↔ Each Harmless r calls := by
  induction calls generalizing r
  case nil => exact Iff.rfl
  case cons call calls hi =>
    exact and_congr (framed_iff call.1 call.2 htable) (hi ((memory_bindSlot call.1 call.2).symm ▸ htable))

theorem lastBound_concat (maxPages : Nat) (slot : SlotId) (calls : List (SlotId × List UInt32)) (call : SlotId × List UInt32) :
    lastBound maxPages slot (calls ++ [call]) =
      if call.1 = slot ∧ call.2.length ≤ maxPages then call.2 else lastBound maxPages slot calls := by
  simp [lastBound]

theorem lastBound_eq_nil_or (maxPages : Nat) (slot : SlotId) (calls : List (SlotId × List UInt32)) :
    lastBound maxPages slot calls = [] ∨ ∃ call ∈ calls, call.2.length ≤ maxPages ∧ lastBound maxPages slot calls = call.2 := by
  induction calls using reverseRecOn
  case nil => exact .inl rfl
  case append_singleton calls call hi =>
    rw [lastBound_concat]
    split
    case isTrue h => exact .inr ⟨call, by simp, h.right, rfl⟩
    case isFalse =>
      exact hi.imp_right fun ⟨call', hcall, hle⟩ => ⟨call', mem_append_left _ hcall, hle⟩

theorem length_lastBound (maxPages : Nat) (slot : SlotId) (calls : List (SlotId × List UInt32)) :
    (lastBound maxPages slot calls).length ≤ maxPages := by
  rcases lastBound_eq_nil_or maxPages slot calls with h | ⟨call, _, hle, h⟩
  case inl => exact h ▸ Nat.zero_le _
  case inr => exact h ▸ hle

-- A row that was all zeros holds what was bound last.
theorem row_bindAll (calls : List (SlotId × List UInt32)) (hf : Each Framed r calls) (hslot : slot.toNat < r.memory.maxSlots)
    (h : r.row slot = r.paddedRow []) :
    (r.bindAll calls).row slot = r.paddedRow (lastBound r.memory.pagedTotalPages slot calls) := by
  induction calls using reverseRecOn
  case nil => exact h
  case append_singleton calls call hi =>
    have hpadded (pages : List UInt32) : (r.bindAll calls).paddedRow pages = r.paddedRow pages := by
      rw [paddedRow, memory_bindAll, paddedRow]
    obtain ⟨hcalls, hcall⟩ := (each_concat calls call).mp hf
    rw [bindAll_concat, row_bindSlot hcall (memory_bindAll.symm ▸ hslot), hi hcalls, hpadded, memory_bindAll, lastBound_concat]
    split
    case isTrue hs  => rfl
    case isFalse hs => rfl

theorem row_new {memory : MemoryRuntimeConfig} (h : new memory = .ok r) (slot : SlotId) : r.row slot = r.paddedRow [] := by
  unfold new at h
  split at h <;> try contradiction
  split at h <;> try contradiction
  split at h <;> try contradiction
  cases h
  rfl

end Rows

-- The positions that a list of pages has room for
def Covers (r : MetalMemoryRuntime) (pages : List UInt32) (pos : Nat) : Prop :=
  pos < pages.length * r.memory.pagedBlockSize

-- The table holds these pages for the slots, each of which is in the pool.
structure Holds (r : MetalMemoryRuntime) (bound : SlotId → List UInt32) : Prop where
  row    : ∀ slot, slot.toNat < r.memory.maxSlots → r.row slot = r.paddedRow (bound slot)
  length : ∀ slot, (bound slot).length ≤ r.memory.pagedTotalPages
  lt     : ∀ slot, slot.toNat < r.memory.maxSlots → ∀ page ∈ bound slot, page.toNat < r.memory.pagedTotalPages

-- A number that `kv_update` writes for a slot that is bound to these pages
structure Written (r : MetalMemoryRuntime) (bound : SlotId → List UInt32) (nHeadKv headDim : Nat) where
  slot    : SlotId
  pos     : Nat
  headIdx : Nat
  dimIdx  : Nat
  slot_lt    : slot.toNat < r.memory.maxSlots
  covered    : r.Covers (bound slot) pos
  headIdx_lt : headIdx < nHeadKv
  dimIdx_lt  : dimIdx < headDim

-- Where it is written
def Written.cell {bound : SlotId → List UInt32} {nHeadKv headDim : Nat} (x : r.Written bound nHeadKv headDim) : Nat :=
  (r.pagedArgs x.slot nHeadKv headDim).kvUpdateCell x.pos x.headIdx x.dimIdx

-- Cells for what is written to different places, all of them in the pool
structure CellsApart (r : MetalMemoryRuntime) (bound : SlotId → List UInt32) (nHeadKv headDim : Nat) : Prop where
  injective : ∀ x y : r.Written bound nHeadKv headDim, x.slot = y.slot → (bound x.slot).Nodup → x.cell = y.cell → x = y
  disjoint  : ∀ x y : r.Written bound nHeadKv headDim, (bound x.slot).Disjoint (bound y.slot) → x.cell ≠ y.cell
  inside    : ∀ x : r.Written bound nHeadKv headDim,
    x.cell < r.memory.pagedTotalPages * r.memory.pagedBlockSize * (nHeadKv * headDim)

section Cells

variable {bound : SlotId → List UInt32} {n hd pos : Nat}

-- The page of a position
def page (r : MetalMemoryRuntime) (pages : List UInt32) (pos : Nat) : UInt32 :=
  pages.getD (pos / r.memory.pagedBlockSize) 0

theorem page_mem (hb : 0 < r.memory.pagedBlockSize) (hpos : r.Covers pages pos) :
    pages[pos / r.memory.pagedBlockSize]? = some (r.page pages pos) := by
  have hlt : pos / r.memory.pagedBlockSize < pages.length := (Nat.div_lt_iff_lt_mul hb).mpr hpos
  rw [page, getD_eq_getElem _ _ hlt, getElem?_eq_getElem hlt]

theorem blockIdx_eq (n hd : Nat) (h : r.Holds bound) (hb : 0 < r.memory.pagedBlockSize) (hb' : r.memory.pagedBlockSize < 2 ^ 32)
    (htable : r.memory.maxSlots * r.memory.pagedTotalPages < 2 ^ 32) (hslot : slot.toNat < r.memory.maxSlots)
    (hpos : r.Covers (bound slot) pos) : (r.pagedArgs slot n hd).blockIdx pos = (r.page (bound slot) pos).toNat := by
  have hlt : pos / r.memory.pagedBlockSize < (bound slot).length := (Nat.div_lt_iff_lt_mul hb).mpr hpos
  have hlt' := hlt.trans_le (h.length slot)
  have hindex := Nat.digits_lt hslot hlt'
  have hpages : r.memory.pagedTotalPages < 2 ^ 32 :=
    (Nat.le_mul_of_pos_left _ (Nat.zero_lt_of_lt hslot)).trans_lt htable
  have hentry := congrArg (·[pos / r.memory.pagedBlockSize]?) (h.row slot hslot)
  simp only [row, paddedRow, getElem?_map, getElem?_range hlt', Option.map_some, Option.some.injEq] at hentry
  rw [PagedArgs.blockIdx, PagedArgs.tableIndex]
  simp only [pagedArgs, PagedArgs.ofHost]
  rw [uint_eq hpages, uint_eq hb', uint_eq (hindex.trans htable), hentry, page]

variable (h : r.Holds bound) (hb : 0 < r.memory.pagedBlockSize)
  (htable : r.memory.maxSlots * r.memory.pagedTotalPages < 2 ^ 32)
  (hpool : r.memory.pagedTotalPages * r.memory.pagedBlockSize * (n * hd) < 2 ^ 32)

include h hb htable hpool

-- The number of a cell, with a digit for each level
theorem Written.cell_eq (x : r.Written bound n hd) : x.cell = ((r.page (bound x.slot) x.pos).toNat * r.memory.pagedBlockSize +
      x.pos % r.memory.pagedBlockSize) * (n * hd) + (x.headIdx * hd + x.dimIdx) ∧
    x.cell < r.memory.pagedTotalPages * r.memory.pagedBlockSize * (n * hd) := by
  have hn := Nat.zero_lt_of_lt x.headIdx_lt
  have hhd := Nat.zero_lt_of_lt x.dimIdx_lt
  have hlt := h.lt x.slot x.slot_lt _ (mem_of_getElem? (page_mem hb x.covered))
  have hcell := Nat.digits_lt (Nat.digits_lt hlt (Nat.mod_lt x.pos hb)) (Nat.digits_lt x.headIdx_lt x.dimIdx_lt)
  have hle₁ : r.memory.pagedBlockSize ≤ r.memory.pagedTotalPages * r.memory.pagedBlockSize :=
    Nat.le_mul_of_pos_left _ (Nat.zero_lt_of_lt hlt)
  have hle₂ : r.memory.pagedTotalPages * r.memory.pagedBlockSize ≤
      r.memory.pagedTotalPages * r.memory.pagedBlockSize * (n * hd) := Nat.le_mul_of_pos_right _ (Nat.mul_pos hn hhd)
  have hle₃ : n * hd ≤ r.memory.pagedTotalPages * r.memory.pagedBlockSize * (n * hd) :=
    Nat.le_mul_of_pos_left _ (hb.trans_le hle₁)
  have hle₄ : n ≤ n * hd := Nat.le_mul_of_pos_right _ hhd
  have hle₅ : hd ≤ n * hd := Nat.le_mul_of_pos_left _ hn
  have hblock := blockIdx_eq n hd h hb (by omega) htable x.slot_lt x.covered
  have hplace : (r.pagedArgs x.slot n hd).place x.pos =
      (r.page (bound x.slot) x.pos).toNat * r.memory.pagedBlockSize + x.pos % r.memory.pagedBlockSize := by
    rw [PagedArgs.place, hblock, PagedArgs.tokenInBlock]
    simp only [pagedArgs, PagedArgs.ofHost]
    rw [uint_eq (by omega)]
  have hkv : (r.pagedArgs x.slot n hd).nHeadKv = n := uint_eq (by omega)
  have hdims : (r.pagedArgs x.slot n hd).headDim = hd := uint_eq (by omega)
  have hcell' := hcell.trans hpool
  rw [← Nat.add_assoc] at hcell hcell' ⊢
  have heq : x.cell = ((r.page (bound x.slot) x.pos).toNat * r.memory.pagedBlockSize +
      x.pos % r.memory.pagedBlockSize) * (n * hd) + x.headIdx * hd + x.dimIdx := by
    rw [cell, PagedArgs.kvUpdateCell, hdims, PagedArgs.writeOffset_eq (by rw [hplace, hkv]; omega), hplace, hkv, uint_eq hcell']
  exact ⟨heq, heq ▸ hcell⟩

theorem cellsApart : r.CellsApart bound n hd where
  injective x y hslot hnodup heq := by
    rw [(x.cell_eq h hb htable hpool).left, (y.cell_eq h hb htable hpool).left] at heq
    have ⟨htoken, hrecord⟩ := Nat.digits_inj (Nat.digits_lt x.headIdx_lt x.dimIdx_lt) (Nat.digits_lt y.headIdx_lt y.dimIdx_lt) heq
    have ⟨hpage, hmod⟩ := Nat.digits_inj (Nat.mod_lt x.pos hb) (Nat.mod_lt y.pos hb) htoken
    have ⟨hhead, hdim⟩ := Nat.digits_inj x.dimIdx_lt y.dimIdx_lt hrecord
    have hx := page_mem hb x.covered
    have hy := page_mem hb y.covered
    rw [← hslot] at hpage hy
    rw [← UInt32.toNat_inj.mp hpage] at hy
    have ⟨hlt, _⟩ := List.getElem?_eq_some_iff.mp hx
    have hdiv := (getElem?_inj hlt hnodup).mp (hx.trans hy.symm)
    have hpos : x.pos = y.pos := by
      rw [← Nat.div_add_mod x.pos r.memory.pagedBlockSize, hdiv, hmod, Nat.div_add_mod]
    obtain ⟨_, _, _, _, _, _, _, _⟩ := x
    obtain ⟨_, _, _, _, _, _, _, _⟩ := y
    simp_all
  disjoint x y hdisj heq := by
    rw [(x.cell_eq h hb htable hpool).left, (y.cell_eq h hb htable hpool).left] at heq
    have ⟨htoken, _⟩ := Nat.digits_inj (Nat.digits_lt x.headIdx_lt x.dimIdx_lt) (Nat.digits_lt y.headIdx_lt y.dimIdx_lt) heq
    have ⟨hpage, _⟩ := Nat.digits_inj (Nat.mod_lt x.pos hb) (Nat.mod_lt y.pos hb) htoken
    exact hdisj (mem_of_getElem? (page_mem hb x.covered)) (UInt32.toNat_inj.mp hpage ▸ mem_of_getElem? (page_mem hb y.covered))
  inside x := (x.cell_eq h hb htable hpool).right

end Cells

-- The calls leave each other's rows alone as long as they find zeros behind their own. Then the table holds what was bound
-- last, and the kernel finds cells of its own for each number. A call that fails never changes anything.
theorem page_table (memory : MemoryRuntimeConfig) (r : MetalMemoryRuntime) (h : new memory = .ok r)
    (calls : List (SlotId × List UInt32)) (htable : memory.maxSlots * memory.pagedTotalPages < 2 ^ 32) :
    (Each Framed r calls ↔ Each Harmless r calls) ∧
    (Each Harmless r calls →
      (∀ slot, slot.toNat < memory.maxSlots →
        (r.bindAll calls).row slot = r.paddedRow (lastBound memory.pagedTotalPages slot calls)) ∧
      ∀ nHeadKv headDim, memory.pagedTotalPages * memory.pagedBlockSize * (nHeadKv * headDim) < 2 ^ 32 →
        (∀ slot, slot.toNat < memory.maxSlots →
          ∀ page ∈ lastBound memory.pagedTotalPages slot calls, page.toNat < memory.pagedTotalPages) →
        (r.bindAll calls).CellsApart (lastBound memory.pagedTotalPages · calls) nHeadKv headDim) ∧
    ∀ slot pages e, (bindSlot slot pages (r.bindAll calls)).1 = .error e →
      (bindSlot slot pages (r.bindAll calls)).2 = r.bindAll calls := by
  have hmem : r.memory = memory := (new_eq_ok h).right.right.left
  have hframed := each_framed_iff calls (hmem.symm ▸ htable)
  refine ⟨hframed, fun hz => ?_, fun slot pages e he => bindSlot_error (Prod.ext he rfl)⟩
  have hrow {slot : SlotId} (hslot : slot.toNat < r.memory.maxSlots) :=
    row_bindAll calls (hframed.mpr hz) hslot (row_new h slot)
  rw [hmem] at hrow
  refine ⟨fun slot => hrow, fun n hd hpool hpages => ?_⟩
  have hmem' : (r.bindAll calls).memory = memory := memory_bindAll.trans hmem
  have hb : 0 < memory.pagedBlockSize := by
    have hconfig := (new_eq_ok h).right.right.right.right
    exact hconfig ▸ r.allocator.config.blockSize_pos
  refine cellsApart ⟨fun slot hslot => ?_, fun slot => ?_, ?_⟩ (hmem'.symm ▸ hb) (hmem'.symm ▸ htable) (hmem'.symm ▸ hpool)
  case refine_1 => rw [hrow (hmem' ▸ hslot), paddedRow, paddedRow, hmem', hmem]
  case refine_2 => exact hmem'.symm ▸ length_lastBound _ _ _
  case refine_3 => exact hmem'.symm ▸ hpages

-- A table of eight rows. The slots are bound in order, and the last one of them again.
def eightRows : MetalMemoryRuntime :=
  ⟨⟨16, 2, 3, 8⟩, .new 16 3 2, .new ⟨2, 3, Nat.zero_lt_two⟩, fun _ => 0⟩

def boundCalls : List (SlotId × List UInt32) :=
  [(0, [0]), (1, [2]), (2, [0, 1, 2]), (2, [1]), (0, [1, 0, 2, 1])]

theorem page_table_eightRows : new ⟨16, 2, 3, 8⟩ = .ok eightRows ∧ Each Framed eightRows boundCalls ∧
    (eightRows.bindAll boundCalls).row 2 = eightRows.paddedRow [1] ∧
    (eightRows.bindAll boundCalls).CellsApart (lastBound 3 · boundCalls) 1 2 := by
  have ⟨hframed, hrun, _⟩ := page_table ⟨16, 2, 3, 8⟩ eightRows rfl boundCalls (by decide)
  have hz : Each Harmless eightRows boundCalls := ⟨by decide, by decide, by decide, by decide, by decide, trivial⟩
  have ⟨hrow, hcells⟩ := hrun hz
  refine ⟨rfl, hframed.mpr hz, hrow 2 (by decide), hcells 1 2 (by decide) fun slot _ page hpage => ?_⟩
  have hpages : ∀ call ∈ boundCalls, call.2.length ≤ 3 → ∀ page ∈ call.2, page.toNat < 3 := by
    simp [boundCalls]
  rcases lastBound_eq_nil_or 3 slot boundCalls with hnil | ⟨call, hcall, hle, hlast⟩
  case inl => exact absurd (hnil ▸ hpage) not_mem_nil
  case inr => exact hpages call hcall hle page (hlast ▸ hpage)

-- The second call clears the row of the first one.
theorem exists_not_framed : ∃ r, new ⟨16, 2, 2, 5⟩ = .ok r ∧ ¬Framed (r.bindAll [(1, [1])]) 0 [0] ∧
    lastBound 2 1 [(1, [1]), (0, [0])] = [1] ∧ (r.bindAll [(1, [1]), (0, [0])]).row 1 = [0, 0] := by
  refine ⟨_, rfl, fun f => ?_, rfl, rfl⟩
  have hrow := f.rows (show (1 : SlotId) ≠ 0 by decide) (by decide)
  exact absurd hrow (by decide)

end MetalMemoryRuntime
