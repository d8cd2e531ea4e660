import VeloCore.Objects.Metal.Kernels
import Mathlib.Data.List.GetD

open List

theorem uint_eq (h : n < 2 ^ 32) : uint n = n :=
  Nat.mod_eq_of_lt h

namespace KvArgs

variable {args : KvArgs}

-- The number of tokens that lie before the one of a position in the pool.
def tokensBefore (args : KvArgs) (t : Nat) : Nat :=
  args.blockIdx t * args.blockSize + args.tokenInBlock t

def width (args : KvArgs) : Nat :=
  args.nHeadKv * args.headDim

theorem cacheOffset_eq (tpig : Nat) : args.cacheOffset tpig = uint (args.tokensBefore args.pos * args.width + tpig) := by
  have hsplit : args.tokensBefore args.pos * args.width + tpig = args.blockIdx args.pos * args.blockSize * args.nHeadKv * args.headDim +
      args.tokenInBlock args.pos * args.nHeadKv * args.headDim + tpig / args.headDim * args.headDim + tpig % args.headDim := by
    conv_lhs => rw [← Nat.div_add_mod tpig args.headDim]
    rw [tokensBefore, width]
    ring
  rw [hsplit]
  simp [cacheOffset, uint, Nat.add_mod]

theorem mem_kvUpdate_iff : c ∈ args.kvUpdate args.width ↔
    ∃ tpig < args.width, c = uint (args.tokensBefore args.pos * args.width + tpig) := by
  simp only [kvUpdate, mem_map, mem_filter, mem_range, decide_eq_true_eq, cacheOffset_eq]
  constructor
  case mp =>
    intro ⟨tpig, ⟨hlt, _⟩, heq⟩
    exact ⟨tpig, hlt, heq.symm⟩
  case mpr =>
    intro ⟨tpig, hlt, heq⟩
    exact ⟨tpig, ⟨hlt, Nat.div_lt_of_lt_mul (by rwa [Nat.mul_comm])⟩, heq.symm⟩

theorem mem_pagedAttentionFlash_iff : c ∈ args.pagedAttentionFlash nHead n ↔ ∃ headIdx < n, ∃ t < uint (args.pos + 1),
    ∃ d < args.headDim, c = args.headOffset (headIdx / (nHead / args.nHeadKv)) t + d := by
  simp only [pagedAttentionFlash, headCells, mem_flatMap, mem_map, mem_range]
  simp only [eq_comm]

theorem headOffset_eq (h : args.tokensBefore t * args.width + k * args.headDim < 2 ^ 32) :
    args.headOffset k t = args.tokensBefore t * args.width + k * args.headDim := by
  have hsplit : args.tokensBefore t * args.width = args.blockIdx t * args.blockSize * args.nHeadKv * args.headDim +
      args.tokenInBlock t * args.nHeadKv * args.headDim := by
    rw [tokensBefore, width]
    ring
  rw [hsplit] at h ⊢
  rw [headOffset, uint_eq (by omega), uint_eq (by omega), uint_eq (by omega)]

end KvArgs

-- Where the query heads are shared out evenly, each key head has a query.
theorem exists_head_iff (hpos : 0 < n) (h : m ∣ n) : (∃ i < n, i / (n / m) = k) ↔ k < m := by
  have hm : 0 < m := Nat.pos_of_dvd_of_pos h hpos
  have hq : 0 < n / m := Nat.div_pos (Nat.le_of_dvd hpos h) hm
  have hmul : n / m * m = n := Nat.div_mul_cancel h
  constructor
  case mp =>
    intro ⟨i, hi, heq⟩
    exact heq ▸ Nat.div_lt_of_lt_mul (hmul.symm ▸ hi)
  case mpr =>
    intro hk
    have hlt : n / m * k < n / m * m := Nat.mul_lt_mul_of_pos_left hk hq
    exact ⟨n / m * k, hlt.trans_eq hmul, Nat.mul_div_cancel_left k hq⟩

-- The two ways to find the key head of a query
theorem mul_div_eq_div_div {n m h : Nat} (hm : 0 < m) (hn : 0 < n) (hd : m ∣ n) : h * m / n = h / (n / m) := by
  obtain ⟨q, rfl⟩ := hd
  rw [Nat.mul_div_cancel_left q hm, Nat.mul_comm h, Nat.mul_div_mul_left h q hm]

namespace KvDims

variable {dims : KvDims} {row : KvRow dims} {pos pos' : Nat}

-- All pages in order.
def allPages (dims : KvDims) : KvRow dims where
  pages := range dims.totalPages
  nodup := nodup_range
  lt := by simp

-- The tokens of a row.
def tokens (row : KvRow dims) : Nat :=
  row.pages.length * dims.blockSize

-- The place of a position in the pool, in tokens.
def place (row : KvRow dims) (pos : Nat) : Nat :=
  row.pages.getD (pos / dims.blockSize) 0 * dims.blockSize + pos % dims.blockSize

-- Tokens and cells can be numbered by a `uint`.
structure Fits (dims : KvDims) : Prop where
  tokens_lt : dims.totalPages * dims.blockSize < 2 ^ 32
  cells_le  : dims.totalPages * dims.blockSize * (dims.nHeadKv * dims.headDim) ≤ 2 ^ 32

-- The writes of distinct layers or positions do not overlap, none leaves the pools, and a layer reads what it wrote.
structure Separated (dims : KvDims) : Prop where
  disjoint : ∀ (row : KvRow dims) (layer layer' pos pos' : Nat), layer < dims.nLayer → layer' < dims.nLayer → pos < tokens row →
    pos' < tokens row → (layer, pos) ≠ (layer', pos') → Disjoint (dims.writes row.pages layer pos) (dims.writes row.pages layer' pos')
  inside   : ∀ (row : KvRow dims) (layer pos : Nat), layer < dims.nLayer → pos < tokens row →
    ∀ cell ∈ dims.writes row.pages layer pos, 4 * (cell + 1) ≤ dims.poolSize
  reads    : ∀ (row : KvRow dims) (layer pos : Nat), layer < dims.nLayer → pos < tokens row → ∀ cell,
    cell ∈ dims.reads row.pages layer pos ↔ ∃ pos' ≤ pos, cell ∈ dims.writes row.pages layer pos'

section Place

theorem length_le (row : KvRow dims) : row.pages.length ≤ dims.totalPages := by
  have hsub : row.pages ⊆ range dims.totalPages := fun page h => mem_range.mpr (row.lt page h)
  simpa using (subperm_of_subset row.nodup hsub).length_le

theorem tokens_le (row : KvRow dims) : tokens row ≤ dims.totalPages * dims.blockSize :=
  Nat.mul_le_mul_right _ (length_le row)

theorem index_lt (h : pos < tokens row) : pos / dims.blockSize < row.pages.length :=
  Nat.div_lt_of_lt_mul (by rwa [Nat.mul_comm])

theorem place_lt (h : pos < tokens row) : place row pos < dims.totalPages * dims.blockSize := by
  have hpage : row.pages.getD (pos / dims.blockSize) 0 < dims.totalPages := by
    rw [getD_eq_getElem _ _ (index_lt h)]
    exact row.lt _ (getElem_mem _)
  calc place row pos < row.pages.getD (pos / dims.blockSize) 0 * dims.blockSize + dims.blockSize :=
        Nat.add_lt_add_left (Nat.mod_lt _ dims.blockSize_pos) _
    _ = (row.pages.getD (pos / dims.blockSize) 0 + 1) * dims.blockSize := by ring
    _ ≤ dims.totalPages * dims.blockSize := Nat.mul_le_mul_right _ hpage

theorem place_inj (h : pos < tokens row) (h' : pos' < tokens row) (heq : place row pos = place row pos') : pos = pos' := by
  have hlt (p) : p % dims.blockSize < dims.blockSize := Nat.mod_lt _ dims.blockSize_pos
  have hmod : pos % dims.blockSize = pos' % dims.blockSize := by
    have := congrArg (· % dims.blockSize) heq
    simpa [place, Nat.mul_add_mod_self_right] using this
  have hpage : row.pages.getD (pos / dims.blockSize) 0 = row.pages.getD (pos' / dims.blockSize) 0 := by
    have := congrArg (· / dims.blockSize) heq
    simpa [place, Nat.mul_add_div, Nat.mul_comm _ dims.blockSize, Nat.div_eq_of_lt (hlt _), dims.blockSize_pos] using this
  rw [getD_eq_getElem _ _ (index_lt h), getD_eq_getElem _ _ (index_lt h')] at hpage
  have hdiv : pos / dims.blockSize = pos' / dims.blockSize := (row.nodup.getElem_inj_iff).mp hpage
  rw [← Nat.div_add_mod pos dims.blockSize, ← Nat.div_add_mod pos' dims.blockSize, hdiv, hmod]

theorem place_allPages (h : pos < dims.totalPages * dims.blockSize) : place dims.allPages pos = pos := by
  have hlt : pos / dims.blockSize < (range dims.totalPages).length := by
    rw [length_range]
    exact Nat.div_lt_of_lt_mul (by rwa [Nat.mul_comm])
  have hpage : (range dims.totalPages).getD (pos / dims.blockSize) 0 = pos / dims.blockSize := by
    rw [getD_eq_getElem _ _ hlt, getElem_range]
  rw [place, allPages, hpage, Nat.mul_comm, Nat.div_add_mod]

end Place

section Args

theorem headDim_lt (dims : KvDims) : dims.headDim < 2 ^ 32 :=
  (Nat.le_mul_of_pos_left _ dims.nHead_pos).trans_lt dims.nEmbd_lt

theorem nHead_lt (h : 0 < dims.headDim) : dims.nHead < 2 ^ 32 :=
  (Nat.le_mul_of_pos_right _ h).trans_lt dims.nEmbd_lt

theorem args_headDim (pages : List Nat) (pos : Nat) : (dims.args pages pos).headDim = dims.headDim :=
  uint_eq dims.headDim_lt

theorem args_width (pages : List Nat) (pos : Nat) : (dims.args pages pos).width = dims.nHeadKv * dims.headDim := by
  rw [KvArgs.width, args, uint_eq dims.nHeadKv_lt, uint_eq dims.headDim_lt]

theorem mem_writes_iff {pages : List Nat} {layer : Nat} : c ∈ dims.writes pages layer pos ↔ ∃ tpig < dims.nHeadKv * dims.headDim,
    c = uint ((dims.args pages pos).tokensBefore (uint pos) * (dims.nHeadKv * dims.headDim) + tpig) := by
  rw [writes, ← args_width pages pos, KvArgs.mem_kvUpdate_iff]
  rfl

theorem mem_reads_iff (hdim : 0 < dims.headDim) {pages : List Nat} {layer : Nat} : c ∈ dims.reads pages layer pos ↔
    ∃ headIdx < dims.nHead, ∃ t < uint (uint pos + 1), ∃ d < dims.headDim,
      c = (dims.args pages pos).headOffset (headIdx / (dims.nHead / dims.nHeadKv)) t + d := by
  rw [reads, KvArgs.mem_pagedAttentionFlash_iff]
  simp only [args, uint_eq (nHead_lt hdim), uint_eq dims.nHeadKv_lt, uint_eq dims.headDim_lt]

theorem tokensBefore_eq (h : dims.totalPages * dims.blockSize < 2 ^ 32) (t : Nat) :
    (dims.args row.pages pos).tokensBefore t = place row t := by
  have hblock : dims.blockSize < 2 ^ 32 := (Nat.le_mul_of_pos_left _ dims.totalPages_pos).trans_lt h
  simp [KvArgs.tokensBefore, KvArgs.blockIdx, KvArgs.tokenInBlock, args, place, uint_eq hblock]

end Args

namespace Fits

variable (hf : Fits dims)

include hf

theorem pos_lt (h : pos < tokens row) : pos < 2 ^ 32 :=
  (h.trans_le (tokens_le row)).trans hf.tokens_lt

omit hf in
theorem cell_lt (h : pos < tokens row) (hi : i < dims.nHeadKv * dims.headDim) :
    place row pos * (dims.nHeadKv * dims.headDim) + i < dims.totalPages * dims.blockSize * (dims.nHeadKv * dims.headDim) := by
  calc place row pos * (dims.nHeadKv * dims.headDim) + i < place row pos * (dims.nHeadKv * dims.headDim) + dims.nHeadKv * dims.headDim :=
        Nat.add_lt_add_left hi _
    _ = (place row pos + 1) * (dims.nHeadKv * dims.headDim) := by ring
    _ ≤ dims.totalPages * dims.blockSize * (dims.nHeadKv * dims.headDim) := Nat.mul_le_mul_right _ (place_lt h)

theorem mem_writes_iff (h : pos < tokens row) : c ∈ dims.writes row.pages layer pos ↔
    ∃ tpig < dims.nHeadKv * dims.headDim, c = place row pos * (dims.nHeadKv * dims.headDim) + tpig := by
  rw [KvDims.mem_writes_iff, uint_eq (hf.pos_lt h), tokensBefore_eq hf.tokens_lt]
  refine exists_congr fun tpig => and_congr_right fun hi => ?_
  rw [uint_eq ((cell_lt h hi).trans_le hf.cells_le)]

theorem mem_reads_iff (hdim : 0 < dims.headDim) (hdvd : dims.nHeadKv ∣ dims.nHead) (h : pos < tokens row) :
    c ∈ dims.reads row.pages layer pos ↔ ∃ t ≤ pos, c ∈ dims.writes row.pages layer t := by
  have hsucc : pos + 1 < 2 ^ 32 := Nat.lt_of_le_of_lt (h.trans_le (tokens_le row)) hf.tokens_lt
  have hoffset (k t) (hk : k < dims.nHeadKv) (ht : t ≤ pos) :
      (dims.args row.pages pos).headOffset k t = place row t * (dims.nHeadKv * dims.headDim) + k * dims.headDim := by
    have hlt := cell_lt (Nat.lt_of_le_of_lt ht h) (Nat.mul_lt_mul_of_pos_right hk hdim)
    rw [KvArgs.headOffset_eq, tokensBefore_eq hf.tokens_lt, args_width, args_headDim]
    rw [tokensBefore_eq hf.tokens_lt, args_width, args_headDim]
    exact hlt.trans_le hf.cells_le
  have hwrites (t) (ht : t ≤ pos) : c ∈ dims.writes row.pages layer t ↔ ∃ tpig < dims.nHeadKv * dims.headDim,
      c = place row t * (dims.nHeadKv * dims.headDim) + tpig := hf.mem_writes_iff (Nat.lt_of_le_of_lt ht h)
  rw [KvDims.mem_reads_iff hdim, uint_eq (hf.pos_lt h), uint_eq hsucc]
  constructor
  case mp =>
    intro ⟨headIdx, hh, t, ht, d, hd, heq⟩
    have hk := (exists_head_iff dims.nHead_pos hdvd).mp ⟨headIdx, hh, rfl⟩
    rw [hoffset _ t hk (Nat.le_of_lt_succ ht)] at heq
    refine ⟨t, Nat.le_of_lt_succ ht, (hwrites t (Nat.le_of_lt_succ ht)).mpr ⟨_, ?_, heq.trans (Nat.add_assoc ..)⟩⟩
    calc headIdx / (dims.nHead / dims.nHeadKv) * dims.headDim + d
        < headIdx / (dims.nHead / dims.nHeadKv) * dims.headDim + dims.headDim := Nat.add_lt_add_left hd _
      _ = (headIdx / (dims.nHead / dims.nHeadKv) + 1) * dims.headDim := by ring
      _ ≤ dims.nHeadKv * dims.headDim := Nat.mul_le_mul_right _ hk
  case mpr =>
    intro ⟨t, ht, hc⟩
    have ⟨tpig, htpig, heq⟩ := (hwrites t ht).mp hc
    have hk : tpig / dims.headDim < dims.nHeadKv := Nat.div_lt_of_lt_mul (by rwa [Nat.mul_comm])
    have ⟨headIdx, hh, hhead⟩ := (exists_head_iff dims.nHead_pos hdvd).mpr hk
    refine ⟨headIdx, hh, t, Nat.lt_succ_of_le ht, tpig % dims.headDim, Nat.mod_lt _ hdim, ?_⟩
    rw [hhead, hoffset _ t hk ht, heq, Nat.add_assoc, Nat.mul_comm (tpig / _), Nat.div_add_mod]

theorem separated (hdim : 0 < dims.headDim) (hlayer : dims.nLayer = 1) (hdvd : dims.nHeadKv ∣ dims.nHead) : Separated dims where
  disjoint row layer layer' pos pos' hl hl' hp hp' hne := by
    have hplace : place row pos ≠ place row pos' := by
      intro heq
      have hpos := place_inj hp hp' heq
      exact hne (by rw [hpos]; congr 1; omega)
    intro c hc hc'
    have ⟨i, hi, heq⟩ := (hf.mem_writes_iff hp).mp hc
    have ⟨i', hi', heq'⟩ := (hf.mem_writes_iff hp').mp hc'
    have hdiv (p j) (hj : j < dims.nHeadKv * dims.headDim) :
        (p * (dims.nHeadKv * dims.headDim) + j) / (dims.nHeadKv * dims.headDim) = p := by
      rw [Nat.mul_comm p, Nat.mul_add_div (Nat.zero_lt_of_lt hj), Nat.div_eq_of_lt hj, Nat.add_zero]
    exact hplace ((hdiv _ i hi).symm.trans ((congrArg (· / _) (heq.symm.trans heq')).trans (hdiv _ i' hi')))
  inside row layer pos hl hp c hc := by
    have ⟨i, hi, heq⟩ := (hf.mem_writes_iff hp).mp hc
    have hlt := heq ▸ cell_lt hp hi
    calc 4 * (c + 1) ≤ 4 * (dims.totalPages * dims.blockSize * (dims.nHeadKv * dims.headDim)) := Nat.mul_le_mul_left _ hlt
      _ = dims.poolSize := by
        rw [poolSize, hlayer, kvBytesPerToken]
        ring
  reads row layer pos hl hp c := hf.mem_reads_iff hdim hdvd hp

end Fits

-- Why the regions are separated only then: the cells that position 0 writes and reads are looked at, with all pages in order.
section First

theorem first_allPages (dims : KvDims) : dims.allPages.pages[0]?.getD 0 = 0 := by
  rw [allPages, getElem?_range dims.totalPages_pos, Option.getD_some]

theorem tokensBefore_zero (dims : KvDims) (pos : Nat) : (dims.args dims.allPages.pages pos).tokensBefore 0 = 0 := by
  simp [KvArgs.tokensBefore, KvArgs.blockIdx, KvArgs.tokenInBlock, args, first_allPages]

theorem headOffset_zero (dims : KvDims) (pos k : Nat) :
    (dims.args dims.allPages.pages pos).headOffset k 0 = uint (k * dims.headDim) := by
  have hzero : uint 0 = 0 := rfl
  simp [KvArgs.headOffset, KvArgs.blockIdx, KvArgs.tokenInBlock, args, first_allPages, hzero, uint_eq dims.headDim_lt]

theorem tokens_allPages (dims : KvDims) : tokens dims.allPages = dims.totalPages * dims.blockSize := by
  rw [tokens, allPages, length_range]

theorem tokens_pos (dims : KvDims) : 0 < tokens dims.allPages := by
  rw [tokens_allPages]
  exact Nat.mul_pos dims.totalPages_pos dims.blockSize_pos

theorem mem_writes_zero {layer : Nat} : c ∈ dims.writes dims.allPages.pages layer 0 ↔
    ∃ tpig < dims.nHeadKv * dims.headDim, c = uint tpig := by
  have hzero : uint 0 = 0 := rfl
  simp [mem_writes_iff, hzero, tokensBefore_zero]

theorem mem_reads_zero (hdim : 0 < dims.headDim) {layer : Nat} : c ∈ dims.reads dims.allPages.pages layer 0 ↔
    ∃ headIdx < dims.nHead, ∃ d < dims.headDim, c = uint (headIdx / (dims.nHead / dims.nHeadKv) * dims.headDim) + d := by
  have hone : uint (uint 0 + 1) = 1 := rfl
  simp [mem_reads_iff hdim, hone, headOffset_zero]

end First

namespace Separated

variable (h : Separated dims) (hdim : 0 < dims.headDim) (hlayer : 0 < dims.nLayer)

include h hdim hlayer

theorem dvd : dims.nHeadKv ∣ dims.nHead := by
  have hsame (c) : c ∈ dims.reads dims.allPages.pages 0 0 ↔ c ∈ dims.writes dims.allPages.pages 0 0 := by
    simp [h.reads dims.allPages 0 0 hlayer (tokens_pos dims) c]
  simp only [mem_reads_zero hdim, mem_writes_zero] at hsame
  by_cases hzero : dims.nHeadKv = 0
  case pos =>
    -- The kernel divides by zero, and there is nothing that it could read.
    have ⟨_, hlt, _⟩ := (hsame _).mp ⟨0, dims.nHead_pos, 0, hdim, rfl⟩
    simp [hzero] at hlt
  case neg =>
    by_cases hle : dims.nHeadKv ≤ dims.nHead
    case neg =>
      -- Again a division by zero: one head is read of at least two.
      have hdiv : dims.nHead / dims.nHeadKv = 0 := Nat.div_eq_of_lt (Nat.lt_of_not_le hle)
      have htwo : 1 < dims.nHeadKv := Nat.lt_of_le_of_lt dims.nHead_pos (Nat.lt_of_not_le hle)
      have hlt : dims.headDim < dims.nHeadKv * dims.headDim := (Nat.lt_mul_iff_one_lt_left hdim).mpr htwo
      have ⟨headIdx, _, d, hd, heq⟩ := (hsame dims.headDim).mpr ⟨dims.headDim, hlt, (uint_eq dims.headDim_lt).symm⟩
      simp [hdiv, uint] at heq
      omega
    case pos =>
      by_contra hdvd
      -- The last heads read past the keys of the position.
      have hq : 0 < dims.nHead / dims.nHeadKv := Nat.div_pos hle (Nat.pos_of_ne_zero hzero)
      have hrest : 0 < dims.nHead % dims.nHeadKv := Nat.pos_of_ne_zero fun hmod => hdvd (Nat.dvd_of_mod_eq_zero hmod)
      have hlast : dims.nHead / dims.nHeadKv * dims.nHeadKv < dims.nHead := by
        have := Nat.div_add_mod dims.nHead dims.nHeadKv
        rw [Nat.mul_comm] at this
        omega
      have hcells : dims.nHeadKv * dims.headDim < 2 ^ 32 := (Nat.mul_le_mul_right _ hle).trans_lt dims.nEmbd_lt
      have ⟨tpig, htpig, heq⟩ := (hsame (dims.nHeadKv * dims.headDim)).mp
        ⟨_, hlast, 0, hdim, by rw [Nat.mul_div_cancel_left _ hq, uint_eq hcells, Nat.add_zero]⟩
      exact absurd (heq.trans_le (Nat.mod_le ..)) (Nat.not_le_of_lt htpig)

theorem nHeadKv_pos : 0 < dims.nHeadKv :=
  Nat.pos_of_dvd_of_pos (h.dvd hdim hlayer) dims.nHead_pos

theorem mem_writes_zero (layer : Nat) : 0 ∈ dims.writes dims.allPages.pages layer 0 :=
  KvDims.mem_writes_zero.mpr ⟨0, Nat.mul_pos (h.nHeadKv_pos hdim hlayer) hdim, rfl⟩

-- All layers write to the same cells.
theorem nLayer_eq : dims.nLayer = 1 := by
  by_contra hne
  exact h.disjoint dims.allPages 0 1 0 0 hlayer (by omega) (tokens_pos dims) (tokens_pos dims) (by simp)
    (h.mem_writes_zero hdim hlayer 0) (h.mem_writes_zero hdim hlayer 1)

-- At the last position that a `uint` holds, the number of tokens to read is zero.
theorem tokens_lt : dims.totalPages * dims.blockSize < 2 ^ 32 := by
  by_contra hge
  have hlast : 2 ^ 32 - 1 < tokens dims.allPages := by
    rw [tokens_allPages]
    omega
  have hzero : uint (uint (2 ^ 32 - 1) + 1) = 0 := rfl
  have hread := (h.reads dims.allPages 0 _ hlayer hlast 0).mpr ⟨0, Nat.zero_le _, h.mem_writes_zero hdim hlayer 0⟩
  have ⟨_, _, t, ht, _⟩ := (mem_reads_iff hdim).mp hread
  exact Nat.not_lt_zero t (hzero ▸ ht)

-- The cell after the last one that a `uint` numbers is taken for the first one.
theorem cells_le : dims.totalPages * dims.blockSize * (dims.nHeadKv * dims.headDim) ≤ 2 ^ 32 := by
  by_contra hgt
  have hkv := Nat.le_of_dvd dims.nHead_pos (h.dvd hdim hlayer)
  have hwidth : dims.nHeadKv * dims.headDim < 2 ^ 32 := (Nat.mul_le_mul_right _ hkv).trans_lt dims.nEmbd_lt
  have hpos : 0 < dims.nHeadKv * dims.headDim := Nat.mul_pos (h.nHeadKv_pos hdim hlayer) hdim
  have hlt : 2 ^ 32 / (dims.nHeadKv * dims.headDim) < dims.totalPages * dims.blockSize :=
    Nat.div_lt_of_lt_mul (by rw [Nat.mul_comm]; exact Nat.lt_of_not_le hgt)
  have hne : 0 < 2 ^ 32 / (dims.nHeadKv * dims.headDim) := Nat.div_pos hwidth.le hpos
  have hwrite : 0 ∈ dims.writes dims.allPages.pages 0 (2 ^ 32 / (dims.nHeadKv * dims.headDim)) := by
    refine mem_writes_iff.mpr ⟨2 ^ 32 % (dims.nHeadKv * dims.headDim), Nat.mod_lt _ hpos, ?_⟩
    rw [tokensBefore_eq (h.tokens_lt hdim hlayer), uint_eq (hlt.trans (h.tokens_lt hdim hlayer)), place_allPages hlt,
      Nat.mul_comm, Nat.div_add_mod]
    rfl
  exact h.disjoint dims.allPages 0 0 _ 0 hlayer hlayer ((tokens_allPages dims).symm ▸ hlt) (tokens_pos dims)
    (by simpa using hne.ne') hwrite (h.mem_writes_zero hdim hlayer 0)

end Separated

theorem separated_of_headDim (h : dims.headDim = 0) : Separated dims := by
  have hwrites (pages layer pos) : dims.writes pages layer pos = [] := by
    simp [writes, h, KvArgs.kvUpdate]
  have hreads (pages layer pos) : dims.reads pages layer pos = [] := by
    simp [reads, h, KvArgs.pagedAttentionFlash, KvArgs.headCells, args, uint]
  exact ⟨by simp [hwrites], by simp [hwrites], by simp [hwrites, hreads]⟩

theorem separated_of_nLayer (h : dims.nLayer = 0) : Separated dims :=
  ⟨by simp [h], by simp [h], by simp [h]⟩

theorem separated_iff : Separated dims ↔
    dims.headDim = 0 ∨ dims.nLayer = 0 ∨ (dims.nLayer = 1 ∧ dims.nHeadKv ∣ dims.nHead ∧ Fits dims) := by
  constructor
  case mp =>
    intro h
    refine or_iff_not_imp_left.mpr fun hdim => or_iff_not_imp_left.mpr fun hlayer => ?_
    replace hdim := Nat.pos_of_ne_zero hdim
    replace hlayer := Nat.pos_of_ne_zero hlayer
    exact ⟨h.nLayer_eq hdim hlayer, h.dvd hdim hlayer, h.tokens_lt hdim hlayer, h.cells_le hdim hlayer⟩
  case mpr =>
    intro h
    by_cases hdim : dims.headDim = 0
    case pos => exact separated_of_headDim hdim
    case neg =>
      cases h.resolve_left hdim
      case inl hlayer => exact separated_of_nLayer hlayer
      case inr h => exact h.right.right.separated (Nat.pos_of_ne_zero hdim) h.left h.right.left

-- Two layers of one head of one number.
theorem exists_not_separated : ¬Separated ⟨2, 1, 1, 1, 1, 1, by decide, by decide, by decide, by decide, by decide⟩ := by
  intro h
  exact h.disjoint (allPages _) 0 1 0 0 (by decide) (by decide) (by decide) (by decide) (by decide) (a := 0) (by decide) (by decide)

end KvDims
