import VeloCore.Objects.Metal.Matvec
import VeloCore.Objects.Metal.Theorems.KvLayers
import VeloCore.Objects.Gguf.Theorems.Loader
import VeloCore.Objects.Gguf.Header

open List Gguf

namespace MatvecKernel

variable {rows cols : Nat}

theorem lt_of_uint_eq (h : uint n = n) : n < 2 ^ 32 :=
  h ▸ Nat.mod_lt n (by norm_num)

-- Each row has a thread just when their number is one of 32 bits.
theorem rows_iff : (∀ r < rows, r < uint rows) ↔ rows < 2 ^ 32 := by
  constructor
  case mp =>
    intro h
    by_cases hr : rows = 0
    case pos => exact hr ▸ by norm_num
    case neg =>
      have hlt := h (rows - 1) (by omega)
      have hle : uint rows ≤ rows := Nat.mod_le ..
      exact lt_of_uint_eq (by omega)
  case mpr =>
    intro h r hr
    rwa [uint_eq h]

theorem matvecF32_iff (hc : cols < 2 ^ 32) :
    (∀ r < rows, ∀ c < cols, matvecF32.read rows cols r c = some (GgmlType.f32.cell cols r c)) ↔
      cols = 0 ∨ rows < 2 ^ 32 ∧ rows * cols ≤ 2 ^ 32 := by
  by_cases h0 : cols = 0
  case pos => exact iff_of_true (fun _ _ c hc => absurd hc (h0 ▸ c.not_lt_zero)) (.inl h0)
  have hcols : 0 < cols := Nat.pos_of_ne_zero h0
  rw [or_iff_right h0]
  have hread (r c : Nat) (h : c < cols) : matvecF32.read rows cols r c = some (GgmlType.f32.cell cols r c) ↔
      r < uint rows ∧ uint (r * cols + c) = r * cols + c := by
    have hb : GgmlType.f32.cell cols r c = .f32 ((r * cols + c) * 4) := by
      simp [GgmlType.cell, GgmlType.rowBytes, divCeil, GgmlType.blockElems, GgmlType.blockBytes, add_mul, mul_assoc]
    rw [read, uint_eq hc, cell, if_pos h, hb]
    split
    case isTrue hr  => simp [hr]
    case isFalse hr => simp [hr]
  constructor
  case mp =>
    intro h
    have hrows : rows < 2 ^ 32 := rows_iff.mp fun r hr => ((hread r 0 hcols).mp (h r hr 0 hcols)).left
    refine ⟨hrows, ?_⟩
    by_cases hr : rows = 0
    case pos => simp [hr]
    case neg =>
      have hlt := lt_of_uint_eq ((hread _ _ (by omega)).mp (h (rows - 1) (by omega) (cols - 1) (by omega))).right
      have hs : rows * cols = (rows - 1) * cols + cols := by
        rw [← Nat.succ_mul, Nat.succ_eq_add_one, Nat.sub_add_cancel (by omega)]
      omega
  case mpr =>
    rintro ⟨hrows, hle⟩ r hr c hc'
    refine (hread r c hc').mpr ⟨rows_iff.mpr hrows r hr, uint_eq ?_⟩
    have hs : (r + 1) * cols ≤ rows * cols := Nat.mul_le_mul_right cols hr
    rw [Nat.succ_mul] at hs
    omega

theorem matvecQ4_0_iff (hc : cols < 2 ^ 32) :
    (∀ r < rows, ∀ c < cols, matvecQ4_0.read rows cols r c = some (GgmlType.q4_0.cell cols r c)) ↔
      cols = 0 ∨ rows < 2 ^ 32 ∧ (cols < 32 ∨ (rows ≤ 1 ∨ 32 ∣ cols) ∧ (rows * (cols / 32) - 1) * 18 < 2 ^ 32) := by
  by_cases h0 : cols = 0
  case pos => exact iff_of_true (fun _ _ c hc => absurd hc (h0 ▸ c.not_lt_zero)) (.inl h0)
  have hcols : 0 < cols := Nat.pos_of_ne_zero h0
  rw [or_iff_right h0]
  have hread (r c : Nat) : matvecQ4_0.read rows cols r c = some (GgmlType.q4_0.cell cols r c) ↔
      r < uint rows ∧ (c < cols / 32 * 32 →
        uint (r * (cols / 32) * 18 + c / 32 * 18) = r * (divCeil cols 32 * 18) + c / 32 * 18) := by
    rw [read, uint_eq hc]
    simp only [cell, GgmlType.cell, GgmlType.rowBytes, GgmlType.blockElems, GgmlType.blockBytes]
    by_cases hr : r < uint rows <;> by_cases hc' : c < cols / 32 * 32 <;> simp [hr, hc']
  simp only [hread]
  constructor
  case mp =>
    intro h
    have hrows : rows < 2 ^ 32 := rows_iff.mp fun r hr => (h r hr 0 hcols).left
    refine ⟨hrows, (Nat.lt_or_ge cols 32).imp_right fun hge => ?_⟩
    have hn : 0 < cols / 32 := Nat.div_pos hge (by norm_num)
    have hwhole : rows ≤ 1 ∨ 32 ∣ cols := by
      refine (Nat.lt_or_ge 1 rows).symm.imp_right fun hr => ?_
      have he := (h 1 hr 0 hcols).right (by omega)
      rw [one_mul, uint_eq (by omega)] at he
      rw [divCeil] at he
      omega
    refine ⟨hwhole, ?_⟩
    by_cases hr : rows = 0
    case pos => simp [hr]
    case neg =>
      have he := (h (rows - 1) (by omega) ((cols / 32 - 1) * 32) (by omega)).right (by omega)
      have hd : (rows - 1) * (divCeil cols 32 * 18) = (rows - 1) * (cols / 32) * 18 := by
        cases hwhole
        case inl h1 => simp [show rows - 1 = 0 by omega]
        case inr hd =>
          have hd : divCeil cols 32 = cols / 32 := by
            rw [divCeil]
            omega
          rw [hd, mul_assoc]
      rw [hd] at he
      have hlt := lt_of_uint_eq he
      have hs : rows * (cols / 32) = (rows - 1) * (cols / 32) + cols / 32 := by
        rw [← Nat.succ_mul, Nat.succ_eq_add_one, Nat.sub_add_cancel (by omega)]
      omega
  case mpr =>
    rintro ⟨hrows, h⟩ r hr c hc'
    refine ⟨rows_iff.mpr hrows r hr, fun hlt => ?_⟩
    cases h
    case inl h => omega
    case inr h =>
      obtain ⟨hwhole, hmax⟩ := h
      have hs : (r + 1) * (cols / 32) ≤ rows * (cols / 32) := Nat.mul_le_mul_right _ hr
      rw [Nat.succ_mul] at hs
      rw [uint_eq (by omega)]
      cases hwhole
      case inl h1 => simp [show r = 0 by omega]
      case inr hd =>
        have hd : divCeil cols 32 = cols / 32 := by
          rw [divCeil]
          omega
        rw [hd, mul_assoc]

end MatvecKernel

namespace ModelLoader.WeightStore

variable {store : WeightStore} {p : Product}

theorem dispatchMatvec_eq (q : Quantization) :
    dispatchMatvec metalFunctions q = .ok (if q = .q4_0 then .matvecQ4_0 else .matvecF32) := by
  cases q <;> rfl

theorem kernel_decodes_iff {k : MatvecKernel} {dtype : GgmlType} {Q : Prop}
    (h : (∀ r < p.rows, ∀ c < p.cols, k.read p.rows p.cols r c = some (k.format.cell p.cols r c)) ↔ Q) :
    (k.format = dtype ∧ ∀ r < p.rows, ∀ c < p.cols, k.read p.rows p.cols r c = some (dtype.cell p.cols r c)) ↔
      dtype = k.format ∧ Q := by
  constructor
  case mp  => exact fun ⟨hd, hr⟩ => ⟨hd.symm, h.mp (hd ▸ hr)⟩
  case mpr => exact fun ⟨hd, hq⟩ => ⟨hd.symm, hd ▸ h.mpr hq⟩

theorem decoded_iff_suits (hc : p.cols < 2 ^ 32) :
    store.Decoded metalFunctions p ↔ ∀ dtype, store.dtype p.name.text = some dtype → store.Suits p dtype := by
  have hk (dtype : GgmlType) : store.Suits p dtype ↔
      let k : MatvecKernel := if store.modelMeta.quantization = .q4_0 then .matvecQ4_0 else .matvecF32
      k.format = dtype ∧ ∀ r < p.rows, ∀ c < p.cols, k.read p.rows p.cols r c = some (dtype.cell p.cols r c) := by
    rw [Suits]
    cases store.modelMeta.quantization
    case q4_0 => exact (kernel_decodes_iff (MatvecKernel.matvecQ4_0_iff hc)).symm
    all_goals exact (kernel_decodes_iff (MatvecKernel.matvecF32_iff hc)).symm
  simp only [Decoded, dispatchMatvec_eq, dtype, hk, Option.map_eq_some_iff, forall_exists_index, and_imp,
    forall_apply_eq_imp_iff₂]

theorem cols_lt (hs : store.modelMeta.Sane) (hp : p ∈ store.dims.products) : p.cols < 2 ^ 32 := by
  have hcols : p.cols = store.modelMeta.nEmbd ∨ p.cols = store.modelMeta.nFf := by
    simp only [dims, ModelMeta.products, ModelMeta.ofLoaded, mem_append, mem_flatMap, mem_cons, not_mem_nil, or_false] at hp
    grind
  cases hcols
  case inl h => exact h ▸ hs.nEmbd_lt
  case inr h => exact h ▸ hs.nFf_lt

-- The kernel for a loaded model decodes each of its tensors if and only if each is of the one format that the kernel is for,
-- in whole blocks, and not too large for the arithmetic of the kernel.
theorem decoded_iff (cap : Capacity) (bytes : List UInt8) (h : (loadGguf cap (.new bytes)).1 = .ok store) :
    (∀ p ∈ store.dims.products, store.Decoded metalFunctions p) ↔
      ∀ p ∈ store.dims.products, ∀ dtype, store.dtype p.name.text = some dtype → store.Suits p dtype := by
  have ⟨l⟩ := loadGguf_ok (Prod.ext h rfl)
  exact forall₂_congr fun p hp => decoded_iff_suits (cols_lt l.sane hp)

-- The file of a model without layers, its head in the given format
def headFile (dtype : GgmlType) (nEmbd : UInt32) : List UInt8 :=
  (writeU32 magic ++ writeU32 3) ++ (writeU64 3 ++ (writeU64 5 ++
    ((writeString "llama.vocab_size" ++ (writeU32 4 ++ writeU32 1)) ++
     (writeString "llama.embedding_length" ++ (writeU32 4 ++ writeU32 nEmbd)) ++
     (writeString "llama.block_count" ++ (writeU32 4 ++ writeU32 0)) ++
     (writeString "llama.attention.head_count" ++ (writeU32 4 ++ writeU32 1)) ++
     (writeString "llama.feed_forward_length" ++ (writeU32 4 ++ writeU32 1)) ++
     (writeDecl ⟨"token_embd.weight", [nEmbd.toUInt64, 1], .f32, 0⟩ ++
      writeDecl ⟨"output_norm.weight", [nEmbd.toUInt64], .f32, 0⟩ ++
      writeDecl ⟨"output.weight", [nEmbd.toUInt64, 1], dtype, 0⟩)))) ++ replicate 160 0

theorem exists_store {bytes : List UInt8} (h : (loadGguf cap (.new bytes)).1.map (fun store =>
      (store.dims, store.modelMeta.quantization, store.dtype "output.weight")) = .ok (d, q, some t)) :
    ∃ store, (loadGguf cap (.new bytes)).1 = .ok store ∧ store.dims = d ∧
      store.modelMeta.quantization = q ∧ store.dtype "output.weight" = some t := by
  cases hr : (loadGguf cap (.new bytes)).1
  case error e => rw [hr] at h; cases h
  case ok store =>
    rw [hr] at h
    exact ⟨store, rfl, by simpa using Except.ok.inj h⟩

-- A head of whole blocks in the format of the kernel
theorem decoded_iff_block : ∃ store, (loadGguf ⟨1024, 8, 8, 8, by decide⟩ (.new (headFile .q4_0 32))).1 = .ok store ∧
    ∀ p ∈ store.dims.products, store.Decoded metalFunctions p := by
  have hl : (loadGguf ⟨1024, 8, 8, 8, by decide⟩ (.new (headFile .q4_0 32))).1.map (fun store =>
      (store.dims, store.modelMeta.quantization, store.dtype "output.weight")) =
        .ok (⟨1, 32, 0, 1, 1, 32, 1⟩, .q4_0, some .q4_0) := by
    decide +kernel
  have ⟨store, hs, hdims, hq, ht⟩ := exists_store hl
  refine ⟨store, hs, (decoded_iff _ _ hs).mpr fun p hp dtype hd => ?_⟩
  rw [hdims] at hp
  simp only [ModelMeta.products, range_zero, flatMap_nil, nil_append, mem_singleton] at hp
  rw [hp] at hd ⊢
  cases ht.symm.trans hd
  rw [Suits, hq]
  decide

-- The head of this model is not quantised, and is decoded as if it were.
theorem exists_not_decoded : ∃ cap bytes store, (loadGguf cap (.new bytes)).1 = .ok store ∧
    ¬∀ p ∈ store.dims.products, store.Decoded metalFunctions p := by
  have hl : (loadGguf ⟨1024, 8, 8, 8, by decide⟩ (.new (headFile .f32 1))).1.map (fun store =>
      (store.dims, store.modelMeta.quantization, store.dtype "output.weight")) =
        .ok (⟨1, 1, 0, 1, 1, 1, 1⟩, .q4_0, some .f32) := by
    decide +kernel
  have ⟨store, hs, hdims, hq, ht⟩ := exists_store hl
  refine ⟨_, _, store, hs, fun h => ?_⟩
  have ⟨info, hi, hinfo⟩ := Option.map_eq_some_iff.mp ht
  have hd := h ⟨.output, 1, 1⟩ (hdims ▸ by decide) info hi
  rw [hq, dispatchMatvec_eq] at hd
  exact absurd (hd.left.trans hinfo) (by decide)

end ModelLoader.WeightStore
