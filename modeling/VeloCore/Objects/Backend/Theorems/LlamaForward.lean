import VeloCore.Objects.Backend.LlamaForward
import VeloCore.Objects.Gguf.Header
import VeloCore.Objects.Gguf.Theorems.Loader

open List Eff Gguf

namespace F32

variable {φ ψ : Type}

@[simp]
theorem zipMut_length {f : φ → ψ → φ} {x : List φ} {y : List ψ} : (zipMut f x y).length = x.length := by
  fun_induction zipMut f x y <;> simp_all

variable [F32 φ]

@[simp]
theorem rmsNorm_length {x w : List φ} {eps : φ} : (rmsNorm x w eps).length = x.length :=
  zipMut_length

@[simp]
theorem softmax_length {x : List φ} : (softmax x).length = x.length := by
  simp [softmax]

end F32

section Dequantisation

variable {φ σ ε : Type} [F32 φ] {I : σ → Prop} {block data : List UInt8} {out x : List φ} {n base : Nat}

theorem dequantQ4_0Block_guarded (hb : block.length = 18) (ho : base + 32 ≤ out.length) :
    Guarded I True (fun b => b.length = out.length) (dequantQ4_0Block block base out : Eff σ ε (List φ)) := by
  refine .next (Guarded.index.of (by omega)) fun lo _ => .next (Guarded.index.of (by omega)) fun hi _ =>
    .next (Guarded.slice.of (by omega)) fun nibbles hn => ?_
  refine Guarded.forEach_true (fun i hi b hb => ?_) rfl
  have hi := mem_range.mp hi
  exact .next (Guarded.index.of (by omega)) fun byte _ => .next (Guarded.put.of (by omega)) fun b' hb' =>
    (Guarded.put.of (by omega)).mono fun _ h => by omega

theorem dequantQ4_0Row_guarded (hd : out.length / 32 * 18 ≤ data.length) :
    Guarded I True (fun b => b.length = out.length) (dequantQ4_0Row data out : Eff σ ε (List φ)) := by
  refine Guarded.forEach_true (fun i hi b hb => ?_) rfl
  have hi := mem_range.mp hi
  exact .next (Guarded.slice.of (by omega)) fun block hblock =>
    (dequantQ4_0Block_guarded (by omega) (by omega)).mono fun _ h => h.trans hb

theorem dequantQ4kBlock_guarded (hb : block.length = 144) (ho : base + 256 ≤ out.length) :
    Guarded I True (fun b => b.length = out.length) (dequantQ4kBlock block base out : Eff σ ε (List φ)) := by
  refine .next (Guarded.index.of (by omega)) fun d₀ _ => .next (Guarded.index.of (by omega)) fun d₁ _ =>
    .next (Guarded.index.of (by omega)) fun m₀ _ => .next (Guarded.index.of (by omega)) fun m₁ _ =>
    .next (Guarded.slice.of (by omega)) fun scalesBytes _ => .next (Guarded.slice.of (by omega)) fun qs hq => ?_
  refine Guarded.forEach_true (fun part hp b hb => ?_) rfl
  obtain ⟨⟨sc, mnSc⟩, part⟩ := part
  have hpart : part < 8 := by
    have hlt := (List.getElem?_eq_some_iff.mp (mem_zipIdx_iff_getElem?.mp hp)).1
    simpa [unpackQ4kScales] using hlt
  refine Guarded.forEach_true (fun i hi c hc => ?_) hb
  have hi := mem_range.mp hi
  exact .next (Guarded.index.of (by omega)) fun byte _ => .next (Guarded.put.of (by omega)) fun c' hc' =>
    (Guarded.put.of (by omega)).mono fun _ h => by omega

theorem dequantQ4kRow_guarded (hd : out.length / 256 * 144 ≤ data.length) :
    Guarded I True (fun b => b.length = out.length) (dequantQ4kRow data out : Eff σ ε (List φ)) := by
  refine Guarded.forEach_true (fun i hi b hb => ?_) rfl
  have hi := mem_range.mp hi
  exact .next (Guarded.slice.of (by omega)) fun block hblock =>
    (dequantQ4kBlock_guarded (by omega) (by omega)).mono fun _ h => h.trans hb

-- A row of the right size is decoded without leaving it.
theorem dequantRow_guarded {dtype : GgmlType} (hd : data.length = dtype.rowBytes out.length) :
    Guarded I True (fun b => b.length = out.length) (dequantRow dtype data out : Eff σ ε (List φ)) := by
  unfold dequantRow
  split
  case h_1 => exact .pure F32.zipMut_length
  case h_2 => exact .pure F32.zipMut_length
  case h_3 => exact .pure F32.zipMut_length
  case h_4 =>
    refine dequantQ4_0Row_guarded ?_
    simp only [GgmlType.rowBytes, divCeil, GgmlType.blockElems, GgmlType.blockBytes] at hd
    omega
  case h_5 =>
    refine dequantQ4_0Row_guarded ?_
    simp only [GgmlType.rowBytes, divCeil, GgmlType.blockElems, GgmlType.blockBytes] at hd
    omega
  case h_6 =>
    refine dequantQ4kRow_guarded ?_
    simp only [GgmlType.rowBytes, divCeil, GgmlType.blockElems, GgmlType.blockBytes] at hd
    omega
  case h_7 => exact .pure (length_map _)

theorem matvecQuant_guarded {dtype : GgmlType} {rows cols : Nat} (ho : out.length = rows) :
    Guarded I (rows * dtype.rowBytes cols ≤ data.length) (fun b => b.length = rows)
      (matvecQuant out data dtype x rows cols : Eff σ ε (List φ)) := by
  have hrows : (∀ r ∈ range rows, (r + 1) * dtype.rowBytes cols ≤ data.length) ↔
      rows * dtype.rowBytes cols ≤ data.length := by
    constructor
    case mp =>
      intro h
      cases rows
      case zero   => simp
      case succ n => exact h n (by simp)
    case mpr =>
      intro h r hr
      exact (Nat.mul_le_mul_right _ (mem_range.mp hr)).trans h
  refine .last (.congr (Guarded.forEach (Q := fun b : List φ × List φ => b.1.length = rows ∧ b.2.length = cols)
    (p := fun r => (r + 1) * dtype.rowBytes cols ≤ data.length) (fun r hr b hb => ?_) ⟨ho, length_replicate⟩) hrows)
    fun _ b hb => .pure hb.left
  obtain ⟨out, row⟩ := b
  have ⟨hout, hrow⟩ := hb
  dsimp only at hout hrow
  have hr := mem_range.mp hr
  have hstep : (r + 1) * dtype.rowBytes cols = r * dtype.rowBytes cols + dtype.rowBytes cols := Nat.succ_mul ..
  refine .last (Guarded.slice.congr (and_iff_right (by omega))) fun _ src hsrc => ?_
  refine .next (dequantRow_guarded (by rw [hrow]; omega)) fun row' hrow' => .next (Guarded.index.of (by omega)) fun o _ =>
    .next (Guarded.put.of (by omega)) fun out' hout' => .pure ⟨by rw [hout', hout], by rw [hrow', hrow]⟩

theorem applyRope_guarded {pos nHeads headDim : Nat} {freqBase : φ} (hx : x.length = nHeads * headDim) :
    Guarded I True (fun b => b.length = nHeads * headDim)
      (applyRope x pos nHeads headDim (headDim / 2) freqBase : Eff σ ε (List φ)) := by
  refine Guarded.forEach_true (fun h hh b hb => Guarded.forEach_true (fun i hi c hc => ?_) hb) hx
  have hi := mem_range.mp hi
  have hle : (h + 1) * headDim ≤ nHeads * headDim := Nat.mul_le_mul_right _ (mem_range.mp hh)
  rw [Nat.succ_mul] at hle
  exact .next (Guarded.index.of (by omega)) fun x₀ _ => .next (Guarded.index.of (by omega)) fun x₁ _ =>
    .next (Guarded.put.of (by omega)) fun c' hc' => (Guarded.put.of (by omega)).mono fun _ h => by omega

end Dequantisation

namespace ModelLoader

variable {φ : Type} {m : ModelMeta}

namespace KvCache

variable {layer pos : Nat} {k v : List φ}

-- Where the keys of a head are is inside the keys of a layer.
theorem row_le_iff {h t nCtx nHead nHeadKv headDim : Nat} (hh : h < nHead) (ht : t < nCtx) :
    t * (nHeadKv * headDim) + h * nHeadKv / nHead * headDim + headDim ≤ nCtx * nHeadKv * headDim ↔
      headDim = 0 ∨ 0 < nHeadKv := by
  have ht : (t + 1) * (nHeadKv * headDim) ≤ nCtx * nHeadKv * headDim := by
    rw [mul_assoc]
    exact Nat.mul_le_mul_right _ ht
  rw [Nat.succ_mul] at ht
  cases Nat.eq_zero_or_pos nHeadKv
  case inl h0 => simp [h0]
  case inr hpos =>
    have hkv : h * nHeadKv / nHead < nHeadKv := by
      rw [Nat.div_lt_iff_lt_mul (by omega), mul_comm nHeadKv]
      exact Nat.mul_lt_mul_of_pos_right hh hpos
    have hrow : (h * nHeadKv / nHead + 1) * headDim ≤ nHeadKv * headDim := Nat.mul_le_mul_right _ hkv
    rw [Nat.succ_mul] at hrow
    exact iff_of_true (by omega) (.inr hpos)

theorem storeKv_guarded (hl : layer < m.nLayer) (hp : pos < m.nCtx) (hk : k.length = m.nHeadKv * m.headDim)
    (hv : v.length = m.nHeadKv * m.headDim) :
    Guarded (Shaped m) True (fun _ => True) (storeKv layer pos k v : Eff (KvCache φ) ε Unit) := by
  have hle : (pos + 1) * (m.nHeadKv * m.headDim) ≤ m.nCtx * m.nHeadKv * m.headDim := by
    rw [mul_assoc]
    exact Nat.mul_le_mul_right _ hp
  rw [Nat.succ_mul] at hle
  refine .next (Guarded.get fun _ h => h) fun kv h => ?_
  have hkl := h.k_length
  have hvl := h.v_length
  dsimp only
  rw [h.nHeadKv_eq, h.headDim_eq]
  refine .next (Guarded.index.of (by omega)) fun kRows hkr => ?_
  have hkr := h.k_rows kRows (mem_of_getElem? hkr)
  refine .next (Guarded.copyInto.of (by omega)) fun kRows' hkr' => ?_
  refine .next (Q := fun _ => True) (.modify trivial fun kv' h' => ?_) fun _ _ => ?_
  case refine_1 =>
    refine { h' with k_length := by simpa using h'.k_length, k_rows := fun rows hr => ?_ }
    cases mem_or_eq_of_mem_set hr
    case inl hr => exact h'.k_rows rows hr
    case inr hr => rw [hr, hkr', hkr]
  refine .next (Guarded.index.of (by omega)) fun vRows hvr => ?_
  have hvr := h.v_rows vRows (mem_of_getElem? hvr)
  refine .next (Guarded.copyInto.of (by omega)) fun vRows' hvr' => .modify trivial fun kv' h' => ?_
  refine { h' with v_length := by simpa using h'.v_length, v_rows := fun rows hr => ?_ }
  cases mem_or_eq_of_mem_set hr
  case inl hr => exact h'.v_rows rows hr
  case inr hr => rw [hr, hvr', hvr]

theorem new_shaped [F32 φ] (m : ModelMeta) : (new m.nLayer m.nHeadKv m.headDim m.nCtx : KvCache φ).Shaped m where
  nHeadKv_eq    := rfl
  headDim_eq    := rfl
  k_length      := length_replicate
  v_length      := length_replicate
  k_rows _ hr   := (eq_of_mem_replicate hr).symm ▸ length_replicate
  v_rows _ hr   := (eq_of_mem_replicate hr).symm ▸ length_replicate

end KvCache

namespace WeightStore

open KvCache

variable [F32 φ] {store : WeightStore} {I : KvCache φ → Prop} {name : TensorName} {info : TensorInfo} {layer pos : Nat}

theorem Stored.get (hs : store.Stored) (hi : store.index.lookup name.text = some info) :
    ∃ data, store.get name.text = some data ∧ data.length = Gguf.size info.dtype info.shape := by
  have hle := hs.inside hi
  refine ⟨(store.data.take (info.offset.toNat + info.nbytes.toNat)).drop info.offset.toNat, ?_, ?_⟩
  case refine_1 => simp [WeightStore.get, hi, hle]
  case refine_2 => rw [length_drop, length_take_of_le hle, ← hs.nbytes hi, Nat.add_sub_cancel_left]

omit [F32 φ] in
theorem weightsRef_guarded (hs : store.Stored) (hi : store.index.lookup name.text = some info) :
    Guarded I True (fun p => p.1.length = Gguf.size info.dtype info.shape ∧ p.2 = info.dtype)
      (store.weightsRef name : Eff (KvCache φ) LoadError (List UInt8 × GgmlType)) := by
  have ⟨data, hd, hl⟩ := hs.get hi
  unfold weightsRef WeightStore.require
  rw [hd, WeightStore.dtype, hi]
  exact .pure ⟨hl, rfl⟩

theorem whole_iff {p : Product} (hi : store.index.lookup p.name.text = some info) :
    store.Whole p ↔ p.rows * info.dtype.rowBytes p.cols ≤ Gguf.size info.dtype info.shape := by
  simp [Whole, hi]

theorem product_guarded (hs : store.Stored) (hn : name ∈ store.checked) {x : List φ} {rows cols : Nat} :
    Guarded I (store.Whole ⟨name, rows, cols⟩) (fun b => b.length = rows) (store.product name x rows cols) := by
  have ⟨info, hi, _⟩ := hs.shape hn
  rw [whole_iff hi]
  refine .next (weightsRef_guarded hs hi) fun p hp => ?_
  obtain ⟨data, dtype⟩ := p
  obtain ⟨hl, rfl⟩ := hp
  exact hl ▸ matvecQuant_guarded length_replicate

-- A vector is decoded as a row.
theorem loadVec_guarded (hs : store.Stored) (hn : name ∈ store.checked) {n : Nat} (hd : store.dims.shape name = [n]) :
    Guarded I True (fun b => b.length = n) (store.loadVec name n : Eff (KvCache φ) LoadError (List φ)) := by
  have ⟨info, hi, hshape⟩ := hs.shape hn
  refine .next (weightsRef_guarded hs hi) fun p hp => ?_
  obtain ⟨data, dtype⟩ := p
  obtain ⟨hl, rfl⟩ := hp
  refine (dequantRow_guarded ?_).mono fun b hb => hb.trans length_replicate
  rw [length_replicate]
  simpa [Gguf.size, Gguf.elements, hshape, hd, GgmlType.rowBytes] using hl

theorem attendHead_guarded {h : Nat} {q xAttn : List φ} (hh : h < store.modelMeta.nHead)
    (hl : layer < store.modelMeta.nLayer) (hp : pos < store.modelMeta.nCtx)
    (hq : q.length = store.modelMeta.nHead * store.modelMeta.headDim)
    (hx : xAttn.length = store.modelMeta.nHead * store.modelMeta.headDim) :
    Guarded (Shaped store.modelMeta) store.modelMeta.Grouped
      (fun b => b.length = store.modelMeta.nHead * store.modelMeta.headDim) (store.attendHead layer pos h q xAttn) := by
  have hrow : (h + 1) * store.modelMeta.headDim ≤ store.modelMeta.nHead * store.modelMeta.headDim :=
    Nat.mul_le_mul_right _ hh
  have hstep : (h + 1) * store.modelMeta.headDim = h * store.modelMeta.headDim + store.modelMeta.headDim := Nat.succ_mul ..
  refine .next (Guarded.slice.of (by omega)) fun qH _ => .next (Guarded.get fun _ h => h) fun kv hkv => ?_
  have hkl := hkv.k_length
  have hvl := hkv.v_length
  have hle {t : Nat} (ht : t ∈ range (pos + 1)) {rows : List φ}
      (hr : rows.length = store.modelMeta.nCtx * store.modelMeta.nHeadKv * store.modelMeta.headDim) {n : Nat}
      (hn : n = t * (store.modelMeta.nHeadKv * store.modelMeta.headDim) +
        h * store.modelMeta.nHeadKv / store.modelMeta.nHead * store.modelMeta.headDim) :
      (n ≤ n + store.modelMeta.headDim ∧ n + store.modelMeta.headDim ≤ rows.length) ↔ store.modelMeta.Grouped := by
    have ht := mem_range.mp ht
    rw [hr, hn, and_iff_right (Nat.le_add_right ..), row_le_iff hh (by omega)]
    rfl
  have hall : (∀ t ∈ range (pos + 1), store.modelMeta.Grouped) ↔ store.modelMeta.Grouped :=
    ⟨fun hg => hg 0 (mem_range.mpr (Nat.succ_pos pos)), fun hg _ _ => hg⟩
  refine .last (.congr (Guarded.forEach (Q := fun b : List φ => b.length = pos + 1) (fun t ht scores hsc => ?_)
    length_replicate) hall) fun hg scores hsc => ?_
  case refine_1 =>
    have hlt := mem_range.mp ht
    refine .next (Guarded.index.of (by omega)) fun rows hrows => ?_
    exact .last (Guarded.slice.congr (hle ht (hkv.k_rows rows (mem_of_getElem? hrows)) rfl)) fun _ kT _ =>
      (Guarded.put.of (by omega)).mono fun b hb => hb.trans hsc
  case refine_2 =>
    refine .next (Guarded.slice.of (by omega)) fun outH hout => .next (Guarded.forEach_true
      (Q := fun b : List φ => b.length = store.modelMeta.headDim) (fun t ht outH hout => ?_) (by omega)) fun outH hout => ?_
    case refine_1 =>
      have hlt := mem_range.mp ht
      refine .next (Guarded.index.of (by omega)) fun rows hrows => ?_
      refine .next (Guarded.slice.of ((hle ht (hkv.v_rows rows (mem_of_getElem? hrows)) rfl).mpr hg)) fun vT _ => ?_
      exact .next (Guarded.index.of (by rw [F32.softmax_length]; omega)) fun s _ => .pure (F32.zipMut_length.trans hout)
    case refine_2 =>
      exact (Guarded.copyInto.of (by omega)).mono fun b hb => hb.trans hx

omit [F32 φ] in
theorem mem_checked (hl : layer < store.modelMeta.nLayer) (t : LayerTensor) : .layer layer t ∈ store.checked := by
  refine mem_append_left _ <| mem_cons_of_mem _ <| mem_flatMap.mpr ⟨layer, mem_range.mpr hl, mem_map_of_mem ?_⟩
  cases t <;> decide

theorem attentionBlock_guarded (hs : store.Stored) (hl : layer < store.modelMeta.nLayer) (hp : pos < store.modelMeta.nCtx)
    {x : List φ} : Guarded (Shaped store.modelMeta)
      (store.Whole ⟨.layer layer .wq, store.modelMeta.nHead * store.modelMeta.headDim, store.modelMeta.nEmbd⟩ ∧
        store.Whole ⟨.layer layer .wk, store.modelMeta.nHeadKv * store.modelMeta.headDim, store.modelMeta.nEmbd⟩ ∧
        store.Whole ⟨.layer layer .wv, store.modelMeta.nHeadKv * store.modelMeta.headDim, store.modelMeta.nEmbd⟩ ∧
        store.modelMeta.Grouped ∧
        store.Whole ⟨.layer layer .wo, store.modelMeta.nEmbd, store.modelMeta.nHead * store.modelMeta.headDim⟩)
      (fun _ => True) (store.attentionBlock layer pos x) := by
  have hmem := mem_checked hl
  have hall : (∀ h ∈ range store.modelMeta.nHead, store.modelMeta.Grouped) ↔ store.modelMeta.Grouped :=
    ⟨fun hg => hg 0 (mem_range.mpr hs.sane.nHead_pos), fun hg _ _ => hg⟩
  refine .next (loadVec_guarded hs (hmem .attentionNorm) rfl) fun normW _ => ?_
  refine .bind (product_guarded hs (hmem .wq)) fun _ q hq => .bind (product_guarded hs (hmem .wk)) fun _ k hk =>
    .bind (product_guarded hs (hmem .wv)) fun _ v hv => ?_
  refine .next (applyRope_guarded hq) fun q hq => .next (applyRope_guarded hk) fun k hk =>
    .next (storeKv_guarded hl hp hk hv) fun _ _ => ?_
  refine .bind (.congr (Guarded.forEach (fun h hh xAttn hx => attendHead_guarded (mem_range.mp hh) hl hp hq hx)
    length_replicate) hall) fun _ xAttn _ => ?_
  exact .last (product_guarded hs (hmem .wo)) fun _ xOut _ => .pure trivial

theorem ffnBlock_guarded (hs : store.Stored) (hl : layer < store.modelMeta.nLayer) {x : List φ} : Guarded I
    (store.Whole ⟨.layer layer .w1, store.modelMeta.nFf, store.modelMeta.nEmbd⟩ ∧
      store.Whole ⟨.layer layer .w3, store.modelMeta.nFf, store.modelMeta.nEmbd⟩ ∧
      store.Whole ⟨.layer layer .w2, store.modelMeta.nEmbd, store.modelMeta.nFf⟩)
    (fun _ => True) (store.ffnBlock layer x) := by
  have hmem := mem_checked hl
  refine .next (loadVec_guarded hs (hmem .ffnNorm) rfl) fun ffnNormW _ => ?_
  refine .bind (product_guarded hs (hmem .w1)) fun _ gate _ => .bind (product_guarded hs (hmem .w3)) fun _ up _ => ?_
  exact .last (product_guarded hs (hmem .w2)) fun _ ffnOut _ => .pure trivial

theorem outputHead_guarded (hs : store.Stored) {x : List φ} :
    Guarded I (store.Whole ⟨.output, store.modelMeta.nVocab, store.modelMeta.nEmbd⟩)
      (fun b => b.length = store.modelMeta.nVocab) (store.outputHead x) := by
  have hnorm : .outputNorm ∈ store.checked := by simp [checked]
  have hout : .output ∈ store.checked := by simp [checked]
  have ⟨info, hi, _⟩ := hs.shape hout
  refine .next (loadVec_guarded hs hnorm rfl) fun outNormW _ => ?_
  dsimp only
  rw [hi, Option.isSome_some, if_pos rfl]
  exact product_guarded hs hout

-- The row of a token is in the tensor.
def Embedded (store : WeightStore) (token : TokenId) : Prop :=
  store.Whole ⟨.tokenEmbd, token.toNat + 1, store.modelMeta.nEmbd⟩

theorem embedding_guarded (hs : store.Stored) {token : TokenId} :
    Guarded I (store.Embedded token) (fun _ => True) (store.embedding token : Eff (KvCache φ) LoadError (List φ)) := by
  have hn : .tokenEmbd ∈ store.checked := by simp [checked]
  have ⟨info, hi, _⟩ := hs.shape hn
  rw [Embedded, whole_iff hi]
  refine .next (weightsRef_guarded hs hi) fun p hp => ?_
  obtain ⟨data, dtype⟩ := p
  obtain ⟨hl, rfl⟩ := hp
  dsimp only at hl ⊢
  refine .last (Guarded.slice.congr ?_) fun _ row hrow => (dequantRow_guarded ?_).mono fun _ _ => trivial
  case refine_1 => rw [and_iff_right (Nat.le_add_right ..), hl, Nat.succ_mul]
  case refine_2 => rw [length_replicate]; omega

-- What the layers of the model and its head need
def Passable (store : WeightStore) : Prop :=
  (∀ l < store.modelMeta.nLayer, store.modelMeta.Grouped ∧ ∀ p ∈ store.modelMeta.layerUsed l, store.Whole p) ∧
    store.Whole ⟨.output, store.modelMeta.nVocab, store.modelMeta.nEmbd⟩

theorem forwardOne_guarded (hs : store.Stored) {token : TokenId} (hp : pos < store.modelMeta.nCtx) :
    Guarded (Shaped store.modelMeta) (store.Embedded token ∧ store.Passable) (fun b => b.length = store.modelMeta.nVocab)
      (store.forwardOne token pos : Eff (KvCache φ) LoadError (List φ)) := by
  refine .bind (embedding_guarded hs) fun _ x _ => .bind (.congr (Guarded.forEach (Q := fun _ => True)
    (fun l hl x _ => .bind (attentionBlock_guarded hs (mem_range.mp hl) hp) fun _ x _ =>
      ffnBlock_guarded hs (mem_range.mp hl)) trivial) ?_) fun _ x _ => outputHead_guarded hs
  simp only [ModelMeta.layerUsed, mem_range, forall_mem_cons, not_mem_nil, false_implies, implies_true, and_true]
  exact forall₂_congr fun l hl => by tauto

omit [F32 φ] in
theorem embedded_iff : (∀ token : TokenId, token.toNat < store.modelMeta.nVocab → store.Embedded token) ↔
    store.Whole ⟨.tokenEmbd, min store.modelMeta.nVocab (2 ^ 32), store.modelMeta.nEmbd⟩ := by
  constructor
  case mp =>
    intro h info hi
    cases Nat.eq_zero_or_pos store.modelMeta.nVocab
    case inl h0 => simp [h0]
    case inr hpos =>
      have hlt : min store.modelMeta.nVocab (2 ^ 32) - 1 < 2 ^ 32 := by omega
      have hn : (UInt32.ofNat (min store.modelMeta.nVocab (2 ^ 32) - 1)).toNat = min store.modelMeta.nVocab (2 ^ 32) - 1 :=
        UInt32.toNat_ofNat_of_lt' hlt
      have h := h (.ofNat (min store.modelMeta.nVocab (2 ^ 32) - 1)) (by rw [hn]; omega) info hi
      rwa [hn, Nat.sub_add_cancel (by omega)] at h
  case mpr =>
    intro h token ht info hi
    exact (Nat.mul_le_mul_right _ (Nat.le_min.mpr ⟨ht, token.toNat_lt⟩)).trans (h info hi)

omit [F32 φ] in
theorem passable_iff :
    (store.Whole ⟨.tokenEmbd, min store.modelMeta.nVocab (2 ^ 32), store.modelMeta.nEmbd⟩ ∧ store.Passable) ↔
      (store.modelMeta.nLayer = 0 ∨ store.modelMeta.Grouped) ∧ ∀ p ∈ store.modelMeta.used, store.Whole p := by
  simp only [Passable, ModelMeta.used, cons_append, forall_mem_cons, forall_mem_append, mem_flatMap, mem_range,
    not_mem_nil, false_implies, implies_true, and_true]
  constructor
  case mp =>
    rintro ⟨he, hl, ho⟩
    refine ⟨?_, he, ?_, ho⟩
    case refine_1 => exact or_iff_not_imp_left.mpr fun hn => (hl 0 (Nat.pos_of_ne_zero hn)).left
    case refine_2 =>
      rintro p ⟨l, hlt, hp⟩
      exact (hl l hlt).right p hp
  case mpr =>
    rintro ⟨hg, he, hl, ho⟩
    exact ⟨he, fun l hlt => ⟨hg.resolve_left (by omega), fun p hp => hl p ⟨l, hlt, hp⟩⟩, ho⟩

-- For each token of the vocabulary and each position of the context, a pass returns a number for each token of the
-- vocabulary, and the cache stays of its size.
def Forwards (store : WeightStore) (φ : Type) [F32 φ] : Prop :=
  ∀ token : TokenId, token.toNat < store.modelMeta.nVocab → ∀ pos < store.modelMeta.nCtx, ∀ kv : KvCache φ,
    kv.Shaped store.modelMeta → ∃ logits kv', store.forwardOne token pos kv = (.ok logits, kv') ∧
      logits.length = store.modelMeta.nVocab ∧ kv'.Shaped store.modelMeta

theorem Stored.forwards_iff_passable (hs : store.Stored) : store.Forwards φ ↔
    ∀ token : TokenId, token.toNat < store.modelMeta.nVocab → ∀ pos < store.modelMeta.nCtx,
      store.Embedded token ∧ store.Passable :=
  forall₂_congr fun _ _ => forall₂_congr fun _ hp => (forwardOne_guarded hs hp).returns_iff (new_shaped store.modelMeta)

-- A pass of a loaded model takes nothing from outside of a tensor, a cache or a vector if and only if the rows of its
-- matrices are no longer in bytes than their tensors, and there is a head of keys for the heads to look at.
theorem forwards_iff (φ : Type) [F32 φ] (cap : Capacity) (bytes : List UInt8)
    (h : (loadGguf cap (.new bytes)).1 = .ok store) : store.Forwards φ ↔
      store.modelMeta.nVocab = 0 ∨ store.modelMeta.nCtx = 0 ∨
        (store.modelMeta.nLayer = 0 ∨ store.modelMeta.Grouped) ∧ ∀ p ∈ store.modelMeta.used, store.Whole p := by
  rw [(loadGguf_stored h).forwards_iff_passable, ← passable_iff, ← embedded_iff]
  constructor
  case mp =>
    intro h
    refine or_iff_not_imp_left.mpr fun hv => or_iff_not_imp_left.mpr fun hc => ?_
    have hc := Nat.pos_of_ne_zero hc
    exact ⟨fun token ht => (h token ht 0 hc).left, (h 0 (Nat.pos_of_ne_zero hv) 0 hc).right⟩
  case mpr =>
    intro h token ht pos hp
    rcases h with h | h | h
    case inl => omega
    case inr.inl => omega
    case inr.inr => exact ⟨h.left token ht, h.right⟩

-- The file of a model with one layer and two tokens, all of its tensors in the given format
def layerFile (dtype : GgmlType) : List UInt8 :=
  (writeU32 magic ++ writeU32 3) ++ (writeU64 12 ++ (writeU64 5 ++
    ((writeString "llama.vocab_size" ++ (writeU32 4 ++ writeU32 2)) ++
     (writeString "llama.embedding_length" ++ (writeU32 4 ++ writeU32 1)) ++
     (writeString "llama.block_count" ++ (writeU32 4 ++ writeU32 1)) ++
     (writeString "llama.attention.head_count" ++ (writeU32 4 ++ writeU32 1)) ++
     (writeString "llama.feed_forward_length" ++ (writeU32 4 ++ writeU32 1)) ++
     (writeDecl ⟨"token_embd.weight", [1, 2], dtype, 0⟩ ++ writeDecl ⟨"output_norm.weight", [1], dtype, 0⟩ ++
      writeDecl ⟨"output.weight", [1, 2], dtype, 0⟩) ++
     [LayerTensor.attentionNorm, .ffnNorm].flatMap (fun t => writeDecl ⟨(TensorName.layer 0 t).text, [1], dtype, 0⟩) ++
     [LayerTensor.wq, .wk, .wv, .wo, .w1, .w2, .w3].flatMap fun t =>
       writeDecl ⟨(TensorName.layer 0 t).text, [1, 1], dtype, 0⟩))) ++ replicate 64 0

-- With floats, all tensors of the file are whole.
theorem exists_loadGguf_f32 : ∃ store, (loadGguf ⟨2048, 8, 8, 16, by decide⟩ (.new (layerFile .f32))).1 = .ok store ∧
    store.modelMeta.Grouped ∧ (∀ p ∈ store.modelMeta.used, store.Whole p) ∧ store.modelMeta.nVocab = 2 ∧
      2 ≤ store.modelMeta.nCtx := by
  have hl : (loadGguf ⟨2048, 8, 8, 16, by decide⟩ (.new (layerFile .f32))).1.map (fun store =>
      decide (store.modelMeta.Grouped ∧ (∀ p ∈ store.modelMeta.used, store.Whole p) ∧ store.modelMeta.nVocab = 2 ∧
        2 ≤ store.modelMeta.nCtx)) = .ok true := by
    decide +kernel
  cases hr : (loadGguf ⟨2048, 8, 8, 16, by decide⟩ (.new (layerFile .f32))).1
  case error e => rw [hr] at hl; cases hl
  case ok store =>
    rw [hr] at hl
    exact ⟨store, rfl, of_decide_eq_true (Except.ok.inj hl)⟩

theorem forwards_iff_f32 : ∃ store, (loadGguf ⟨2048, 8, 8, 16, by decide⟩ (.new (layerFile .f32))).1 = .ok store ∧
    store.Forwards Float32 := by
  have ⟨store, hr, hg, hw, _⟩ := exists_loadGguf_f32
  exact ⟨store, hr, (forwards_iff Float32 _ _ hr).mpr (.inr (.inr ⟨.inr hg, hw⟩))⟩

-- The embedding of the second token of this model would start where its tensor ends.
theorem exists_not_forwards : ∃ cap bytes store, (loadGguf cap (.new bytes)).1 = .ok store ∧ ¬store.Forwards Float32 := by
  have hl : (loadGguf ⟨2048, 8, 8, 16, by decide⟩ (.new (layerFile .q4_0))).1.map (fun store =>
      decide (1 < store.modelMeta.nVocab ∧ 0 < store.modelMeta.nCtx ∧
        ¬store.Whole ⟨.tokenEmbd, 2, store.modelMeta.nEmbd⟩)) = .ok true := by
    decide +kernel
  cases hr : (loadGguf ⟨2048, 8, 8, 16, by decide⟩ (.new (layerFile .q4_0))).1
  case error e => rw [hr] at hl; cases hl
  case ok store =>
    rw [hr] at hl
    have ⟨hv, hc, hw⟩ := of_decide_eq_true (Except.ok.inj hl)
    exact ⟨_, _, store, hr, fun h => hw ((loadGguf_stored hr).forwards_iff_passable.mp h 1 hv 0 hc).left⟩

end WeightStore
end ModelLoader
