import VeloCore.Objects.Gguf.Loader
import VeloCore.Objects.Gguf.Theorems.Demands
import VeloCore.Primitives.Slices

open List

theorem Eff.times_all {x : Eff σ ε α} {P : α → Prop} (h : ∀ s a s', x s = (.ok a, s') → P a) :
    ∀ {n s l s'}, Eff.times x n s = (.ok l, s') → ∀ a ∈ l, P a := by
  intro n
  induction n
  case zero =>
    intro s l s' hl
    cases hl
    exact fun a ha => absurd ha not_mem_nil
  case succ n hi =>
    intro s l s' hl
    have ⟨a, l', s₁, ha, hl', he⟩ := times_succ_eq_ok_iff.mp hl
    subst he
    exact forall_mem_cons.mpr ⟨h s a s₁ ha, hi hl'⟩

theorem Finmap.mem_of_lookup_collect [DecidableEq α] {l : List (α × β)} {k : α} {b : β}
    (h : (Finmap.collect l).lookup k = some b) : (k, b) ∈ l := by
  suffices hl : ∀ m : Finmap fun _ : α => β, (l.foldl (fun m e => m.insert e.1 e.2) m).lookup k = some b →
      (k, b) ∈ l ∨ m.lookup k = some b from (hl ∅ h).resolve_right (by simp)
  clear h
  induction l
  case nil => exact fun m hm => .inr hm
  case cons e l hi =>
    intro m hm
    cases hi (m.insert e.1 e.2) hm
    case inl hl => exact .inl (mem_cons_of_mem e hl)
    case inr hr =>
      rw [lookup_insert_eq_ite] at hr
      split at hr
      case isTrue he  => exact .inl (by simp [he, ← Option.some.inj hr])
      case isFalse he => exact .inr hr

namespace Gguf

variable {cap : Capacity} {file : GgufFile} {σ ε : Type}

theorem sized_ok {decl : TensorDecl} {info : TensorInfo} {s s' : σ}
    (h : (sized decl : Eff σ ε TensorInfo) s = (.ok info, s')) : info.nbytes.toNat = size info.dtype info.shape := by
  have hf : Fits decl := Demands.returned_sized_iff.mp <| show Fault.Returned _ by rw [h]; trivial
  rw [sized_eq hf] at h
  cases h
  exact UInt64.toNat_ofNat_of_lt' hf.right

theorem readInfo_ok {e : String × TensorInfo} {s s' : Reader} (h : readInfo cap s = (.ok e, s')) :
    e.2.nbytes.toNat = size e.2.dtype e.2.shape := by
  have ⟨decl, _, _, h⟩ := Eff.bind_eq_ok_iff.mp h
  have ⟨info, _, hi, h⟩ := Eff.bind_eq_ok_iff.mp h
  cases h
  exact sized_ok hi

-- What a file says of the sizes of its tensors
theorem read_nbytes {s s' : Reader} (h : GgufFile.read cap s = (.ok file, s')) {name : String} {info : TensorInfo}
    (hi : file.tensors.lookup name = some info) : info.nbytes.toNat = size info.dtype info.shape := by
  have ⟨t, _, ht, h⟩ := Eff.bind_eq_ok_iff.mp h
  have ⟨_, _, _, h⟩ := Eff.bind_eq_ok_iff.mp h
  cases h
  have ⟨_, _, _, ht⟩ := Eff.bind_eq_ok_iff.mp ht
  have ⟨_, _, _, ht⟩ := Eff.bind_eq_ok_iff.mp ht
  have ⟨_, _, _, ht⟩ := Eff.bind_eq_ok_iff.mp ht
  have ⟨_, _, _, ht⟩ := Eff.bind_eq_ok_iff.mp ht
  have ⟨infos, _, hinfos, ht⟩ := Eff.bind_eq_ok_iff.mp ht
  cases ht
  have ⟨_, _, _, hinfos⟩ := Eff.bind_eq_ok_iff.mp hinfos
  exact Eff.times_all (fun _ _ _ => readInfo_ok) hinfos _ (Finmap.mem_of_lookup_collect hi)

end Gguf

namespace ModelLoader

variable {cap : Capacity} {file : GgufFile} {store : WeightStore} {s s₁ s₂ : Reader}

-- What a model that was made from a file can be relied on for
structure ModelMeta.Sane (m : ModelMeta) : Prop where
  nEmbd_lt   : m.nEmbd < 2 ^ 32
  nHead_lt   : m.nHead < 2 ^ 32
  nHeadKv_lt : m.nHeadKv < 2 ^ 32
  nFf_lt     : m.nFf < 2 ^ 32
  nHead_pos  : 0 < m.nHead
  headDim_eq : m.headDim = m.nEmbd / m.nHead
  quantized  : m.quantization = .q4_0 ∨ m.quantization = .q4K

theorem inferQuantization_eq (file : GgufFile) :
    inferQuantization file = .q4_0 ∨ inferQuantization file = .q4K := by
  unfold inferQuantization
  dsimp only
  split
  case h_1 => exact .inr rfl
  case h_2 => exact .inl rfl

theorem divide_eq_ok_iff {n d : Nat} :
    (divide n d : Eff σ ε Nat) t = (.ok q, t') ↔ (d ≠ 0 ∧ q = n / d) ∧ t' = t := by
  unfold divide
  split
  case isTrue h  => simp [Eff.panic, h]
  case isFalse h => simp [Eff.pure_apply, h, eq_comm]

theorem fromGguf_ok {m : ModelMeta} (h : (fromGguf file : Eff σ LoadError ModelMeta) t = (.ok m, t')) :
    m.Sane ∧ t' = t := by
  simp only [fromGguf, require, Eff.bind_eq_ok_iff, Eff.okOr_eq_ok_iff, divide_eq_ok_iff, Eff.pure_apply] at h
  obtain ⟨nVocab, _, ⟨_, h₁⟩, nEmbd, _, ⟨_, h₂⟩, nLayer, _, ⟨_, h₃⟩, nHead, _, ⟨_, h₄⟩, nFf, _, ⟨_, h₅⟩,
    headDim, _, ⟨⟨hpos, hdim⟩, h₆⟩, hm⟩ := h
  obtain ⟨hm, ht⟩ := Prod.mk.inj hm
  have hm := Except.ok.inj hm
  subst hm
  refine ⟨⟨nEmbd.toNat_lt, nHead.toNat_lt, UInt32.toNat_lt _, nFf.toNat_lt, Nat.pos_of_ne_zero hpos, hdim,
    inferQuantization_eq file⟩, ?_⟩
  rw [← ht, h₆, h₅, h₄, h₃, h₂, h₁]

-- What a loaded model was made of
structure Loaded (cap : Capacity) (s : Reader) (store : WeightStore) where
  file  : GgufFile
  s₁    : Reader
  s₂    : Reader
  read  : GgufFile.read cap s = (.ok file, s₁)
  sane  : store.modelMeta.Sane
  data  : readAllTensors cap file s₁ = (.ok store.data, s₂)
  index : store.index = file.tensors
  valid : store.validate = .ok ()

theorem loadGguf_ok (h : loadGguf cap s = (.ok store, s')) : Nonempty (Loaded cap s store) := by
  have ⟨file, s₁, hf, h⟩ := Eff.bind_eq_ok_iff.mp h
  have ⟨m, s₂, hm, h⟩ := Eff.bind_eq_ok_iff.mp h
  have ⟨data, s₃, hd, h⟩ := Eff.bind_eq_ok_iff.mp h
  have ⟨_, hf, hs₁⟩ := Eff.zoom_eq_ok_iff.mp hf
  have ⟨hsane, hs₂⟩ := fromGguf_ok hm
  have ⟨s₄, hd, _⟩ := Eff.zoom_eq_ok_iff.mp hd
  have h := (Prod.mk.inj (Eff.call_eq_ok_iff.mp h)).left
  cases hv : WeightStore.validate ⟨m, file.tensors, data⟩
  case error e => rw [hv] at h; cases h
  case ok =>
    rw [hv] at h
    have h := Except.ok.inj h
    subst h hs₂ hs₁
    exact ⟨⟨file, _, _, hf, hsane, hd, rfl, hv⟩⟩

-- Each tensor that was checked has its shape, and is in the data with as many bytes as its elements take.
structure WeightStore.Stored (store : WeightStore) : Prop where
  sane   : store.modelMeta.Sane
  nbytes : ∀ {name info}, store.index.lookup name = some info → info.nbytes.toNat = Gguf.size info.dtype info.shape
  inside : ∀ {name info}, store.index.lookup name = some info → info.offset.toNat + info.nbytes.toNat ≤ store.data.length
  shape  : ∀ {name}, name ∈ store.checked → ∃ info, store.index.lookup name.text = some info ∧
    info.shape.map UInt64.toNat = store.dims.shape name

theorem readAllTensors_ok {data : List UInt8} (h : readAllTensors cap file s = (.ok data, s')) {name : String}
    {info : TensorInfo} (hi : file.tensors.lookup name = some info) :
    info.offset.toNat + info.nbytes.toNat ≤ data.length := by
  unfold readAllTensors at h
  split at h
  case isFalse => cases h
  case isTrue =>
    have ⟨_, _, _, h⟩ := Eff.bind_eq_ok_iff.mp h
    have ⟨_, _, _, h⟩ := Eff.bind_eq_ok_iff.mp h
    unfold Reader.readExact at h
    split at h
    case isFalse => cases h
    case isTrue hl =>
      cases h
      rw [length_take_of_le hl]
      exact Multiset.le_sup (Multiset.mem_map_of_mem _ (Finmap.mem_lookup_iff.mp hi))

theorem Loaded.stored (l : Loaded cap s store) : store.Stored where
  sane       := l.sane
  nbytes hi  := Gguf.read_nbytes l.read (l.index ▸ hi)
  inside hi  := readAllTensors_ok l.data (l.index ▸ hi)
  shape {name} hn := by
    have h := Except.forM_eq_ok_iff.mp l.valid name hn
    unfold WeightStore.check at h
    split at h
    case h_1 => cases h
    case h_2 info hi =>
      split at h
      case isTrue hs => exact ⟨info, hi, hs⟩
      case isFalse   => cases h

theorem loadGguf_stored (h : (loadGguf cap s).1 = .ok store) : store.Stored :=
  have ⟨l⟩ := loadGguf_ok (Prod.ext h rfl)
  l.stored

end ModelLoader
