import VeloCore.Objects.Gguf.Theorems.Loader

open List

-- A part of what has been read from `start` on
theorem List.take_drop_take_drop {l : List α} (h : i + n ≤ m) :
    (((l.drop k).take m).drop i).take n = (l.drop (k + i)).take n := by
  rw [drop_take, drop_drop, take_take, Nat.min_eq_left (by omega)]

namespace ModelLoader

variable {cap : Capacity} {file : GgufFile} {bytes data : List UInt8} {name : String} {info : TensorInfo} {p : Nat}

theorem seek_apply {r : Reader} : (seek p : Eff Reader ε Unit) r = (.ok (), ⟨r.bytes, p⟩) :=
  rfl

-- What a read from a fixed place returns, wherever the stream was before
theorem seek_bind_readExact (p : Nat) (r : Reader) (n most : UInt64) (eof : ε) :
    ((do seek p; Eff.reserve n most; Reader.readExact eof n.toNat : Eff Reader ε (List UInt8)) r).1 =
      if n ≤ most then
        if n.toNat ≤ (r.bytes.drop p).length then .ok ((r.bytes.drop p).take n.toNat) else .error (.err eof)
      else
        .error .panic := by
  rw [Eff.bind_ok seek_apply]
  by_cases h : n ≤ most
  case neg => rw [if_neg h, Eff.reserve, if_neg h]; rfl
  case pos =>
    rw [if_pos h, Eff.reserve_of_le h, pure_bind, Reader.readExact]
    split
    case isTrue hn  => exact (if_pos hn).symm
    case isFalse hn => exact (if_neg hn).symm

theorem readAllTensors_position (p q : Nat) :
    (readAllTensors cap file ⟨bytes, p⟩).1 = (readAllTensors cap file ⟨bytes, q⟩).1 := by
  unfold readAllTensors
  split <;> rfl

-- What `read_all_tensors` has read when it succeeds
structure ReadAll (cap : Capacity) (file : GgufFile) (bytes data : List UInt8) : Prop where
  ends_lt   : ∀ n ∈ ends file, n < 2 ^ 64
  reserved  : (ends file).sup ≤ cap.bytes.toNat
  inside    : (ends file).sup ≤ (bytes.drop file.dataOffset.toNat).length
  data_eq   : data = (bytes.drop file.dataOffset.toNat).take (ends file).sup

theorem ends_sup_lt (h : ∀ n ∈ ends file, n < 2 ^ 64) : (ends file).sup < 2 ^ 64 := by
  have hle : (ends file).sup ≤ 2 ^ 64 - 1 := Multiset.sup_le.mpr fun n hn => Nat.le_pred_of_lt (h n hn)
  omega

theorem readAll_of_readAllTensors (h : (readAllTensors cap file ⟨bytes, p⟩).1 = .ok data) : ReadAll cap file bytes data := by
  unfold readAllTensors at h
  split at h
  case isFalse => cases h
  case isTrue hlt =>
    have hn : (UInt64.ofNat (ends file).sup).toNat = (ends file).sup := UInt64.toNat_ofNat_of_lt' (ends_sup_lt hlt)
    have hread := seek_bind_readExact file.dataOffset.toNat ⟨bytes, p⟩ (.ofNat (ends file).sup) cap.bytes GgufError.io
    rw [hn] at hread
    rw [hread] at h
    split at h
    case isFalse => cases h
    case isTrue hres =>
      split at h
      case isFalse => cases h
      case isTrue hin => exact ⟨hlt, hn ▸ UInt64.le_iff_toNat_le.mp hres, hin, (Except.ok.inj h).symm⟩

theorem end_le_sup (hi : file.tensors.lookup name = some info) :
    info.offset.toNat + info.nbytes.toNat ≤ (ends file).sup :=
  Multiset.le_sup (Multiset.mem_map_of_mem _ (Finmap.mem_lookup_iff.mp hi))

namespace ReadAll

theorem start_lt (h : ReadAll cap file bytes data) (hl : bytes.length < 2 ^ 64) (hi : file.tensors.lookup name = some info) :
    file.dataOffset.toNat + info.offset.toNat < 2 ^ 64 := by
  have hend := end_le_sup hi
  have hin := h.inside
  have hoff := file.dataOffset.toNat_lt
  rw [length_drop] at hin
  omega

-- Each tensor is read at its place in the data section.
theorem readTensor (h : ReadAll cap file bytes data) (hl : bytes.length < 2 ^ 64)
    (hi : file.tensors.lookup name = some info) :
    (readTensor cap file name ⟨bytes, p⟩).1 = .ok ((data.drop info.offset.toNat).take info.nbytes.toNat) := by
  have hend := end_le_sup hi
  have hin := h.inside
  have hres : info.nbytes ≤ cap.bytes := UInt64.le_iff_toNat_le.mpr (by have := h.reserved; omega)
  have hstart : (UInt64.ofNat (file.dataOffset.toNat + info.offset.toNat)).toNat =
      file.dataOffset.toNat + info.offset.toNat := UInt64.toNat_ofNat_of_lt' (h.start_lt hl hi)
  unfold ModelLoader.readTensor
  rw [hi, Eff.okOr, pure_bind, Eff.checked_of_lt (h.start_lt hl hi), pure_bind, hstart, seek_bind_readExact, if_pos hres,
    if_pos (by rw [length_drop] at hin ⊢; dsimp only; omega), h.data_eq, take_drop_take_drop hend]

theorem get (h : ReadAll cap file bytes data) (m : ModelMeta) (hi : file.tensors.lookup name = some info) :
    WeightStore.get ⟨m, file.tensors, data⟩ name = some ((data.drop info.offset.toNat).take info.nbytes.toNat) := by
  have hlen : info.offset.toNat + info.nbytes.toNat ≤ data.length := by
    rw [h.data_eq, length_take_of_le h.inside]
    exact end_le_sup hi
  simp only [WeightStore.get, hi, Option.bind_eq_bind, Option.bind_some, if_pos hlen, drop_take, Nat.add_sub_cancel_left]

end ReadAll

-- The positions in a stream are numbers of 64 bits. Where all the tensors can be read at once, each of them can be read
-- alone, and both readers and the store agree on its bytes, wherever the stream was before.
theorem readTensor_agrees (cap : Capacity) (file : GgufFile) (bytes data : List UInt8) (p : Nat)
    (hl : bytes.length < 2 ^ 64) (h : (readAllTensors cap file ⟨bytes, p⟩).1 = .ok data)
    (m : ModelMeta) (name : String) (q : Nat) : (readAllTensors cap file ⟨bytes, q⟩).1 = .ok data ∧
      match file.tensors.lookup name with
      | some info => ∃ tensor, tensor = (data.drop info.offset.toNat).take info.nbytes.toNat ∧
          tensor.length = info.nbytes.toNat ∧ (readTensor cap file name ⟨bytes, q⟩).1 = .ok tensor ∧
          WeightStore.get ⟨m, file.tensors, data⟩ name = some tensor
      | none => (readTensor cap file name ⟨bytes, q⟩).1 = .error (.err (.malformed s!"tensor not found: {name}")) ∧
          WeightStore.get ⟨m, file.tensors, data⟩ name = none := by
  refine ⟨(readAllTensors_position q p).trans h, ?_⟩
  have hw := readAll_of_readAllTensors h
  cases hi : file.tensors.lookup name
  case none => exact ⟨by rw [readTensor, hi]; rfl, by simp [WeightStore.get, hi]⟩
  case some info =>
    refine ⟨_, rfl, ?_, hw.readTensor hl hi, hw.get m hi⟩
    have hend := end_le_sup hi
    rw [length_take_of_le]
    rw [length_drop, hw.data_eq, length_take_of_le hw.inside]
    omega

-- Two overlapping tensors, out of order
def overlapping : GgufFile where
  version    := 3
  metadata   := ∅
  tensors    := Finmap.collect [("b", ⟨⟨"b", [2], .i8, 1⟩, 2⟩), ("a", ⟨⟨"a", [2], .i8, 0⟩, 2⟩)]
  dataOffset := 1

theorem readTensor_agrees_overlapping :
    (readTensor ⟨8, 8, 8, 8, by decide⟩ overlapping "b" ⟨[9, 10, 11, 12], 4⟩).1 = .ok [11, 12] := by
  have h := (readTensor_agrees ⟨8, 8, 8, 8, by decide⟩ overlapping [9, 10, 11, 12] [10, 11, 12] 0 (by decide)
    (by decide +kernel) ⟨"llama", 0, 0, 0, 0, 0, 0, 0, 0, 0, 0, .q4_0⟩ "b" 4).right
  have hi : overlapping.tensors.lookup "b" = some ⟨⟨"b", [2], .i8, 1⟩, 2⟩ := by decide +kernel
  rw [hi] at h
  have ⟨tensor, ht, _, hr, _⟩ := h
  exact hr.trans (congrArg Except.ok ht)

end ModelLoader
