import VeloCore.Objects.Gguf.Header
import Mathlib.Algebra.Order.Floor.Div

open List Reader

section Rounding

variable {p a : Nat}

theorem divCeil_eq_ceilDiv : divCeil p a = p ⌈/⌉ a :=
  (Nat.ceilDiv_eq_add_pred_div p a).symm

theorem isLeast_divCeil_mul (ha : 0 < a) : IsLeast { n | a ∣ n ∧ p ≤ n } (divCeil p a * a) := by
  rw [divCeil_eq_ceilDiv]
  refine ⟨⟨dvd_mul_left a _, mul_comm a _ ▸ (ceilDiv_le_iff_le_mul ha).mp le_rfl⟩, fun n ⟨⟨k, hk⟩, hp⟩ => ?_⟩
  rw [hk, mul_comm a]
  exact Nat.mul_le_mul_right a <| (ceilDiv_le_iff_le_mul ha).mpr (hk ▸ hp)

theorem divCeil_mul_lt (ha : 0 < a) (hm : a < 2 ^ 64) (hp : p < 2 ^ 63) : divCeil p a * a < 2 ^ 64 := by
  by_cases h : p ≤ a
  case pos =>
    have hle := (isLeast_divCeil_mul ha).right (show a ∈ { n | a ∣ n ∧ p ≤ n } from ⟨dvd_rfl, h⟩)
    omega
  case neg =>
    have hle := Nat.div_mul_le_self (p + a - 1) a
    rw [divCeil]
    omega

end Rounding

theorem Finmap.lookup_collect [DecidableEq α] {l : List (α × β)} (h : (l.map Prod.fst).Nodup) (k : α) :
    (Finmap.collect l).lookup k = (l.find? (·.1 = k)).map Prod.snd := by
  suffices h : ∀ m : Finmap fun _ : α => β, (l.foldl (fun m e => m.insert e.1 e.2) m).lookup k =
      ((l.find? (·.1 = k)).map Prod.snd).or (m.lookup k) by
    simpa [collect] using h ∅
  induction l
  case nil => simp
  case cons e l hi =>
    intro m
    have ⟨hk, hl⟩ := nodup_cons.mp h
    rw [foldl_cons, hi hl, lookup_insert_eq_ite]
    by_cases he : e.1 = k
    case pos =>
      have hn : l.find? (·.1 = k) = none := by
        refine find?_eq_none.mpr fun e' he' hk' => hk ?_
        rw [he, ← of_decide_eq_true hk']
        exact mem_map_of_mem he'
      simp [hn, he]
    case neg =>
      simp [he, Ne.symm he]

namespace Gguf

variable {cap : Capacity}

theorem fromUTF8_utf8 (s : String) : String.fromUTF8? ⟨(utf8 s).toArray⟩ = some s := by
  rw [utf8, Array.toArray_toList]
  exact dif_pos s.isValidUTF8

-- A piece is no longer than all the pieces.
theorem length_le_flatMap {w : α → List UInt8} {a : α} {l : List α} (h : a ∈ l) :
    (w a).length ≤ (l.flatMap w).length := by
  rw [flatMap_def]
  exact (sublist_flatten_of_mem (mem_map_of_mem h)).length_le

theorem reserve_length {n : Nat} {most : UInt64} (h : n ≤ most.toNat) :
    (Eff.reserve (.ofNat n) most : Eff σ ε Unit) = pure () ∧ (UInt64.ofNat n).toNat = n := by
  have hn : (UInt64.ofNat n).toNat = n := UInt64.toNat_ofNat_of_lt' (h.trans_lt most.toNat_lt)
  exact ⟨Eff.reserve_of_le (UInt64.le_iff_toNat_le.mpr (hn.symm ▸ h)), hn⟩

section Fields

theorem decodes_u8 (v : UInt8) : Decodes readU8 (writeU8 v) v := by
  have h : v.toNat < 256 ^ 1 := v.toNat_lt
  exact (Decodes.readLe GgufError.io h).last (by simp)

theorem decodes_u16 (v : UInt16) : Decodes readU16 (writeU16 v) v := by
  have h : v.toNat < 256 ^ 2 := v.toNat_lt
  exact (Decodes.readLe GgufError.io h).last (by simp)

theorem decodes_u32 (v : UInt32) : Decodes readU32 (writeU32 v) v := by
  have h : v.toNat < 256 ^ 4 := v.toNat_lt
  exact (Decodes.readLe GgufError.io h).last (by simp)

theorem decodes_u64 (v : UInt64) : Decodes readU64 (writeU64 v) v := by
  have h : v.toNat < 256 ^ 8 := v.toNat_lt
  exact (Decodes.readLe GgufError.io h).last (by simp)

theorem decodes_string {s : String} (h : (writeString s).length ≤ cap.bytes.toNat) :
    Decodes (readString cap) (writeString s) s := by
  have hs : (utf8 s).length ≤ cap.bytes.toNat := by
    rw [writeString, length_append] at h
    omega
  have ⟨hr, hn⟩ := reserve_length (σ := Reader) (ε := GgufError) hs
  refine (decodes_u64 _).bind <| .next hr ?_
  rw [hn]
  refine (Decodes.readExact GgufError.io (utf8 s)).last ?_
  rw [fromUTF8_utf8]
  rfl

end Fields

section Values

theorem decodes_elem {v : GgufValue} (hv : v.typeId ≠ 9) (h : (writeElem v).length ≤ cap.bytes.toNat) :
    Decodes (readArrayElem cap v.typeId) (writeElem v) v := by
  cases v
  case u8 v     => exact (decodes_u8 v).last rfl
  case i8 v     => exact (decodes_u8 v.toUInt8).last rfl
  case u16 v    => exact (decodes_u16 v).last rfl
  case i16 v    => exact (decodes_u16 v.toUInt16).last rfl
  case u32 v    => exact (decodes_u32 v).last rfl
  case i32 v    => exact (decodes_u32 v.toUInt32).last rfl
  case f32 v    => exact (decodes_u32 v).last rfl
  case bool v   => cases v <;> exact (decodes_u8 _).last rfl
  case string v => exact (decodes_string h).last rfl
  case array v  => exact absurd rfl hv
  case u64 v    => exact (decodes_u64 v).last rfl
  case i64 v    => exact (decodes_u64 v.toUInt64).last rfl
  case f64 v    => exact (decodes_u64 v).last rfl

theorem decodes_array {elemType : UInt32} {l : List GgufValue} (ht : Typed elemType (.array l))
    (hl : l.length ≤ cap.values.toNat) (h : (l.flatMap writeElem).length ≤ cap.bytes.toNat) :
    Decodes (readArray cap) (writeArray elemType l) (.array l) := by
  have ⟨hr, hn⟩ := reserve_length (σ := Reader) (ε := GgufError) hl
  refine (decodes_u32 elemType).bind <| (decodes_u64 _).bind <| .next hr ?_
  rw [hn]
  have hv : ∀ v ∈ l, Decodes (readArrayElem cap elemType) (writeElem v) (id v) := by
    intro v hv
    have he := ht.right v hv
    exact he ▸ decodes_elem (he ▸ ht.left) ((length_le_flatMap hv).trans h)
  exact (Decodes.times hv).last (by rw [map_id])

theorem decodes_entry {e : Entry} (hl : ∀ l, e.value = .array l → l.length ≤ cap.values.toNat)
    (h : (writeEntry e).length ≤ cap.bytes.toNat) :
    Decodes (readEntry cap) (writeEntry e) (e.key, e.value) := by
  have ⟨key, value, elemType, ht⟩ := e
  simp only [writeEntry, writeValue, length_append] at h
  refine (decodes_string (by dsimp only; omega)).bind <| Decodes.last ?_ rfl
  rw [readValue_eq]
  refine (decodes_u32 value.typeId).bind ?_
  by_cases hv : value.typeId = 9
  case pos =>
    rw [if_pos hv]
    cases value <;> cases hv
    case refl l =>
      simp only [writeArray, length_append] at h
      exact decodes_array ht (hl l rfl) (by omega)
  case neg =>
    rw [if_neg hv]
    cases value
    case array => exact absurd rfl hv
    all_goals exact decodes_elem hv (by dsimp only at h; omega)

end Values

section Tensors

theorem elements_cons (d : UInt64) (l : List UInt64) : elements (d :: l) = d.toNat * elements l :=
  prod_cons

theorem product_eq {shape : List UInt64} {n : UInt64}
    (h : ∀ l ∈ shape.inits, n.toNat * elements l < 2 ^ 64) :
    (product n shape : Eff σ ε UInt64) = pure (.ofNat (n.toNat * elements shape)) := by
  induction shape generalizing n
  case nil => simp [product, elements]
  case cons d shape hi =>
    have hd : n.toNat * d.toNat < 2 ^ 64 := by
      simpa [elements] using h [d] (by simp)
    have hn : (UInt64.ofNat (n.toNat * d.toNat)).toNat = n.toNat * d.toNat := UInt64.toNat_ofNat_of_lt' hd
    have hl : ∀ l ∈ shape.inits, (UInt64.ofNat (n.toNat * d.toNat)).toNat * elements l < 2 ^ 64 := by
      intro l hl
      have h := h (d :: l) ((mem_inits _ _).mpr <| cons_prefix_cons.mpr ⟨rfl, (mem_inits _ _).mp hl⟩)
      rwa [elements_cons, ← mul_assoc, ← hn] at h
    rw [product, Eff.checked_of_lt hd, pure_bind, hi hl, hn, elements_cons, ← mul_assoc]

theorem product_one_eq {shape : List UInt64} (h : ∀ l ∈ shape.inits, elements l < 2 ^ 64) :
    (product 1 shape : Eff σ ε UInt64) = pure (.ofNat (elements shape)) := by
  have h₁ : ∀ l ∈ shape.inits, UInt64.toNat 1 * elements l < 2 ^ 64 := by
    simpa using h
  simpa using product_eq (σ := σ) (ε := ε) h₁

theorem sized_eq {decl : TensorDecl} (h : Fits decl) : (sized decl : Eff σ ε TensorInfo) = pure (infoOf decl) := by
  have hn : (UInt64.ofNat (elements decl.shape)).toNat = elements decl.shape :=
    UInt64.toNat_ofNat_of_lt' <| h.left decl.shape ((mem_inits _ _).mpr prefix_rfl)
  rw [sized, product_one_eq h.left, pure_bind, GgmlType.nbytes, GgmlType.blockParams]
  dsimp only
  rw [hn, ← size, Eff.checked_of_lt h.right, pure_bind]
  rfl

theorem decodes_shape {shape : List UInt64} (name : String) (h : shape.length ≤ 4) :
    Decodes (readShape name) (writeU32 (.ofNat shape.length) ++ shape.flatMap writeU64) shape := by
  have hn : (UInt32.ofNat shape.length).toNat = shape.length := 
    UInt32.toNat_ofNat_of_lt' (h.trans_lt (by decide))
  have hle : ¬4 < UInt32.ofNat shape.length := by
    rw [UInt32.lt_iff_toNat_lt, hn]
    exact h.not_gt
  refine (decodes_u32 _).bind ?_
  rw [if_neg hle, hn]
  have h : ∀ d ∈ shape, Decodes readU64 (writeU64 d) (id d) :=
    fun d _ => decodes_u64 d
  have hs := Decodes.times h
  rwa [map_id] at hs

theorem decodes_info {decl : TensorDecl} (hd : decl.shape.length ≤ 4) (hf : Fits decl)
    (h : (writeDecl decl).length ≤ cap.bytes.toNat) :
    Decodes (readInfo cap) (writeDecl decl) (decl.name, infoOf decl) := by
  simp only [writeDecl, length_append] at h
  have hs : Decodes (readDecl cap) (writeDecl decl) decl := by
    rw [writeDecl, ← append_assoc (writeU32 _)]
    refine (decodes_string (by omega)).bind <| (decodes_shape decl.name hd).bind <| (decodes_u32 _).bind ?_
    refine .next (a := decl.dtype) (by rw [GgmlType.fromU32_typeId]; rfl) ?_
    exact (decodes_u64 decl.offset).last rfl
  refine hs.last ?_
  rw [sized_eq hf]
  rfl

end Tensors

namespace Header

variable {h : Header}

theorem entry_length_le (he : e ∈ h.entries) : (writeEntry e).length ≤ h.write.length := by
  have hle := length_le_flatMap (w := writeEntry) he
  simp only [write, length_append]
  omega

theorem decl_length_le (hd : d ∈ h.decls) : (writeDecl d).length ≤ h.write.length := by
  have hle := length_le_flatMap (w := writeDecl) hd
  simp only [write, length_append]
  omega

-- What the reader makes of the tables
def tables (h : Header) : Tables where
  version := h.version
  entries := h.entries.map fun e => (e.key, e.value)
  infos   := h.decls.map fun d => (d.name, infoOf d)

theorem decodes_version (h : Header) : Decodes readVersion (writeU32 magic ++ writeU32 h.version) h.version := by
  refine (decodes_u32 magic).bind ?_
  rw [if_neg (not_not.mpr rfl)]
  refine (decodes_u32 h.version).last ?_
  rw [if_neg]
  exact not_or.mpr ⟨h.version_pos, UInt32.not_lt.mpr h.version_le⟩

theorem decodes_tables (held : h.Held cap) : Decodes (readTables cap) h.write h.tables := by
  have ⟨hr, hn⟩ := reserve_length (σ := Reader) (ε := GgufError) held.metadata
  have ⟨hr', hn'⟩ := reserve_length (σ := Reader) (ε := GgufError) held.tensors
  refine h.decodes_version.bind <| (decodes_u64 _).bind <| (decodes_u64 _).bind <| .bind (a := h.tables.entries) ?_ <|
    Decodes.last (a := h.tables.infos) ?_ rfl
  case refine_1 =>
    refine .next hr ?_
    rw [hn]
    exact Decodes.times fun e he => decodes_entry (held.values e he) ((entry_length_le he).trans held.bytes)
  case refine_2 =>
    refine .next hr' ?_
    rw [hn']
    exact Decodes.times fun d hd =>
      decodes_info (h.dims_le d hd) (h.fits d hd) ((decl_length_le hd).trans held.bytes)

theorem lookup_metadata (key : String) : (Finmap.collect h.tables.entries).lookup key = h.values key := by
  have hk : (h.tables.entries.map Prod.fst).Nodup := by
    simpa [tables, Function.comp_def] using h.keys_nodup
  rw [Finmap.lookup_collect hk, tables, find?_map, values, Option.map_map]
  rfl

theorem lookup_tensors (name : String) :
    (Finmap.collect h.tables.infos).lookup name = (h.decl name).map infoOf := by
  have hk : (h.tables.infos.map Prod.fst).Nodup := by
    simpa [tables, Function.comp_def] using h.names_nodup
  rw [Finmap.lookup_collect hk, tables, find?_map, decl, Option.map_map]
  rfl

theorem alignment_eq : (Gguf.alignment (Finmap.collect h.tables.entries)).toNat = h.alignment := by
  rw [Gguf.alignment, lookup_metadata, alignment]

theorem alignment_pos (h : Header) : 0 < h.alignment := by
  rw [alignment, values]
  cases he : h.entries.find? (·.key = "general.alignment")
  case none => decide
  case some e =>
    have hk : e.key = "general.alignment" := by simpa using find?_some he
    have hne := h.alignment_ne e (mem_of_find?_eq_some he) hk
    cases hv : e.value.asU64
    case none   => simp [hv, defaultAlignment]
    case some v =>
      have hv' : v ≠ 0 := fun h => hne (h ▸ hv)
      simpa [hv, Nat.pos_iff_ne_zero, ← UInt64.toNat_inj] using hv'

end Header

theorem dataOffset_eq {metadata : Finmap fun _ : String => GgufValue} {s : Reader}
    (ha : 0 < (alignment metadata).toNat) (hp : s.position < 2 ^ 63) :
    (dataOffset metadata : Eff Reader ε UInt64) s =
      (.ok (.ofNat (divCeil s.position (alignment metadata).toNat * (alignment metadata).toNat)), s) := by
  have hne : alignment metadata ≠ 0 := fun h => ha.ne' (h ▸ rfl)
  rw [dataOffset, Eff.bind_ok Eff.get_apply, roundUp, if_neg hne,
    Eff.checked_of_lt (divCeil_mul_lt ha (UInt64.toNat_lt _) hp), Eff.pure_apply]

-- A header that was written is read as it was, and the data starts at the next multiple of the alignment.
theorem read_write (h : Header) (cap : Capacity) (held : h.Held cap) (rest : List UInt8) :
    ∃ file, (GgufFile.read cap (.new (h.write ++ rest))).1 = .ok file ∧ file.version = h.version ∧
      (∀ key, file.metadata.lookup key = h.values key) ∧
      (∀ name, file.tensors.lookup name = (h.decl name).map infoOf) ∧
      IsLeast { n | h.alignment ∣ n ∧ h.write.length ≤ n } file.dataOffset.toNat := by
  have hp : (Reader.new (h.write ++ rest) |>.skip h.write.length).position = h.write.length :=
    Nat.zero_add _
  have hlt : h.write.length < 2 ^ 63 := held.bytes.trans_lt cap.bytes_lt
  have ht := h.decodes_tables held (.new (h.write ++ rest)) rest rfl
  have ho := dataOffset_eq (ε := GgufError) (Header.alignment_eq (h := h) ▸ h.alignment_pos) (hp.symm ▸ hlt)
  rw [Header.alignment_eq, hp] at ho
  rw [GgufFile.read, Eff.bind_ok ht, place, Eff.bind_ok ho]
  refine ⟨_, rfl, rfl, Header.lookup_metadata, Header.lookup_tensors, ?_⟩
  rw [UInt64.toNat_ofNat_of_lt' (divCeil_mul_lt h.alignment_pos (UInt64.toNat_lt _) hlt)]
  exact isLeast_divCeil_mul h.alignment_pos

-- An alignment of 64, an array of one string, and a tensor of four numbers
theorem read_write_aligned :
    let h : Header :=
      { version      := 3
        entries      := [⟨"general.alignment", .u64 64, 0, trivial⟩,
                         ⟨"tokenizer.ggml.tokens", .array [.string "a"], 8, by decide, by decide⟩]
        decls        := [⟨"test_tensor", [4], .f32, 0⟩]
        version_pos  := by decide
        version_le   := by decide
        keys_nodup   := by decide
        names_nodup  := by decide
        dims_le      := by decide
        fits         := by decide
        alignment_ne := by decide }
    ∃ file, (GgufFile.read ⟨1024, 8, 8, 8, by decide⟩ (.new (h.write ++ [0, 0]))).1 = .ok file ∧
      file.version = 3 ∧ IsLeast { n | 64 ∣ n ∧ h.write.length ≤ n } file.dataOffset.toNat := by
  intro h
  have held : h.Held ⟨1024, 8, 8, 8, by decide⟩ := by
    refine ⟨by decide +kernel, fun e he l hl => ?_, by decide, by decide⟩
    simp only [h, mem_cons, not_mem_nil, or_false] at he
    cases he
    case inl he => cases he; cases hl
    case inr he => cases he; cases hl; decide
  have ⟨file, hr, hv, _, _, hl⟩ := read_write h ⟨1024, 8, 8, 8, by decide⟩ held [0, 0]
  exact ⟨file, hr, hv, hl⟩
end Gguf
