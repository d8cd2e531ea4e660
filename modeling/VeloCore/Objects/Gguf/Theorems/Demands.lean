import VeloCore.Objects.Gguf.Demands
import VeloCore.Objects.Gguf.Theorems.RoundTrip

open List Reader Gguf

namespace Demands

variable {cap : Capacity} {ε α β : Type} {x : Eff Reader ε α} {f : α → Eff Reader ε β}

-- `x` returns just when its demands are met.
def Decides (cap : Capacity) (A : Demands) (x : Eff Reader ε α) : Prop :=
  ∀ s, Eff.Returned x s ↔ ∀ d, A s d → d.Met cap

namespace Decides

theorem bind {B : α → Demands} (hx : Decides cap A x) (hf : ∀ a, Decides cap (B a) (f a)) :
    Decides cap (both A (after x B)) (x >>= f) := by
  intro s
  rw [Eff.returned_bind_iff, hx s]
  constructor
  case mp =>
    intro ⟨ha, hb⟩ d hd
    cases hd
    case inl hd => exact ha d hd
    case inr hd =>
      have ⟨a, s', h, hd⟩ := hd
      exact (hf a s').mp (hb a s' h) d hd
  case mpr =>
    intro h
    exact ⟨fun d hd => h d (.inl hd), fun a s' hx => (hf a s').mpr fun d hd => h d (.inr ⟨a, s', hx, hd⟩)⟩

-- What always returns has no demands.
theorem next {B : α → Demands} (hx : ∀ s, Eff.Returned x s) (hf : ∀ a, Decides cap (B a) (f a)) :
    Decides cap (after x B) (x >>= f) := by
  intro s
  rw [Eff.returned_bind_iff]
  constructor
  case mp =>
    intro ⟨_, hb⟩ d ⟨a, s', h, hd⟩
    exact (hf a s').mp (hb a s' h) d hd
  case mpr =>
    intro h
    exact ⟨hx s, fun a s' hx => (hf a s').mpr fun d hd => h d ⟨a, s', hx, hd⟩⟩

theorem last (hx : Decides cap A x) (hf : ∀ a s, Eff.Returned (f a) s) : Decides cap A (x >>= f) := by
  intro s
  rw [Eff.returned_bind_iff, hx s]
  exact and_iff_left fun a s' _ => hf a s'

theorem reserve {f : Unit → Eff Reader ε β} (hd : d.Met cap ↔ n ≤ most) (hf : Decides cap A (f ())) :
    Decides cap (both (only d) A) (Eff.reserve n most >>= f) := by
  intro s
  rw [Eff.returned_bind_iff, Eff.returned_reserve_iff, ← hd]
  constructor
  case mp =>
    intro ⟨hm, h⟩ d' hd'
    cases hd'
    case inl hd' => exact hd' ▸ hm
    case inr hd' =>
      have hr : (Eff.reserve n most : Eff Reader ε Unit) s = (.ok (), s) := by
        rw [Eff.reserve_of_le (hd.mp hm)]
        rfl
      exact (hf s).mp (h () s hr) d' hd'
  case mpr =>
    intro h
    refine ⟨h d (.inl rfl), fun _ s' hr => ?_⟩
    have hm := hd.mp (h d (.inl rfl))
    rw [Eff.reserve_of_le hm] at hr
    cases hr
    exact (hf s).mpr fun d' hd' => h d' (.inr hd')

theorem allocate {f : Unit → Eff Reader ε β} (hd : d.Met cap ↔ n ≤ most) (hf : ∀ s, Eff.Returned (f ()) s) :
    Decides cap (only d) (Eff.reserve n most >>= f) := by
  intro s
  rw [Eff.returned_bind_iff, Eff.returned_reserve_iff, ← hd, and_iff_left fun _ s' _ => hf s']
  exact ⟨fun h _ he => he ▸ h, fun h => h d rfl⟩

theorem times (hx : Decides cap A x) (n : Nat) : Decides cap (during x n A) (Eff.times x n) := by
  intro s
  rw [Eff.returned_times_iff]
  constructor
  case mp =>
    intro h d ⟨k, hk, l, s', hl, hd⟩
    exact (hx s').mp (h k hk l s' hl) d hd
  case mpr =>
    intro h k hk l s' hl
    exact (hx s').mpr fun d hd => h d ⟨k, hk, l, s', hl, hd⟩

end Decides

section Strings

@[simp]
theorem returned_readU8 : Eff.Returned readU8 s := by
  simp [readU8]

@[simp]
theorem returned_readU16 : Eff.Returned readU16 s := by
  simp [readU16]

@[simp]
theorem returned_readU32 : Eff.Returned readU32 s := by
  simp [readU32]

@[simp]
theorem returned_readU64 : Eff.Returned readU64 s := by
  simp [readU64]

theorem string_decides : Decides cap string (readString cap) :=
  .next (fun _ => returned_readU64) fun _ => .allocate Iff.rfl fun _ => by simp [Eff.returned_bind_iff]

end Strings

section Values

theorem arrayElem_decides (typeId : UInt32) : Decides cap (arrayElem typeId) (readArrayElem cap typeId) := by
  intro s
  by_cases h : typeId = 8
  case pos =>
    have hs : Eff.Returned (readString cap >>= fun v => pure (GgufValue.string v)) s ↔ ∀ d, string s d → d.Met cap :=
      string_decides.last (fun _ _ => Eff.returned_pure _) s
    rw [h]
    exact hs.trans <| forall_congr' fun d => by simp [arrayElem]
  case neg =>
    refine iff_of_true ?_ fun d hd => absurd hd.left h
    unfold readArrayElem
    split
    case h_9 h8 => exact absurd (UInt32.toNat_inj.mp h8) h
    all_goals simp

theorem array_decides : Decides cap (array cap) (readArray cap) :=
  .next (fun _ => returned_readU32) fun elemType => .next (fun _ => returned_readU64) fun count =>
    .reserve Iff.rfl <| ((arrayElem_decides elemType).times count.toNat).last fun _ _ => Eff.returned_pure _

theorem value_decides : Decides cap (value cap) (readValue cap) := by
  rw [readValue_eq]
  refine .next (fun _ => returned_readU32) fun typeId => ?_
  split
  case isTrue  => exact array_decides
  case isFalse => exact arrayElem_decides typeId

theorem entry_decides : Decides cap (entry cap) (readEntry cap) :=
  string_decides.bind fun _ => value_decides.last fun _ _ => Eff.returned_pure _

theorem metadata_decides (count : UInt64) : Decides cap (metadata cap count) (readMetadata cap count) :=
  .reserve Iff.rfl <| entry_decides.times count.toNat

end Values

section Tensors

theorem returned_product_iff {shape : List UInt64} {n : UInt64} :
    Eff.Returned (product n shape : Eff σ ε UInt64) s ↔ ∀ l ∈ shape.inits, n.toNat * elements l < 2 ^ 64 := by
  induction shape generalizing n
  case nil =>
    have hn := n.toNat_lt
    simpa [Gguf.product, elements] using hn
  case cons d shape hi =>
    by_cases hd : n.toNat * d.toNat < 2 ^ 64
    case pos =>
      have hn : (UInt64.ofNat (n.toNat * d.toNat)).toNat = n.toNat * d.toNat := UInt64.toNat_ofNat_of_lt' hd
      have h0 : n.toNat * elements [] < 2 ^ 64 := by
        simpa [elements] using n.toNat_lt
      rw [Gguf.product, Eff.checked_of_lt hd, pure_bind, hi, hn]
      simp only [inits_cons, mem_cons, mem_map, forall_eq_or_imp, forall_exists_index, and_imp,
        forall_apply_eq_imp_iff₂, elements_cons, mul_assoc]
      exact (and_iff_right h0).symm
    case neg =>
      refine iff_of_false (fun h => hd ?_) fun h => hd ?_
      case refine_1 => exact Eff.returned_checked_iff.mp (Eff.returned_bind_iff.mp h).left
      case refine_2 => simpa [elements] using h [d] (by simp)

theorem returned_sized_iff {decl : TensorDecl} : Eff.Returned (sized decl : Eff σ ε TensorInfo) s ↔ Fits decl := by
  have hp : Eff.Returned (product 1 decl.shape : Eff σ ε UInt64) s ↔
      ∀ l ∈ decl.shape.inits, UInt64.toNat 1 * elements l < 2 ^ 64 := returned_product_iff
  simp only [UInt64.toNat_one, one_mul] at hp
  by_cases h : ∀ l ∈ decl.shape.inits, elements l < 2 ^ 64
  case pos =>
    have hn : (UInt64.ofNat (elements decl.shape)).toNat = elements decl.shape :=
      UInt64.toNat_ofNat_of_lt' <| h decl.shape ((mem_inits _ _).mpr prefix_rfl)
    rw [sized, product_one_eq h, pure_bind, GgmlType.nbytes, GgmlType.blockParams]
    dsimp only
    rw [hn, ← size, Eff.returned_bind_iff, Eff.returned_checked_iff, Fits, and_iff_right h]
    exact and_iff_left fun _ _ _ => Eff.returned_pure _
  case neg =>
    exact iff_of_false (fun hr => h (hp.mp (Eff.returned_bind_iff.mp hr).left)) fun hf => h hf.left

@[simp]
theorem returned_readShape {name : String} : Eff.Returned (readShape name) s := by
  refine Eff.returned_bind_iff.mpr ⟨returned_readU32, fun nDims s' _ => ?_⟩
  split
  case isTrue  => exact Eff.returned_throw _
  case isFalse => exact Eff.returned_times_iff.mpr fun _ _ _ _ _ => returned_readU64

theorem info_decides : Decides cap (info cap) (readInfo cap) := by
  have hd : Decides cap string (readDecl cap) :=
    string_decides.last fun _ _ => by simp [Eff.returned_bind_iff]
  have hs (decl : TensorDecl) : Decides cap (only (.size decl)) (sized decl : Eff Reader GgufError TensorInfo) :=
    fun s => returned_sized_iff.trans ⟨fun h _ hd => hd ▸ h, fun h => h _ rfl⟩
  exact hd.bind fun decl => (hs decl).last fun _ _ => Eff.returned_pure _

theorem tensors_decides (count : UInt64) : Decides cap (tensors cap count) (readTensors cap count) :=
  .reserve Iff.rfl <| info_decides.times count.toNat

end Tensors

section Model

theorem tables_decides : Decides cap (tables cap) (readTables cap) := by
  have hv (s : Reader) : Eff.Returned readVersion s := by
    refine Eff.returned_bind_iff.mpr ⟨returned_readU32, fun m s' _ => ?_⟩
    split
    case isTrue  => exact Eff.returned_throw _
    case isFalse =>
      refine Eff.returned_bind_iff.mpr ⟨returned_readU32, fun version s' _ => ?_⟩
      split
      case isTrue  => exact Eff.returned_throw _
      case isFalse => exact Eff.returned_pure _
  exact .next hv fun _ => .next (fun _ => returned_readU64) fun tensorCount => .next (fun _ => returned_readU64) fun kvCount =>
    (metadata_decides kvCount).bind fun _ => (tensors_decides tensorCount).last fun _ _ => Eff.returned_pure _

theorem returned_roundUp_iff {a : UInt64} :
    Eff.Returned (roundUp p a : Eff σ ε UInt64) s ↔ a ≠ 0 ∧ divCeil p a.toNat * a.toNat < 2 ^ 64 := by
  unfold roundUp
  split
  case isTrue h  => exact iff_of_false id fun hm => hm.left h
  case isFalse h => rw [Eff.returned_checked_iff, and_iff_right h]

theorem place_decides (t : Tables) :
    Decides cap (fun s => only (.round s.position (alignment (.collect t.entries))) s)
      (place t : Eff Reader GgufError GgufFile) := by
  refine Decides.last (fun s => ?_) fun _ _ => Eff.returned_pure _
  have hr : Eff.Returned (dataOffset (.collect t.entries) : Eff Reader GgufError UInt64) s ↔
      Eff.Returned (roundUp s.position (alignment (.collect t.entries)) : Eff Reader GgufError UInt64) s := by
    rw [dataOffset, Eff.Returned, Eff.bind_ok Eff.get_apply, Eff.Returned]
  rw [hr, returned_roundUp_iff]
  exact ⟨fun h _ hd => hd ▸ h, fun h => h _ rfl⟩

theorem file_decides : Decides cap (file cap) (GgufFile.read cap) :=
  tables_decides.bind place_decides

open ModelLoader

theorem heads_decides (f : GgufFile) : Decides cap (heads f) (fromGguf f) := by
  intro s
  have hd (n d : Nat) (s : Reader) : Eff.Returned (divide n d : Eff Reader LoadError Nat) s ↔ d ≠ 0 := by
    unfold divide
    split
    case isTrue h  => exact iff_of_false id (not_not.mpr h)
    case isFalse h => exact iff_of_true trivial h
  simp only [fromGguf, ModelLoader.require, Eff.returned_okOr_bind_iff, bind_pure_comp, Eff.returned_map_iff, hd]
  constructor
  case mp =>
    rintro h d ⟨hv, he, hl, hf, nHead, hn, hd⟩
    obtain ⟨v, hv⟩ := Option.isSome_iff_exists.mp hv
    obtain ⟨e, he⟩ := Option.isSome_iff_exists.mp he
    obtain ⟨l, hl⟩ := Option.isSome_iff_exists.mp hl
    obtain ⟨ff, hf⟩ := Option.isSome_iff_exists.mp hf
    have hne := h v hv e he l hl nHead hn ff hf
    exact hd ▸ fun hz => hne (hz ▸ rfl)
  case mpr =>
    intro h v hv e he l hl nHead hn ff hf hz
    have hm := h (.divide nHead) ⟨hv ▸ rfl, he ▸ rfl, hl ▸ rfl, hf ▸ rfl, nHead, hn, rfl⟩
    exact hm (UInt32.toNat_inj.mp hz)

theorem model_decides : Decides cap (model cap) (loadMeta cap) := by
  have hf : Decides cap (file cap) (Eff.zoom id (fun r _ => r) LoadError.gguf (GgufFile.read cap)) :=
    fun s => Eff.returned_zoom_iff.trans (file_decides s)
  have hm := hf.bind heads_decides
  intro s
  rw [loadMeta, hm s]
  refine forall_congr' fun d => imp_congr_left <| or_congr_right ?_
  simp only [after, Eff.zoom_eq_ok_iff, id, exists_eq_right']

-- The loader returns if and only if every number that it comes to is one that it can work with.
theorem loadMeta_returned_iff (cap : Capacity) (bytes : List UInt8) :
    Fault.Returned (loadMeta cap (.new bytes)).1 ↔ ∀ d, model cap (.new bytes) d → d.Met cap :=
  model_decides (.new bytes)

-- An alignment of zero divides by zero.
theorem exists_not_returned : ∃ cap bytes, ¬Fault.Returned (loadMeta cap (.new bytes)).1 := by
  let bytes := (writeU32 magic ++ writeU32 3) ++ (writeU64 0 ++ (writeU64 1 ++
    (writeString "general.alignment" ++ (writeU32 4 ++ writeU32 0))))
  exact ⟨⟨1024, 8, 8, 8, by decide⟩, bytes, by decide +kernel⟩

end Model

end Demands
