import VeloCore.Objects.Gguf.Theorems.RoundTrip

open List

namespace Reader

variable {ε α β : Type} {s : Reader} {P : α → List UInt8 → Prop} {Q : β → List UInt8 → Prop}

-- When `x` returns a value, it has read bytes that are in `P` with the value, and nothing else.
def Consumes (x : Eff Reader ε α) (P : α → List UInt8 → Prop) : Prop :=
  ∀ s a s', x s = (.ok a, s') → ∃ l, s.rest = l ++ s'.rest ∧ P a l

namespace Consumes

variable {x : Eff Reader ε α} {f : α → Eff Reader ε β}

theorem pure {a : α} (h : P a []) : Consumes (Pure.pure a : Eff Reader ε α) P := by
  intro s a' s' hx
  cases hx
  exact ⟨[], rfl, h⟩

theorem throw (e : ε) : Consumes (Eff.throw e : Eff Reader ε α) P :=
  fun _ _ _ => nofun

theorem bind (hx : Consumes x P) (hf : ∀ a l, P a l → Consumes (f a) fun b l' => Q b (l ++ l')) : Consumes (x >>= f) Q := by
  intro s b s₂ h
  have ⟨a, s₁, ha, hb⟩ := Eff.bind_eq_ok_iff.mp h
  have ⟨l, hl, hp⟩ := hx s a s₁ ha
  have ⟨l', hl', hq⟩ := hf a l hp s₁ b s₂ hb
  exact ⟨l ++ l', by rw [hl, hl', append_assoc], hq⟩

theorem mono {P' : α → List UInt8 → Prop} (hx : Consumes x P) (h : ∀ a l, P a l → P' a l) : Consumes x P' := by
  intro s a s' ha
  have ⟨l, hl, hp⟩ := hx s a s' ha
  exact ⟨l, hl, h a l hp⟩

theorem readExact (eof : ε) (n : Nat) : Consumes (readExact eof n) fun a l => a = l ∧ l.length = n := by
  intro s a s' h
  unfold Reader.readExact at h
  split at h
  case isFalse => cases h
  case isTrue hn =>
    cases h
    exact ⟨_, by rw [rest_skip, take_append_drop], rfl, length_take_of_le hn⟩

theorem readLe (eof : ε) (k : Nat) : Consumes (readLe eof k) fun n l => n < 256 ^ k ∧ l = leBytes k n := by
  refine (readExact eof k).bind fun a l ⟨ha, hl⟩ => .pure ?_
  rw [ha, append_nil, ← hl]
  exact ⟨ofLeBytes_lt l, (leBytes_ofLeBytes l).symm⟩

theorem okOr (o : Option α) (e : ε) : Consumes (Eff.okOr o e) fun a l => o = some a ∧ l = [] := by
  cases o
  case none   => exact throw e
  case some a => exact pure ⟨rfl, rfl⟩

theorem reserve (n most : UInt64) : Consumes (Eff.reserve n most : Eff Reader ε Unit) fun _ l => n ≤ most ∧ l = [] := by
  unfold Eff.reserve
  split
  case isTrue h  => exact pure ⟨h, rfl⟩
  case isFalse h => exact fun _ _ _ => nofun

-- What is read several times is read in as many parts.
theorem times (hx : Consumes x P) (n : Nat) : Consumes (Eff.times x n) fun _ l =>
    ∃ parts : List (List UInt8), l = parts.flatten ∧ parts.length = n ∧ ∀ part ∈ parts, ∃ a, P a part := by
  induction n
  case zero => exact pure ⟨[], rfl, rfl, by simp⟩
  case succ n hi =>
    refine hx.bind fun a l ha => hi.bind fun as l' ⟨parts, hl', hn, hall⟩ => .pure ⟨l :: parts, ?_, by simp [hn], ?_⟩
    case refine_1 => rw [hl', append_nil, flatten_cons]
    case refine_2 => exact forall_mem_cons.mpr ⟨⟨a, ha⟩, hall⟩

end Consumes

-- A number can be read from any bytes that are as many as it has.
theorem Decodes.readLe_length (eof : ε) {l : List UInt8} (h : l.length = k) :
    Decodes (Reader.readLe eof k) l (ofLeBytes l) := by
  subst h
  exact (Decodes.readExact eof l).last rfl

end Reader

namespace Gguf

open Reader

-- The bytes of a number of each type
def width (t : UInt32) : Option Nat :=
  match t.toNat with
  | 0 | 1 | 7    => some 1
  | 2 | 3        => some 2
  | 4 | 5 | 6    => some 4
  | 10 | 11 | 12 => some 8
  | _            => none

-- The values of the format without their tags: a number of the size of its type, a string after its length, or an array,
-- whose values have one type and come after their number. The memory has room for the strings and arrays.
inductive IsValue (cap : Capacity) : UInt32 → List UInt8 → Prop
  | number {t : UInt32} {l : List UInt8} (h : width t = some l.length) : IsValue cap t l
  | string (s : String) (h : (utf8 s).length ≤ cap.bytes.toNat) : IsValue cap 8 (writeString s)
  | array (elemType : UInt32) (parts : List (List UInt8)) (h : parts.length ≤ cap.values.toNat)
      (hp : ∀ part ∈ parts, IsValue cap elemType part) :
      IsValue cap 9 (writeU32 elemType ++ (writeU64 (.ofNat parts.length) ++ parts.flatten))

-- `read_array_elem` on the bytes does what `read_value` does on them after their tag, and no value of the format is
-- refused.
structure ReadAlike (cap : Capacity) (t : UInt32) (bytes : List UInt8) : Prop where
  same   : ∀ s : Reader, s.rest = writeU32 t ++ bytes → ∀ v s',
    readArrayElem cap t (s.skip 4) = (.ok v, s') ↔ readValue cap s = (.ok v, s')
  parsed : ∀ l, IsValue cap t l → l <+: bytes → ∀ s : Reader, s.rest = writeU32 t ++ bytes →
    ∃ v s', readValue cap s = (.ok v, s')

variable {cap : Capacity} {t : UInt32} {bytes l : List UInt8}

section Values

theorem readValue_apply {s : Reader} (hs : s.rest = writeU32 t ++ bytes) :
    readValue cap s = if t = 9 then readArray cap (s.skip 4) else readArrayElem cap t (s.skip 4) := by
  rw [readValue_eq, Eff.bind_ok (decodes_u32 t s bytes hs)]
  split <;> rfl

theorem readArrayElem_nine {s : Reader} : readArrayElem cap 9 s = (.error (.err (.unknownType 9)), s) :=
  rfl

-- Every value that is no array is read by `read_array_elem`.
theorem IsValue.decodes (h : IsValue cap t l) (ht : t ≠ 9) : ∃ v, Decodes (readArrayElem cap t) l v := by
  cases h
  case array => contradiction
  case string s h =>
    refine ⟨.string s, Decodes.last ?_ rfl⟩
    have ⟨hr, hn⟩ := reserve_length (σ := Reader) (ε := GgufError) h
    refine (decodes_u64 _).bind <| .next hr ?_
    rw [hn]
    refine (Decodes.readExact GgufError.io (utf8 s)).last ?_
    rw [fromUTF8_utf8]
    rfl
  case number h =>
    have hdec {α : Type} {x : Eff Reader GgufError α} {g : α → GgufValue} {a : α} (hx : Decodes x l a) :
        ∃ v, Decodes (do let v ← x; pure (g v)) l v := ⟨_, hx.last rfl⟩
    generalize hl : l.length = n at h
    unfold width at h
    unfold readArrayElem
    split at h
    all_goals cases h
    all_goals
      rename_i ht
      simp only [ht]
      exact hdec ((Decodes.readLe_length GgufError.io hl).last rfl)

theorem consumes_u8 : Consumes readU8 fun _ l => l.length = 1 :=
  (Consumes.readLe _ 1).bind fun _ _ ⟨_, hl⟩ => .pure (by simp [hl])

theorem consumes_u16 : Consumes readU16 fun _ l => l.length = 2 :=
  (Consumes.readLe _ 2).bind fun _ _ ⟨_, hl⟩ => .pure (by simp [hl])

theorem consumes_u32 : Consumes readU32 fun v l => l = writeU32 v := by
  refine (Consumes.readLe _ 4).bind fun n l ⟨hn, hl⟩ => .pure ?_
  rw [append_nil, hl, writeU32, UInt32.toNat_ofNat_of_lt' hn]

theorem consumes_u64 : Consumes readU64 fun v l => l = writeU64 v := by
  refine (Consumes.readLe _ 8).bind fun n l ⟨hn, hl⟩ => .pure ?_
  rw [append_nil, hl, writeU64, UInt64.toNat_ofNat_of_lt' hn]

theorem utf8_of_fromUTF8 {buf : List UInt8} {s : String} (h : String.fromUTF8? ⟨buf.toArray⟩ = some s) : utf8 s = buf := by
  unfold String.fromUTF8? at h
  split at h
  case isFalse => cases h
  case isTrue => cases h; rfl

theorem consumes_string : Consumes (readString cap) fun s l => (utf8 s).length ≤ cap.bytes.toNat ∧ l = writeString s := by
  refine consumes_u64.bind fun len l hl => (Consumes.reserve len _).bind fun _ l₁ ⟨hlen, hl₁⟩ =>
    (Consumes.readExact _ len.toNat).bind fun buf l₂ ⟨hbuf, hl₂⟩ => (Consumes.okOr _ _).mono fun s l₃ ⟨hs, hl₃⟩ => ?_
  have hutf := utf8_of_fromUTF8 hs
  subst hl hl₁ hl₃ hbuf hutf
  refine ⟨hl₂ ▸ UInt64.le_iff_toNat_le.mp hlen, ?_⟩
  rw [writeString, hl₂, UInt64.ofNat_toNat, nil_append, append_nil]

-- What `read_array_elem` reads is a value of the format.
theorem consumes_elem : Consumes (readArrayElem cap t) fun _ l => IsValue cap t l := by
  have hnum {α : Type} {x : Eff Reader GgufError α} {n : Nat} {g : α → GgufValue} (hx : Consumes x fun _ l => l.length = n)
      (hw : width t = some n) : Consumes (do let v ← x; pure (g v)) fun _ l => IsValue cap t l :=
    hx.bind fun _ l hl => .pure (.number (by rw [hw, append_nil, hl]))
  have hlen {α : Type} {x : Eff Reader GgufError α} {w : α → List UInt8} {n : Nat} (hx : Consumes x fun v l => l = w v)
      (hw : ∀ v, (w v).length = n) : Consumes x fun _ l => l.length = n := hx.mono fun v l hl => hl ▸ hw v
  have h₁ := consumes_u8
  have h₂ := consumes_u16
  have h₄ := hlen consumes_u32 fun _ => leBytes_length
  have h₈ := hlen consumes_u64 fun _ => leBytes_length
  unfold readArrayElem
  split
  case h_9 h =>
    rw [show t = 8 from UInt32.toNat_inj.mp h]
    exact consumes_string.bind fun s l ⟨hs, hl⟩ => .pure (by rw [append_nil, hl]; exact .string s hs)
  case h_13 => exact .throw _
  all_goals
    rename_i h
    exact hnum (by assumption) (by simp only [width, h])

theorem consumes_array : Consumes (readArray cap) fun _ l => IsValue cap 9 l := by
  refine consumes_u32.bind fun elemType l hl => consumes_u64.bind fun count l₁ hl₁ => (Consumes.reserve count _).bind
    fun _ l₂ ⟨hcount, hl₂⟩ => (consumes_elem.times count.toNat).bind fun vs l₃ ⟨parts, hl₃, hn, hp⟩ => .pure ?_
  have harr := IsValue.array elemType parts (hn ▸ UInt64.le_iff_toNat_le.mp hcount) fun part h =>
    have ⟨_, hv⟩ := hp part h
    hv
  rw [hn, UInt64.ofNat_toNat] at harr
  rwa [hl, hl₁, hl₂, hl₃, nil_append, append_nil]

end Values

-- An array is refused as an element of another one.
theorem readAlike_iff (cap : Capacity) (t : UInt32) (bytes : List UInt8) :
    ReadAlike cap t bytes ↔ t ≠ 9 ∨ ¬∃ l, l <+: bytes ∧ IsValue cap 9 l := by
  constructor
  case mp =>
    intro h
    refine or_iff_not_imp_left.mpr fun ht ⟨l, hl, hv⟩ => ?_
    rw [not_not] at ht
    subst ht
    have ⟨v, s', hr⟩ := h.parsed l hv hl (.new (writeU32 9 ++ bytes)) rfl
    have he := (h.same (.new (writeU32 9 ++ bytes)) rfl v s').mpr hr
    rw [readArrayElem_nine] at he
    cases he
  case mpr =>
    intro h
    by_cases ht : t = 9
    case neg =>
      refine ⟨fun s hs v s' => by rw [readValue_apply hs, if_neg ht], fun l hv ⟨rest, hl⟩ s hs => ?_⟩
      have ⟨v, hd⟩ := hv.decodes ht
      have hrest : (s.skip 4).rest = l ++ rest := by
        rw [rest_skip, hs, hl]
        exact drop_left' leBytes_length
      exact ⟨v, _, by rw [readValue_apply hs, if_neg ht]; exact hd _ rest hrest⟩
    case pos =>
      subst ht
      have hno := h.resolve_left (absurd rfl)
      refine ⟨fun s hs v s' => iff_of_false ?_ fun hr => ?_, fun l hv hl => absurd ⟨l, hl, hv⟩ hno⟩
      case refine_1 => rw [readArrayElem_nine]; exact nofun
      case refine_2 =>
        rw [readValue_apply hs, if_pos rfl] at hr
        have ⟨l, hl, hv⟩ := consumes_array _ _ _ hr
        have hrest : (s.skip 4).rest = bytes := by
          rw [rest_skip, hs]
          exact drop_left' leBytes_length
        exact hno ⟨l, ⟨s'.rest, by rw [← hl, hrest]⟩, hv⟩

-- An array that holds one empty array of bytes
theorem exists_not_readAlike : ¬∀ (t : UInt32) bytes, ReadAlike ⟨8, 8, 8, 8, by decide⟩ t bytes := by
  intro h
  have hinner : IsValue ⟨8, 8, 8, 8, by decide⟩ 9 (writeU32 0 ++ (writeU64 (.ofNat 0) ++ [])) :=
    .array 0 [] (by simp) (by simp)
  have houter := IsValue.array 9 [writeU32 0 ++ (writeU64 0 ++ [])] (by decide) (forall_mem_singleton.mpr hinner)
  have ⟨v, s', hr⟩ := (h 9 _).parsed _ houter (prefix_refl _) (.new _) rfl
  have hno : (readValue ⟨8, 8, 8, 8, by decide⟩ (.new (writeU32 9 ++ (writeU32 9 ++ (writeU64 1 ++
      [writeU32 0 ++ (writeU64 0 ++ [])].flatten))))).1.toBool = false := by decide +kernel
  exact Bool.false_ne_true (hno.symm.trans (congrArg (·.1.toBool) hr))

end Gguf
