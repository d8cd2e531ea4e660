import VeloCore.Objects.Gguf.File

open List

-- The bytes of a header, in the layout that the reader expects.

def GgmlType.typeId : GgmlType → UInt32
  | f32  => 0
  | f16  => 1
  | q4_0 => 2
  | q4_1 => 3
  | q5_0 => 6
  | q5_1 => 7
  | q8_0 => 8
  | q8_1 => 9
  | q2K  => 10
  | q3K  => 11
  | q4K  => 12
  | q5K  => 13
  | q6K  => 14
  | q8K  => 15
  | i8   => 24
  | i16  => 25
  | i32  => 26
  | i64  => 27
  | f64  => 28
  | bf16 => 30

@[simp]
theorem GgmlType.fromU32_typeId (t : GgmlType) : fromU32 t.typeId = some t := by
  cases t <;> rfl

def GgufValue.typeId : GgufValue → UInt32
  | u8 _     => 0
  | i8 _     => 1
  | u16 _    => 2
  | i16 _    => 3
  | u32 _    => 4
  | i32 _    => 5
  | f32 _    => 6
  | bool _   => 7
  | string _ => 8
  | array _  => 9
  | u64 _    => 10
  | i64 _    => 11
  | f64 _    => 12

namespace Gguf

def writeU8 (v : UInt8) : List UInt8 :=
  leBytes 1 v.toNat

def writeU16 (v : UInt16) : List UInt8 :=
  leBytes 2 v.toNat

def writeU32 (v : UInt32) : List UInt8 :=
  leBytes 4 v.toNat

def writeU64 (v : UInt64) : List UInt8 :=
  leBytes 8 v.toNat

def utf8 (s : String) : List UInt8 :=
  s.toUTF8.data.toList

def writeString (s : String) : List UInt8 :=
  writeU64 (.ofNat (utf8 s).length) ++ utf8 s

def writeElem : GgufValue → List UInt8
  | .u8 v     => writeU8 v
  | .i8 v     => writeU8 v.toUInt8
  | .u16 v    => writeU16 v
  | .i16 v    => writeU16 v.toUInt16
  | .u32 v    => writeU32 v
  | .i32 v    => writeU32 v.toUInt32
  | .f32 bits => writeU32 bits
  | .bool v   => writeU8 (if v then 1 else 0)
  | .string v => writeString v
  | .u64 v    => writeU64 v
  | .i64 v    => writeU64 v.toUInt64
  | .f64 bits => writeU64 bits
  | .array _  => []

def writeArray (elemType : UInt32) (l : List GgufValue) : List UInt8 :=
  writeU32 elemType ++ (writeU64 (.ofNat l.length) ++ l.flatMap writeElem)

-- The elements of an array have the type that it announces, and are no arrays.
def Typed (elemType : UInt32) : GgufValue → Prop
  | .array l => elemType ≠ 9 ∧ ∀ v ∈ l, v.typeId = elemType
  | _        => True

-- What an array announces as the type of its elements matters even when there are none.
structure Entry where
  key : String
  value : GgufValue
  elemType : UInt32
  typed : Typed elemType value

def writeValue (e : Entry) : List UInt8 :=
  writeU32 e.value.typeId ++
    match e.value with
    | .array l => writeArray e.elemType l
    | v        => writeElem v

def writeEntry (e : Entry) : List UInt8 :=
  writeString e.key ++ writeValue e

-- The number of elements, and the number of bytes that they take
def elements (shape : List UInt64) : Nat :=
  (shape.map UInt64.toNat).prod

def size (dtype : GgmlType) (shape : List UInt64) : Nat :=
  divCeil (elements shape) dtype.blockElems * dtype.blockBytes

-- The products of the leading dimensions and the size are numbers of 64 bits.
def Fits (decl : TensorDecl) : Prop :=
  (∀ shape ∈ decl.shape.inits, elements shape < 2 ^ 64) ∧ size decl.dtype decl.shape < 2 ^ 64

instance : DecidablePred Fits := fun decl =>
  inferInstanceAs (Decidable ((∀ shape ∈ decl.shape.inits, elements shape < 2 ^ 64) ∧ _))

-- What the table of tensors says of a tensor, and its size
def infoOf (decl : TensorDecl) : TensorInfo :=
  { decl with nbytes := .ofNat (size decl.dtype decl.shape) }

def writeDecl (decl : TensorDecl) : List UInt8 :=
  writeString decl.name ++ (writeU32 (.ofNat decl.shape.length) ++ (decl.shape.flatMap writeU64 ++
    (writeU32 decl.dtype.typeId ++ writeU64 decl.offset)))

-- The tables of a header, and what is asked of them
structure Header where
  version : UInt32
  entries : List Entry
  decls : List TensorDecl
  version_pos : version ≠ 0
  version_le : version ≤ 3
  keys_nodup : (entries.map Entry.key).Nodup
  names_nodup : (decls.map TensorDecl.name).Nodup
  dims_le : ∀ decl ∈ decls, decl.shape.length ≤ 4
  fits : ∀ decl ∈ decls, Fits decl
  alignment_ne : ∀ e ∈ entries, e.key = "general.alignment" → e.value.asU64 ≠ some 0

namespace Header

variable (h : Header)

def write : List UInt8 :=
  (writeU32 magic ++ writeU32 h.version) ++ (writeU64 (.ofNat h.decls.length) ++
    (writeU64 (.ofNat h.entries.length) ++ (h.entries.flatMap writeEntry ++ h.decls.flatMap writeDecl)))

def values (key : String) : Option GgufValue :=
  (h.entries.find? (·.key = key)).map Entry.value

def decl (name : String) : Option TensorDecl :=
  h.decls.find? (·.name = name)

def alignment : Nat :=
  (((h.values "general.alignment").bind GgufValue.asU64).getD defaultAlignment).toNat

-- The header is in a buffer, and its tables and arrays are in tables and arrays themselves.
structure Held (cap : Capacity) : Prop where
  bytes : h.write.length ≤ cap.bytes.toNat
  values : ∀ e ∈ h.entries, ∀ l, e.value = .array l → l.length ≤ cap.values.toNat
  metadata : h.entries.length ≤ cap.metadata.toNat
  tensors : h.decls.length ≤ cap.tensors.toNat

end Header
end Gguf
