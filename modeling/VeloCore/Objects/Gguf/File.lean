import VeloCore.Primitives.Reader
import VeloCore.Primitives.Finmap

open List

inductive GgmlType
  | f32
  | f16
  | q4_0
  | q4_1
  | q5_0
  | q5_1
  | q8_0
  | q8_1
  | q2K
  | q3K
  | q4K
  | q5K
  | q6K
  | q8K
  | i8
  | i16
  | i32
  | i64
  | f64
  | bf16
deriving DecidableEq, Repr

-- Of `u64`, rounded up
def divCeil (n d : Nat) : Nat :=
  (n + d - 1) / d

namespace GgmlType

def fromU32 (v : UInt32) : Option GgmlType :=
  match v.toNat with
  | 0  => some f32
  | 1  => some f16
  | 2  => some q4_0
  | 3  => some q4_1
  | 6  => some q5_0
  | 7  => some q5_1
  | 8  => some q8_0
  | 9  => some q8_1
  | 10 => some q2K
  | 11 => some q3K
  | 12 => some q4K
  | 13 => some q5K
  | 14 => some q6K
  | 15 => some q8K
  | 24 => some i8
  | 25 => some i16
  | 26 => some i32
  | 27 => some i64
  | 28 => some f64
  | 30 => some bf16
  | _  => none

def blockBytes : GgmlType → Nat
  | f32 | i32        => 4
  | f16 | i16 | bf16 => 2
  | q4_0             => 18
  | q4_1             => 20
  | q5_0             => 22
  | q5_1             => 24
  | q8_0             => 34
  | q8_1             => 36
  | q2K              => 84
  | q3K              => 110
  | q4K              => 144
  | q5K              => 176
  | q6K              => 210
  | q8K              => 292
  | i8               => 1
  | i64 | f64        => 8

def blockElems : GgmlType → Nat
  | f32 | i32 | f16 | i16 | bf16 | i8 | i64 | f64 => 1
  | q4_0 | q4_1 | q5_0 | q5_1 | q8_0 | q8_1       => 32
  | q2K | q3K | q4K | q5K | q6K | q8K             => 256

def blockParams (t : GgmlType) : Nat × Nat :=
  (t.blockBytes, t.blockElems)

def nbytes (t : GgmlType) (nElements : UInt64) : Eff σ ε UInt64 :=
  let (blockBytes, blockElems) := t.blockParams
  Eff.checked (divCeil nElements.toNat blockElems * blockBytes)

end GgmlType

-- A number of a floating point type is given by its bits.
inductive GgufValue
  | u8 (v : UInt8)
  | i8 (v : Int8)
  | u16 (v : UInt16)
  | i16 (v : Int16)
  | u32 (v : UInt32)
  | i32 (v : Int32)
  | f32 (bits : UInt32)
  | bool (v : Bool)
  | string (v : String)
  | array (v : List GgufValue)
  | u64 (v : UInt64)
  | i64 (v : Int64)
  | f64 (bits : UInt64)
deriving Repr

namespace GgufValue

def asU32 : GgufValue → Option UInt32
  | u32 v => some v
  | _     => none

def asU64 : GgufValue → Option UInt64
  | u64 v => some v
  | u32 v => some v.toUInt64
  | _     => none

def asF32 : GgufValue → Option UInt32
  | f32 v => some v
  | _     => none

def asStr : GgufValue → Option String
  | string v => some v
  | _        => none

def asArray : GgufValue → Option (List GgufValue)
  | array v => some v
  | _       => none

end GgufValue

-- What the table of tensors says of a tensor, its shape with the columns first
structure TensorDecl where
  name : String
  shape : List UInt64
  dtype : GgmlType
  offset : UInt64
deriving DecidableEq, Repr

structure TensorInfo extends TensorDecl where
  nbytes : UInt64
deriving DecidableEq, Repr

structure GgufFile where
  version : UInt32
  metadata : Finmap fun _ : String => GgufValue
  tensors : Finmap fun _ : String => TensorInfo
  dataOffset : UInt64

inductive GgufError
  | io
  | badMagic (magic : UInt32)
  | unsupportedVersion (version : UInt32)
  | unknownType (typeId : UInt32)
  | malformed (message : String)
deriving DecidableEq, Repr

-- How long a buffer or a table can be that is allocated for the length that a file announces
structure Capacity where
  bytes : UInt64
  values : UInt64
  metadata : UInt64
  tensors : UInt64
  bytes_lt : bytes.toNat < 2 ^ 63

-- Of several entries of one key the last one stays.
def Finmap.collect [DecidableEq α] (l : List (α × β)) : Finmap fun _ : α => β :=
  l.foldl (fun m e => m.insert e.1 e.2) ∅

namespace Gguf

def magic : UInt32 :=
  0x46474755

def defaultAlignment : UInt64 :=
  32

variable (cap : Capacity)

def readU8 : Eff Reader GgufError UInt8 := do
  let n ← Reader.readLe .io 1
  pure (.ofNat n)

def readU16 : Eff Reader GgufError UInt16 := do
  let n ← Reader.readLe .io 2
  pure (.ofNat n)

def readU32 : Eff Reader GgufError UInt32 := do
  let n ← Reader.readLe .io 4
  pure (.ofNat n)

def readU64 : Eff Reader GgufError UInt64 := do
  let n ← Reader.readLe .io 8
  pure (.ofNat n)

def readString : Eff Reader GgufError String := do
  let len ← readU64
  Eff.reserve len cap.bytes
  let buf ← Reader.readExact .io len.toNat
  Eff.okOr (String.fromUTF8? ⟨buf.toArray⟩) (.malformed "invalid UTF-8 string")

def readArrayElem (typeId : UInt32) : Eff Reader GgufError GgufValue :=
  match typeId.toNat with
  | 0  => do let v ← readU8; pure (.u8 v)
  | 1  => do let v ← readU8; pure (.i8 v.toInt8)
  | 2  => do let v ← readU16; pure (.u16 v)
  | 3  => do let v ← readU16; pure (.i16 v.toInt16)
  | 4  => do let v ← readU32; pure (.u32 v)
  | 5  => do let v ← readU32; pure (.i32 v.toInt32)
  | 6  => do let v ← readU32; pure (.f32 v)
  | 7  => do let v ← readU8; pure (.bool (v ≠ 0))
  | 8  => do let v ← readString cap; pure (.string v)
  | 10 => do let v ← readU64; pure (.u64 v)
  | 11 => do let v ← readU64; pure (.i64 v.toInt64)
  | 12 => do let v ← readU64; pure (.f64 v)
  | _  => Eff.throw (.unknownType typeId)

def readArray : Eff Reader GgufError GgufValue := do
  let elemType ← readU32
  let count ← readU64
  Eff.reserve count cap.values
  let l ← Eff.times (readArrayElem cap elemType) count.toNat
  pure (.array l)

def readValue : Eff Reader GgufError GgufValue := do
  let typeId ← readU32
  match typeId.toNat with
  | 0  => do let v ← readU8; pure (.u8 v)
  | 1  => do let v ← readU8; pure (.i8 v.toInt8)
  | 2  => do let v ← readU16; pure (.u16 v)
  | 3  => do let v ← readU16; pure (.i16 v.toInt16)
  | 4  => do let v ← readU32; pure (.u32 v)
  | 5  => do let v ← readU32; pure (.i32 v.toInt32)
  | 6  => do let v ← readU32; pure (.f32 v)
  | 7  => do let v ← readU8; pure (.bool (v ≠ 0))
  | 8  => do let v ← readString cap; pure (.string v)
  | 9  => readArray cap
  | 10 => do let v ← readU64; pure (.u64 v)
  | 11 => do let v ← readU64; pure (.i64 v.toInt64)
  | 12 => do let v ← readU64; pure (.f64 v)
  | _  => Eff.throw (.unknownType typeId)

-- The two tables differ in the arrays only.
theorem readValue_eq :
    readValue cap = (do let typeId ← readU32; if typeId = 9 then readArray cap else readArrayElem cap typeId) := by
  refine congrArg (readU32 >>= ·) (funext fun typeId => ?_)
  split
  case h_10 h => rw [if_pos (UInt32.toNat_inj.mp h)]
  all_goals
    rename_i h
    rw [if_neg (by rintro rfl; contradiction)]
    unfold readArrayElem
  case h_14 => split <;> first | rfl | contradiction
  all_goals simp only [h]

def readEntry : Eff Reader GgufError (String × GgufValue) := do
  let key ← readString cap
  let value ← readValue cap
  pure (key, value)

def readShape (name : String) : Eff Reader GgufError (List UInt64) := do
  let nDims ← readU32
  if 4 < nDims then
    Eff.throw (.malformed s!"tensor {name}: too many dims ({nDims})")
  else
    Eff.times readU64 nDims.toNat

def readDecl : Eff Reader GgufError TensorDecl := do
  let name ← readString cap
  let shape ← readShape name
  let typeId ← readU32
  let dtype ← Eff.okOr (GgmlType.fromU32 typeId) (.unknownType typeId)
  let offset ← readU64
  pure { name, shape, dtype, offset }

-- `shape.iter().product()`, where `n` is the product of the dimensions before
def product (n : UInt64) : List UInt64 → Eff σ ε UInt64
  | []         => pure n
  | d :: shape => do
    let n ← Eff.checked (n.toNat * d.toNat)
    product n shape

def sized (decl : TensorDecl) : Eff σ ε TensorInfo := do
  let nElements ← product 1 decl.shape
  let nbytes ← decl.dtype.nbytes nElements
  pure { decl with nbytes }

def readInfo : Eff Reader GgufError (String × TensorInfo) := do
  let decl ← readDecl cap
  let info ← sized decl
  pure (info.name, info)

def readVersion : Eff Reader GgufError UInt32 := do
  let m ← readU32
  if m ≠ magic then
    Eff.throw (.badMagic m)
  else
    let version ← readU32
    if version = 0 ∨ 3 < version then
      Eff.throw (.unsupportedVersion version)
    else
      pure version

def readMetadata (count : UInt64) : Eff Reader GgufError (List (String × GgufValue)) := do
  Eff.reserve count cap.metadata
  Eff.times (readEntry cap) count.toNat

def readTensors (count : UInt64) : Eff Reader GgufError (List (String × TensorInfo)) := do
  Eff.reserve count cap.tensors
  Eff.times (readInfo cap) count.toNat

def alignment (metadata : Finmap fun _ : String => GgufValue) : UInt64 :=
  ((metadata.lookup "general.alignment").bind GgufValue.asU64).getD defaultAlignment

-- `pos.div_ceil(alignment) * alignment`
def roundUp (pos : Nat) (alignment : UInt64) : Eff σ ε UInt64 :=
  if alignment = 0 then
    Eff.panic
  else
    Eff.checked (divCeil pos alignment.toNat * alignment.toNat)

def dataOffset (metadata : Finmap fun _ : String => GgufValue) : Eff Reader ε UInt64 := do
  let r ← Eff.get
  roundUp r.position (alignment metadata)

-- What is read before the position of the data is known
structure Tables where
  version : UInt32
  entries : List (String × GgufValue)
  infos : List (String × TensorInfo)

def readTables : Eff Reader GgufError Tables := do
  let version ← readVersion
  let tensorCount ← readU64
  let kvCount ← readU64
  let entries ← readMetadata cap kvCount
  let infos ← readTensors cap tensorCount
  pure { version, entries, infos }

-- The data starts after the tables, at a multiple of the alignment.
def place (t : Tables) : Eff Reader ε GgufFile := do
  let offset ← dataOffset (.collect t.entries)
  pure { version := t.version, metadata := .collect t.entries, tensors := .collect t.infos, dataOffset := offset }

end Gguf

def GgufFile.read (cap : Capacity) : Eff Reader GgufError GgufFile := do
  let t ← Gguf.readTables cap
  Gguf.place t
