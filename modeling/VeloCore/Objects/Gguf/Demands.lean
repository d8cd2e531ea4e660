import VeloCore.Objects.Gguf.Header
import VeloCore.Objects.Gguf.ModelMeta

open List

-- What the loader needs of the numbers in a file: the lengths of what it allocates, the sizes of the tensors, the position
-- that is rounded up, and the number of heads that it divides by.
inductive Demand
  | bytes (n : UInt64)
  | values (n : UInt64)
  | metadata (n : UInt64)
  | tensors (n : UInt64)
  | size (decl : TensorDecl)
  | round (position : Nat) (alignment : UInt64)
  | divide (nHead : UInt32)

namespace Demand

def Met (cap : Capacity) : Demand → Prop
  | bytes n    => n ≤ cap.bytes
  | values n   => n ≤ cap.values
  | metadata n => n ≤ cap.metadata
  | tensors n  => n ≤ cap.tensors
  | size decl  => Gguf.Fits decl
  | round p a  => a ≠ 0 ∧ divCeil p a.toNat * a.toNat < 2 ^ 64
  | divide n   => n ≠ 0

end Demand

-- The demands of reading from a position in a file
abbrev Demands := Reader → Demand → Prop

namespace Demands

variable {ε α : Type} (cap : Capacity)

-- The demands after `x` was read
def after (x : Eff Reader ε α) (A : α → Demands) : Demands :=
  fun s d => ∃ a s', x s = (.ok a, s') ∧ A a s' d

-- The demands of each of `n` runs of `x`
def during (x : Eff Reader ε α) (n : Nat) (A : Demands) : Demands :=
  fun s d => ∃ k < n, ∃ l s', Eff.times x k s = (.ok l, s') ∧ A s' d

def both (A B : Demands) : Demands :=
  fun s d => A s d ∨ B s d

def only (d : Demand) : Demands :=
  fun _ d' => d' = d

open Gguf

def string : Demands :=
  after readU64 fun len => only (.bytes len)

def arrayElem (typeId : UInt32) : Demands :=
  fun s d => typeId = 8 ∧ string s d

def array : Demands :=
  after readU32 fun elemType => after readU64 fun count =>
    both (only (.values count)) (during (readArrayElem cap elemType) count.toNat (arrayElem elemType))

def value : Demands :=
  after readU32 fun typeId => if typeId = 9 then array cap else arrayElem typeId

def entry : Demands :=
  both string (after (readString cap) fun _ => value cap)

def info : Demands :=
  both string (after (readDecl cap) fun decl => only (.size decl))

def metadata (count : UInt64) : Demands :=
  both (only (.metadata count)) (during (readEntry cap) count.toNat (entry cap))

def tensors (count : UInt64) : Demands :=
  both (only (.tensors count)) (during (readInfo cap) count.toNat (info cap))

def tables : Demands :=
  after readVersion fun _ => after readU64 fun tensorCount => after readU64 fun kvCount =>
    both (metadata cap kvCount) (after (readMetadata cap kvCount) fun _ => tensors cap tensorCount)

def file : Demands :=
  both (tables cap) (after (readTables cap) fun t s => only (.round s.position (alignment (.collect t.entries))) s)

open ModelLoader

-- A file that lacks a field is refused before its number of heads matters.
def heads (file : GgufFile) : Demands :=
  fun _ d => (vocabSize file).isSome ∧ (fieldU32 file s!"{arch file}.embedding_length").isSome ∧
    (fieldU32 file s!"{arch file}.block_count").isSome ∧ (fieldU32 file s!"{arch file}.feed_forward_length").isSome ∧
    ∃ nHead, fieldU32 file s!"{arch file}.attention.head_count" = some nHead ∧ d = .divide nHead

def model : Demands :=
  both (file cap) (after (GgufFile.read cap) fun f => heads f)

end Demands
