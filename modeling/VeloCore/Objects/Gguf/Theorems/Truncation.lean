import Mathlib
import VeloCore.Primitives.Local
import VeloCore.Objects.Gguf.Header

open List

namespace Gguf

open Reader

variable (cap : Capacity)

theorem local_readU8 : Local .io readU8 :=
  (Local.readLe 1).bind fun _ => .pure _

theorem local_readU16 : Local .io readU16 :=
  (Local.readLe 2).bind fun _ => .pure _

theorem local_readU32 : Local .io readU32 :=
  (Local.readLe 4).bind fun _ => .pure _

theorem local_readU64 : Local .io readU64 :=
  (Local.readLe 8).bind fun _ => .pure _

theorem local_readString : Local .io (readString cap) :=
  local_readU64.bind fun _ => (Local.reserve _ _).bind fun _ => (Local.readExact _).bind fun _ => .okOr _ _

theorem local_readArrayElem (typeId : UInt32) : Local .io (readArrayElem cap typeId) := by
  unfold readArrayElem
  split
  case h_9  => exact (local_readString cap).bind fun _ => .pure _
  case h_13 => exact .throw _
  all_goals first
    | exact local_readU8.bind fun _ => .pure _
    | exact local_readU16.bind fun _ => .pure _
    | exact local_readU32.bind fun _ => .pure _
    | exact local_readU64.bind fun _ => .pure _

theorem local_readArray : Local .io (readArray cap) :=
  local_readU32.bind fun elemType => local_readU64.bind fun _ => (Local.reserve _ _).bind fun _ =>
    ((local_readArrayElem cap elemType).times _).bind fun _ => .pure _

theorem local_readValue : Local .io (readValue cap) := by
  rw [readValue_eq]
  refine local_readU32.bind fun typeId => ?_
  split
  case isTrue  => exact local_readArray cap
  case isFalse => exact local_readArrayElem cap typeId

theorem local_readEntry : Local .io (readEntry cap) :=
  (local_readString cap).bind fun _ => (local_readValue cap).bind fun _ => .pure _

theorem local_readShape (name : String) : Local .io (readShape name) := by
  refine local_readU32.bind fun nDims => ?_
  split
  case isTrue  => exact .throw _
  case isFalse => exact local_readU64.times _

theorem local_readDecl : Local .io (readDecl cap) :=
  (local_readString cap).bind fun name => (local_readShape name).bind fun _ => local_readU32.bind fun _ =>
    (Local.okOr _ _).bind fun _ => local_readU64.bind fun _ => .pure _

theorem local_product (n : UInt64) (shape : List UInt64) : Local (ε := GgufError) .io (product n shape) := by
  induction shape generalizing n
  case nil           => exact .pure n
  case cons d _ hi   => exact (Local.checked _).bind fun n => hi n

theorem local_sized (decl : TensorDecl) : Local (ε := GgufError) .io (sized decl) :=
  (local_product _ _).bind fun _ => (Local.checked _).bind fun _ => .pure _

theorem local_readInfo : Local .io (readInfo cap) :=
  (local_readDecl cap).bind fun decl => (local_sized decl).bind fun _ => .pure _

theorem local_readVersion : Local .io readVersion := by
  refine local_readU32.bind fun m => ?_
  split
  case isTrue => exact .throw _
  case isFalse =>
    refine local_readU32.bind fun version => ?_
    split
    case isTrue  => exact .throw _
    case isFalse => exact .pure _

theorem local_readTables : Local .io (readTables cap) :=
  local_readVersion.bind fun _ => local_readU64.bind fun _ => local_readU64.bind fun _ =>
    ((Local.reserve _ _).bind fun _ => (local_readEntry cap).times _).bind fun _ =>
      ((Local.reserve _ _).bind fun _ => (local_readInfo cap).times _).bind fun _ => .pure _

theorem local_roundUp (pos : Nat) (alignment : UInt64) : Local (ε := GgufError) .io (roundUp pos alignment) := by
  unfold roundUp
  split
  case isTrue  => exact .of_fixed fun _ => rfl
  case isFalse => exact .checked _

theorem local_read : Local .io (GgufFile.read cap) :=
  (local_readTables cap).bind fun t => (Local.position_bind fun pos => local_roundUp pos (alignment (.collect t.entries))).bind
    fun _ => .pure _

end Gguf

-- Unless a file ends too early, there is a header in it that `read` depends on, from the beginning up to the place that it gets
-- to: a file that begins alike is read alike, whether it is accepted or refused, and one that ends in the header is refused for
-- this reason, wherever it ends.
theorem GgufFile.read_header (cap : Capacity) (bytes : List UInt8) (h : (read cap (.new bytes)).1 ≠ .error (.err .io)) :
    ∃ n ≤ bytes.length, (read cap (.new bytes)).2.position = n ∧ ∀ other : List UInt8,
      (bytes.take n <+: other → (read cap (.new other)).1 = (read cap (.new bytes)).1) ∧
      (other <+: bytes.take n → other.length < n → (read cap (.new other)).1 = .error (.err .io)) :=
  (Gguf.local_read cap).file h

-- A tensor, an array of one string, and three bytes that the header does not reach
theorem GgufFile.read_header_tensor :
    let bytes := Gguf.writeU32 Gguf.magic ++ Gguf.writeU32 3 ++ Gguf.writeU64 1 ++ Gguf.writeU64 1 ++
      (Gguf.writeString "tokens" ++ Gguf.writeU32 9 ++ Gguf.writeArray 8 [.string "a"]) ++
      (Gguf.writeString "test_tensor" ++ Gguf.writeU32 1 ++ Gguf.writeU64 4 ++ Gguf.writeU32 0 ++ Gguf.writeU64 0) ++ [1, 2, 3]
    ∃ n ≤ bytes.length, ∀ other : List UInt8, other <+: bytes.take n → other.length < n →
      (read ⟨1024, 8, 8, 8, by decide⟩ (.new other)).1 = .error (.err .io) := by
  intro bytes
  have hok : (read ⟨1024, 8, 8, 8, by decide⟩ (.new bytes)).1.toOption.isSome = true := by decide +kernel
  obtain ⟨n, hn, _, h⟩ := read_header ⟨1024, 8, 8, 8, by decide⟩ bytes fun herr => by simp [herr, Except.toOption] at hok
  exact ⟨n, hn, fun other => (h other).right⟩
