import VeloCore.Objects.Metal.Kernels
import VeloCore.Objects.Metal.Runtime
import VeloCore.Objects.Gguf.ModelMeta

open List

inductive KvCacheType
  | fp32
  | int8
  | fp8
deriving DecidableEq, Repr

namespace ModelLoader.ModelMeta

variable (m : ModelMeta)

def kvBytesPerTokenPerHead : KvCacheType → Nat
  | .fp32 => m.headDim * 4
  | .int8 => m.headDim + 4
  | .fp8  => m.headDim + 4

def kvBytesPerToken (kvType : KvCacheType) : Nat :=
  m.nHeadKv * m.kvBytesPerTokenPerHead kvType

end ModelLoader.ModelMeta

-- What the host passes to the kernels that go through the page table
structure PagedArgs where
  slotMapping : Nat → UInt32
  slotId : Nat
  maxPages : Nat
  blockSize : Nat
  nHeadKv : Nat
  headDim : Nat

namespace PagedArgs

variable (args : PagedArgs)

-- `as u32`
def ofHost (slotMapping : Nat → UInt32) (slot : SlotId) (maxPages blockSize nHeadKv headDim : Nat) : PagedArgs where
  slotMapping
  slotId    := slot.toNat
  maxPages  := uint maxPages
  blockSize := uint blockSize
  nHeadKv   := uint nHeadKv
  headDim   := uint headDim

def tableIndex (t : Nat) : Nat :=
  uint (args.slotId * args.maxPages + t / args.blockSize)

def blockIdx (t : Nat) : Nat :=
  (args.slotMapping (args.tableIndex t)).toNat

def tokenInBlock (t : Nat) : Nat :=
  t % args.blockSize

def headBytes : Nat :=
  uint (args.headDim + 4)

-- Where a record of `width` units is written, that of the head `headIdx` and the position `t`
def writeOffset (width t headIdx : Nat) : Nat :=
  uint (args.blockIdx t * args.blockSize * args.nHeadKv * width + args.tokenInBlock t * args.nHeadKv * width + headIdx * width)

-- Where it is read. The three parts are added to a pointer.
def readOffset (width t kvHeadIdx : Nat) : Nat :=
  uint (args.blockIdx t * args.blockSize * args.nHeadKv * width) + uint (args.tokenInBlock t * args.nHeadKv * width) +
    uint (kvHeadIdx * width)

-- `cache_offset` of `kv_update`, for one thread
def kvUpdateCell (pos headIdx dimIdx : Nat) : Nat :=
  uint (args.writeOffset args.headDim pos headIdx + dimIdx)

-- `head_k` and `head_v` of the attention over 32-bit floats
def kvHead (t kvHeadIdx : Nat) : Nat :=
  args.readOffset args.headDim t kvHeadIdx

-- `cache_offset` of `kv_update_int8`
def kvUpdateInt8Offset (pos headIdx : Nat) : Nat :=
  args.writeOffset args.headBytes pos headIdx

-- `k_head_ptr` and `v_head_ptr` of the attention over bytes
def kvHeadInt8 (t kvHeadIdx : Nat) : Nat :=
  args.readOffset args.headBytes t kvHeadIdx

-- The number of tokens before the one of a position in the pool
def place (t : Nat) : Nat :=
  args.blockIdx t * args.blockSize + args.tokenInBlock t

end PagedArgs

namespace MetalMemoryRuntime

-- The calls of `bind_slot` one after another
def bindAll (r : MetalMemoryRuntime) (calls : List (SlotId × List UInt32)) : MetalMemoryRuntime :=
  calls.foldl (fun r call => (bindSlot call.1 call.2 r).2) r

-- The pages that a slot was bound to last, of those calls that succeed
def lastBound (maxPages : Nat) (slot : SlotId) (calls : List (SlotId × List UInt32)) : List UInt32 :=
  calls.foldl (fun pages call => if call.1 = slot ∧ call.2.length ≤ maxPages then call.2 else pages) []

-- A property of each call and the runtime before it
def Each (p : MetalMemoryRuntime → SlotId → List UInt32 → Prop) : MetalMemoryRuntime → List (SlotId × List UInt32) → Prop
  | _, []            => True
  | r, call :: calls => p r call.1 call.2 ∧ Each p (bindSlot call.1 call.2 r).2 calls

-- The call keeps to the table, and leaves the rows of the other slots as they are.
structure Framed (r : MetalMemoryRuntime) (slot : SlotId) (pages : List UInt32) : Prop where
  inside : pages.length ≤ r.memory.pagedTotalPages → Overruns r.memory.pagedTotalPages slot pages.length k →
    k < r.memory.maxSlots * r.memory.pagedTotalPages
  rows   : slot' ≠ slot → slot'.toNat < r.memory.maxSlots → (bindSlot slot pages r).2.row slot' = r.row slot'

-- The call fails, or what it clears behind the row is in the table and zero already.
def Harmless (r : MetalMemoryRuntime) (slot : SlotId) (pages : List UInt32) : Prop :=
  pages.length ≤ r.memory.pagedTotalPages → ∀ i < 3 * (r.memory.pagedTotalPages - pages.length),
    (slot.toNat + 1) * r.memory.pagedTotalPages + i < r.memory.maxSlots * r.memory.pagedTotalPages ∧
      r.slotMapping ((slot.toNat + 1) * r.memory.pagedTotalPages + i) = 0

instance : Decidable (Harmless r slot pages) :=
  inferInstanceAs (Decidable (_ → _))

def pagedArgs (r : MetalMemoryRuntime) (slot : SlotId) (nHeadKv headDim : Nat) : PagedArgs :=
  .ofHost r.slotMapping slot r.memory.pagedTotalPages r.memory.pagedBlockSize nHeadKv headDim

end MetalMemoryRuntime
