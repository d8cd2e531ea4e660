import Mathlib.Tactic

open List

-- A `uint` of a kernel, and `as u32`
def uint (n : Nat) : Nat :=
  n % 2 ^ 32

-- The arguments that `kv_update` and `paged_attention_flash` share. `row` are the entries of `slot_mapping`
-- from `slot_id * max_pages` on.
structure KvArgs where
  row : List Nat
  blockSize : Nat
  nHeadKv : Nat
  headDim : Nat
  pos : Nat
deriving DecidableEq, Repr

namespace KvArgs

variable (args : KvArgs)

def blockIdx (t : Nat) : Nat :=
  args.row.getD (t / args.blockSize) 0

def tokenInBlock (t : Nat) : Nat :=
  t % args.blockSize

-- The cell of both pools that a thread of `kv_update` writes
def cacheOffset (tpig : Nat) : Nat :=
  let headIdx := tpig / args.headDim
  let dimIdx := tpig % args.headDim
  uint (uint (args.blockIdx args.pos * args.blockSize * args.nHeadKv * args.headDim) +
    uint (args.tokenInBlock args.pos * args.nHeadKv * args.headDim) + uint (headIdx * args.headDim) + dimIdx)

-- The threads past the last head return at once.
def kvUpdate (width : Nat) : List Nat :=
  ((range width).filter fun tpig => tpig / args.headDim < args.nHeadKv).map args.cacheOffset

-- Where the key and the value of a head begin, which is reckoned with pointers
def headOffset (kvHeadIdx t : Nat) : Nat :=
  uint (args.blockIdx t * args.blockSize * args.nHeadKv * args.headDim) +
    uint (args.tokenInBlock t * args.nHeadKv * args.headDim) + uint (kvHeadIdx * args.headDim)

-- The cells of both pools that the thread of a head reads
def headCells (nHead headIdx : Nat) : List Nat :=
  let kvHeadIdx := headIdx / (nHead / args.nHeadKv)
  let totalTokens := uint (args.pos + 1)
  (range totalTokens).flatMap fun t => (range args.headDim).map fun d => args.headOffset kvHeadIdx t + d

def pagedAttentionFlash (nHead width : Nat) : List Nat :=
  (range width).flatMap (args.headCells nHead)

end KvArgs

-- The sizes of a model and of the runtime that it is loaded on. Those of a model file are `u32`, with
-- `n_embd` for all the heads, and the runtime refuses to be without pages or with pages for no token.
structure KvDims where
  nLayer : Nat
  nHead : Nat
  nHeadKv : Nat
  headDim : Nat
  blockSize : Nat
  totalPages : Nat
  nHead_pos : 0 < nHead
  nEmbd_lt : nHead * headDim < 2 ^ 32
  nHeadKv_lt : nHeadKv < 2 ^ 32
  blockSize_pos : 0 < blockSize
  totalPages_pos : 0 < totalPages

-- A row of the page table.
structure KvRow (dims : KvDims) where
  pages : List Nat
  nodup : pages.Nodup
  lt : ∀ page ∈ pages, page < dims.totalPages

namespace KvDims

variable (dims : KvDims)

-- For 32-bit floats
def kvBytesPerToken : Nat :=
  dims.nHeadKv * (dims.headDim * 4)

-- The bytes of each of the two pools
def poolSize : Nat :=
  let pageBytes := dims.blockSize * dims.kvBytesPerToken
  let layerBytes := dims.totalPages * pageBytes
  dims.nLayer * layerBytes

def args (row : List Nat) (pos : Nat) : KvArgs where
  row
  blockSize := uint dims.blockSize
  nHeadKv := uint dims.nHeadKv
  headDim := uint dims.headDim
  pos := uint pos

-- The pools are bound from their beginning for every layer.
def writes (row : List Nat) (_layer pos : Nat) : List Nat :=
  (dims.args row pos).kvUpdate (dims.nHeadKv * dims.headDim)

def reads (row : List Nat) (_layer pos : Nat) : List Nat :=
  (dims.args row pos).pagedAttentionFlash (uint dims.nHead) dims.nHead

end KvDims
