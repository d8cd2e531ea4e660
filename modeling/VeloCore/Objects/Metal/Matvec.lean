import VeloCore.Objects.Gguf.Loader
import VeloCore.Objects.Metal.Kernels

open List

-- Where a number of a matrix is in the bytes of its tensor, and what the bytes are taken for: a number by its first byte,
-- or the element `i` of the block that starts at a byte. A number that is read from nowhere is zero.
inductive Cell
  | zero
  | f32 (byte : Nat)
  | f16 (byte : Nat)
  | bf16 (byte : Nat)
  | q4_0 (block i : Nat)
  | q4K (block i : Nat)
deriving DecidableEq, Repr

namespace GgmlType

-- The bytes of a row of `cols` columns
def rowBytes (t : GgmlType) (cols : Nat) : Nat :=
  divCeil cols t.blockElems * t.blockBytes

-- What `dequant_row` makes column `c` of, in the bytes of row `r`
def cell (t : GgmlType) (cols r c : Nat) : Cell :=
  let row := r * t.rowBytes cols
  match t with
  | f32         => .f32 (row + c * 4)
  | f16         => .f16 (row + c * 2)
  | bf16        => .bf16 (row + c * 2)
  | q4_0 | q4_1 => if c < cols / 32 * 32 then .q4_0 (row + c / 32 * 18) (c % 32) else .zero
  | q4K         => if c < cols / 256 * 256 then .q4K (row + c / 256 * 144) (c % 256) else .zero
  | _           => .zero

end GgmlType

-- The pipelines that `dispatch_matvec` chooses from
inductive MatvecKernel
  | matvecF32
  | matvecQ4_0
deriving DecidableEq, Repr

namespace MatvecKernel

def name : MatvecKernel → String
  | matvecF32  => "matvec_f32"
  | matvecQ4_0 => "matvec_q4_0"

def format : MatvecKernel → GgmlType
  | matvecF32  => .f32
  | matvecQ4_0 => .q4_0

-- What the thread of row `r` multiplies column `c` of the vector by
def cell (cols r c : Nat) : MatvecKernel → Cell
  | matvecF32  => if c < cols then .f32 (uint (r * cols + c) * 4) else .zero
  | matvecQ4_0 =>
    let nBlocks := cols / 32
    if c < nBlocks * 32 then .q4_0 (uint (r * nBlocks * 18 + c / 32 * 18)) (c % 32) else .zero

-- The numbers of rows and columns are passed as `u32`, and a thread past the rows returns.
def read (k : MatvecKernel) (rows cols r c : Nat) : Option Cell :=
  if r < uint rows then some (k.cell (uint cols) r c) else none

end MatvecKernel

-- The kernel for a tensor of a model, out of those that the library has
def dispatchMatvec (pipelines : List String) (q : Quantization) : Except String MatvecKernel :=
  let k : MatvecKernel := if q = .q4_0 then .matvecQ4_0 else .matvecF32
  if k.name ∈ pipelines then .ok k else .error s!"Pipeline {k.name} not found"

-- The names of the functions that are looked up in the library
def metalFunctions : List String :=
  ["matvec_f32", "matvec_q4_0", "rms_norm", "rope", "silu", "vec_mul", "softmax", "vec_add", "kv_update",
    "paged_attention_flash", "kv_update_int8", "paged_attention_flash_int8", "argmax", "matvec_batched_f32",
    "matvec_batched_q4_0", "paged_attention_tree", "matvec_lora_batched", "embed_lookup"]

-- A tensor that `forward` multiplies by, with the numbers of rows and columns that it passes on
structure Product where
  name : TensorName
  rows : Nat
  cols : Nat
deriving DecidableEq, Repr

def ModelMeta.products (dims : ModelMeta) : List Product :=
  ((range dims.nLayer).flatMap fun l =>
    [ ⟨.layer l .wq, dims.nEmbd, dims.nEmbd⟩,
      ⟨.layer l .wk, dims.nHeadKv * dims.headDim, dims.nEmbd⟩,
      ⟨.layer l .wv, dims.nHeadKv * dims.headDim, dims.nEmbd⟩,
      ⟨.layer l .wo, dims.nEmbd, dims.nEmbd⟩,
      ⟨.layer l .w1, dims.nFf, dims.nEmbd⟩,
      ⟨.layer l .w3, dims.nFf, dims.nEmbd⟩,
      ⟨.layer l .w2, dims.nEmbd, dims.nFf⟩ ]) ++ [⟨.output, dims.nVocab, dims.nEmbd⟩]

namespace ModelLoader.WeightStore

variable (store : WeightStore) (pipelines : List String)

-- The kernel takes each number of the tensor from where it is in the format of the tensor, or there is no kernel for
-- the format and the tensor is refused.
def Decoded (p : Product) : Prop :=
  ∀ info, store.index.lookup p.name.text = some info →
    match dispatchMatvec pipelines store.modelMeta.quantization with
    | .ok k    => k.format = info.dtype ∧ ∀ r < p.rows, ∀ c < p.cols, k.read p.rows p.cols r c = some (info.dtype.cell p.cols r c)
    | .error _ => ∀ k : MatvecKernel, k.format ≠ info.dtype

-- The tensor is in the format of the kernel for the model. Its rows are made of whole blocks, and its numbers can be
-- counted with 32 bits.
def Suits (p : Product) (dtype : GgmlType) : Prop :=
  match store.modelMeta.quantization with
  | .q4_0 => dtype = .q4_0 ∧ (p.cols = 0 ∨ p.rows < 2 ^ 32 ∧
      (p.cols < 32 ∨ (p.rows ≤ 1 ∨ 32 ∣ p.cols) ∧ (p.rows * (p.cols / 32) - 1) * 18 < 2 ^ 32))
  | _     => dtype = .f32 ∧ (p.cols = 0 ∨ p.rows < 2 ^ 32 ∧ p.rows * p.cols ≤ 2 ^ 32)

end ModelLoader.WeightStore
