import VeloCore.Objects.Backend.LlamaForward

open List F32

namespace MatvecKernel

variable {φ : Type} [F32 φ]

-- What a thread of the kernels for this format adds up for its row, with a vector that starts at `x[xOffset]`. The
-- bytes are counted with pointers from the start of a block on.
def q4_0Sum (w : List UInt8) (x : List φ) (cols row xOffset : Nat) : φ :=
  let nBlocks := cols / 32
  let rowOffset := uint (row * nBlocks * 18)
  (range nBlocks).foldl (fun sum b =>
    let blockStart := uint (rowOffset + b * 18)
    let delta : φ := f16ToF32 (le16 (w[blockStart]?.getD 0) (w[blockStart + 1]?.getD 0))
    (range 16).foldl (fun sum i =>
      let byte : UInt8 := w[blockStart + 2 + i]?.getD 0
      let lo := ofInt ((byte &&& 0x0F).toNat - 8)
      let hi := ofInt ((byte >>> 4).toNat - 8)
      let sum := add sum (mul (mul delta lo) (x[uint (xOffset + b * 32 + i * 2)]?.getD zero))
      add sum (mul (mul delta hi) (x[uint (xOffset + b * 32 + i * 2 + 1)]?.getD zero))) sum) zero

-- What the kernel leaves in the buffer `out`
def runMatvecQ4_0 (out : Nat → φ) (w : List UInt8) (x : List φ) (rows cols : Nat) : Nat → φ :=
  (range rows).foldl (fun out tpig =>
    if tpig < uint rows then Function.update out tpig (q4_0Sum w x (uint cols) tpig 0) else out) out

-- The grid is as wide as there are rows, and as high as there are vectors.
def runMatvecBatchedQ4_0 (out : Nat → φ) (w : List UInt8) (x : List φ) (rows cols batchSize : Nat) : Nat → φ :=
  (range batchSize).foldl (fun out batchIdx => (range rows).foldl (fun out row =>
    if row < uint rows then
      Function.update out (uint (batchIdx * uint rows + row)) (q4_0Sum w x (uint cols) row (uint (batchIdx * uint cols)))
    else
      out) out) out

end MatvecKernel
