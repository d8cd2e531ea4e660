import Mathlib.Algebra.Ring.Defs
import VeloCore.Objects.Metal.Kernels

open List

-- A row of `lora_offsets` and `lora_scales`
structure LoraRow (R : Type) where
  offsetA : UInt32
  offsetB : UInt32
  scale : R

namespace LoraRow

-- The offset of a row without an adapter
def noAdapter : UInt32 :=
  0xFFFFFFFF

end LoraRow

namespace MatvecKernel

variable {R : Type} [CommRing R]

-- The threads of a grid, each with its `tpig.x` and `tpig.y`
def grid (width height : Nat) : List (Nat × Nat) :=
  range width ×ˢ range height

-- What `matvec_batched_f32` leaves in the buffer `out` when its threads run in this order. The numbers are exact.
def runMatvecBatchedF32 (w x : List R) (rows cols : Nat) (threads : List (Nat × Nat)) (out : Nat → R) : Nat → R :=
  threads.foldl (fun out (row, batchIdx) =>
    if row ≥ rows then
      out
    else
      Function.update out (uint (batchIdx * rows + row)) <| (range cols).foldl (fun sum c =>
        sum + w.getD (uint (row * cols + c)) 0 * x.getD (uint (batchIdx * cols + c)) 0) 0) out

-- `lora_sum` of the thread of a column. The offsets are added to the pointers of the buffers.
def loraSum (xRow loraA loraB : List R) (dIn r col : Nat) : R :=
  (range r).foldl (fun loraSum j =>
    let xa := (range dIn).foldl (fun xa i => xa + xRow.getD i 0 * loraA.getD (uint (j * dIn + i)) 0) 0
    loraSum + xa * loraB.getD (uint (col * r + j)) 0) 0

-- What a thread of `matvec_lora_batched` does with the buffer `out`
def loraThread (x allLoraA allLoraB : List R) (rows : List (LoraRow R)) (dIn dOut r batchSize : Nat) (out : Nat → R)
    (thread : Nat × Nat) : Nat → R :=
  let (col, batchIdx) := thread
  if col ≥ dOut ∨ batchIdx ≥ batchSize then
    out
  else
    match rows[batchIdx]? with
    | none     => out
    | some row =>
      if row.offsetA = LoraRow.noAdapter then
        out
      else
        let loraA := allLoraA.drop row.offsetA.toNat
        let loraB := allLoraB.drop row.offsetB.toNat
        let cell := uint (batchIdx * dOut + col)
        Function.update out cell (out cell + loraSum (x.drop (uint (batchIdx * dIn))) loraA loraB dIn r col * row.scale)

def runMatvecLoraBatched (x allLoraA allLoraB : List R) (rows : List (LoraRow R)) (dIn dOut r batchSize : Nat)
    (threads : List (Nat × Nat)) (out : Nat → R) : Nat → R :=
  threads.foldl (loraThread x allLoraA allLoraB rows dIn dOut r batchSize) out

end MatvecKernel
