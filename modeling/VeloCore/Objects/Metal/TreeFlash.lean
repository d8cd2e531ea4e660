import VeloCore.Objects.Metal.FlashAttention
import VeloCore.Objects.Metal.TreeAttention

open List F32

namespace TreeAttention

variable {φ : Type} [F32 φ]

-- The thread of a node and a head of `paged_attention_tree`, up to the numbers that it writes. Both of its loops do what the
-- loop of `paged_attention_flash` does with a token. There is no result where a thread returns at once, where the kernel
-- divides by zero, or leaves the 128 numbers of its accumulator.
def run (t : SpeculativeTree) (args : PagedArgs) (kCache vCache : Nat → φ) (q : List φ) (posBase nHead nodeIdx headIdx : Nat) :
    Option (List φ) :=
  if nodeIdx ≥ uint t.nodes.length ∨ headIdx ≥ uint nHead then
    none
  else if args.nHeadKv = 0 ∨ uint nHead / args.nHeadKv = 0 ∨ args.blockSize = 0 ∨ 128 < args.headDim then
    none
  else
    let kvHeadIdx := headIdx / (uint nHead / args.nHeadKv)
    let row (cache : Nat → φ) (pos : Nat) := (range args.headDim).map fun d => cache (args.kvHead pos kvHeadIdx + d)
    let nodeQ := (range args.headDim).map fun d =>
      q[uint (nodeIdx * uint nHead * args.headDim) + uint (headIdx * args.headDim) + d]?.getD zero
    let invSqrtHeadDim := div one (sqrt (ofInt args.headDim))
    let s := (positions t posBase nHead nodeIdx headIdx).foldl (fun s pos =>
      FlashAttention.step nodeQ invSqrtHeadDim s (row kCache pos) (row vCache pos)) (FlashAttention.init args.headDim)
    some (s.acc.map fun a => div a s.l)

end TreeAttention
