import VeloCore.Objects.Backend.LlamaForward
import VeloCore.Objects.Metal.Paging

open List F32

namespace FlashAttention

variable {φ : Type} [F32 φ]

-- The variables of the loop over the tokens
structure State (φ : Type) where
  m : φ
  l : φ
  acc : List φ

def init (headDim : Nat) : State φ where
  m   := negInfinity
  l   := zero
  acc := replicate headDim zero

-- One token with its key and its value
def step (q : List φ) (invSqrtHeadDim : φ) (s : State φ) (k v : List φ) : State φ :=
  let score := mul (dot q k) invSqrtHeadDim
  let m := max s.m score
  let expScore := exp (F32.sub score m)
  let expMDiff := exp (F32.sub s.m m)
  { m
    l   := add (mul s.l expMDiff) expScore
    acc := zipWith (fun a x => add (mul a expMDiff) (mul expScore x)) s.acc v }

-- The thread of a head, up to the numbers that it writes. There is no result where the kernel divides by zero, or leaves
-- the 128 numbers of its accumulator.
def run (args : PagedArgs) (kCache vCache : Nat → φ) (q : List φ) (pos nHead headIdx : Nat) : Option (List φ) :=
  if args.nHeadKv = 0 ∨ nHead / args.nHeadKv = 0 ∨ args.blockSize = 0 ∨ 128 < args.headDim then
    none
  else
    let kvHeadIdx := headIdx / (nHead / args.nHeadKv)
    let row (cache : Nat → φ) (t : Nat) := (range args.headDim).map fun d => cache (args.kvHead t kvHeadIdx + d)
    let headQ := (range args.headDim).map fun d => q[uint (headIdx * args.headDim) + d]?.getD zero
    let invSqrtHeadDim := div one (sqrt (ofInt args.headDim))
    let totalTokens := uint (pos + 1)
    let s := (range totalTokens).foldl (fun s t => step headQ invSqrtHeadDim s (row kCache t) (row vCache t)) (init args.headDim)
    some (s.acc.map fun a => div a s.l)

end FlashAttention
