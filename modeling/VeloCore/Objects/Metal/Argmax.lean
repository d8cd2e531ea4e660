import VeloCore.Objects.Backend.Greedy
import VeloCore.Objects.Metal.Kernels

open List

namespace Argmax

variable {φ : Type} [Logit φ]

-- `a > b` without NaN
def gt (a b : φ) : Bool :=
  !Logit.ge b a

-- What a thread has found: a logit and its index
abbrev Found (φ : Type) := φ × Nat

def better (own other : Found φ) : Found φ :=
  if gt other.1 own.1 then other else own

-- `for (uint i = tpig; i < n; i += 1024)`. The index is a `uint`, so a loop that does not end is back where it was after 2^22
-- rounds.
def scan (logits : List φ) (n : Nat) : Nat → Nat → Found φ → Option (Found φ)
  | 0, _, _ => none
  | fuel + 1, i, found =>
    if i < n then
      scan logits n fuel (uint (i + 1024)) (better found (logits[i]?.getD Logit.negInfinity, i))
    else
      some found

-- `simd_shuffle_down`, after which each lane keeps the better one. A lane that is not there has nothing to give.
def shuffleDown (offset : Nat) (lanes : List (Found φ)) : List (Found φ) :=
  lanes.mapIdx fun lane own => (lanes[lane + offset]?).elim own (better own)

-- Of the lanes of a simdgroup, the first one ends with what they have found together.
def reduce (lanes : List (Found φ)) : List (Found φ) :=
  [16, 8, 4, 2, 1].foldl (fun lanes offset => shuffleDown offset lanes) lanes

-- The kernel `argmax`, as `sample_argmax` dispatches it: one threadgroup of at most 1024 threads. There is no token where a
-- thread does not come to an end.
def argmax (logits : List φ) : Option TokenId := do
  let n := uint logits.length
  let threads := min logits.length 1024
  let found ← (range threads).mapM fun tpig => scan logits n (2 ^ 22 + 1) tpig (Logit.negInfinity, 0)
  let groups := (range ((threads + 31) / 32)).map fun sidx => (found.drop (sidx * 32)).take 32
  let locals := groups.filterMap fun lanes => (reduce lanes).head?
  return UInt32.ofNat (locals.foldl better (Logit.negInfinity, 0)).2

end Argmax
