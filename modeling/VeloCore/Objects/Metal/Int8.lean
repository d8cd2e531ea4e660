import VeloCore.Objects.Metal.Paging
import Mathlib.Algebra.Order.Round

open List

-- What a byte of a pool was written with: a `char`, or one of the four bytes of a `float`
inductive PoolByte
  | char (c : Int)
  | float (x : ℚ) (i : Nat)
deriving DecidableEq

-- A pool of the cache of bytes
abbrev Int8Pool := Nat → PoolByte

namespace Int8Pool

-- `(char)` of a number that fits
def toChar (x : ℚ) : Int :=
  if 0 ≤ x then ⌊x⌋ else ⌈x⌉

-- `x_max = max(x_max, abs(x[d]))` for all of a vector
def absMax (x : List ℚ) : ℚ :=
  x.foldl (fun m v => max m |v|) 0

def scale (x : List ℚ) : ℚ :=
  absMax x / 127

def invScale (x : List ℚ) : ℚ :=
  if 0 < absMax x then 127 / absMax x else 0

def codes (x : List ℚ) : List Int :=
  x.map fun v => toChar (v * invScale x)

variable (pool : Int8Pool)

-- What is written from `base` on for a vector: its codes, and then the scale
def writeRecord (base : Nat) (x : List ℚ) : Int8Pool := fun a =>
  if base ≤ a ∧ a < base + x.length then
    .char ((codes x).getD (a - base) 0)
  else if base + x.length ≤ a ∧ a < base + x.length + 4 then
    .float (scale x) (a - (base + x.length))
  else
    pool a

def readChar (a : Nat) : Option Int :=
  match pool a with
  | .char c    => some c
  | .float _ _ => none

-- There is a `float` where its four bytes are.
def readFloat (a : Nat) : Option ℚ :=
  match pool a with
  | .float x 0 => if pool (a + 1) = .float x 1 ∧ pool (a + 2) = .float x 2 ∧ pool (a + 3) = .float x 3 then some x else none
  | _          => none

-- What is made of the record from `base` on
def readRecord (base headDim : Nat) : Option (List ℚ) := do
  let scale ← pool.readFloat (base + headDim)
  (range headDim).mapM fun d => (pool.readChar (base + d)).map fun c : Int => (c : ℚ) * scale

variable (args : PagedArgs)

-- The thread of a head in `kv_update_int8`, for one of the pools
def kvUpdateInt8 (pos headIdx : Nat) (x : List ℚ) : Int8Pool :=
  pool.writeRecord (args.kvUpdateInt8Offset pos headIdx) x

-- The numbers of a head that `paged_attention_flash_int8` works with
def headInt8 (t kvHeadIdx : Nat) : Option (List ℚ) :=
  pool.readRecord (args.kvHeadInt8 t kvHeadIdx) args.headDim

end Int8Pool
