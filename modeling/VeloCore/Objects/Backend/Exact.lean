import VeloCore.Objects.Backend.LlamaForward
import Mathlib.Analysis.SpecialFunctions.Pow.Real

-- Arithmetic without rounding, over the real numbers and minus infinity. Where a result is no real number it is taken to be
-- minus infinity, too. A division by zero gives zero.
inductive Exact
  | real (x : ℝ)
  | negInfinity

-- What exact arithmetic leaves open
class ExactFunctions where
  ofBits : UInt32 → ℝ
  powf : ℝ → ℝ → ℝ
  sqrt : ℝ → ℝ
  exp : ℝ → ℝ
  sin : ℝ → ℝ
  cos : ℝ → ℝ
  exp_pos x : 0 < exp x
  exp_add x y : exp (x + y) = exp x * exp y

namespace Exact

def map (f : ℝ → ℝ) : Exact → Exact
  | real x      => real (f x)
  | negInfinity => negInfinity

def map₂ (f : ℝ → ℝ → ℝ) : Exact → Exact → Exact
  | real x, real y => real (f x y)
  | _, _           => negInfinity

noncomputable def max : Exact → Exact → Exact
  | real x, real y      => real (Max.max x y)
  | real x, negInfinity => real x
  | negInfinity, y      => y

def exp [ExactFunctions] : Exact → Exact
  | real x      => real (ExactFunctions.exp x)
  | negInfinity => real 0

noncomputable instance [ExactFunctions] : F32 Exact where
  ofInt i     := real i
  ofBits bits := real (ExactFunctions.ofBits bits)
  add         := map₂ (· + ·)
  sub         := map₂ (· - ·)
  mul         := map₂ (· * ·)
  div         := map₂ (· / ·)
  max         := max
  powf        := map₂ ExactFunctions.powf
  neg         := map (- ·)
  sqrt        := map ExactFunctions.sqrt
  exp         := exp
  sin         := map ExactFunctions.sin
  cos         := map ExactFunctions.cos
  negInfinity := negInfinity

end Exact

-- The number that finite bits stand for
noncomputable def realOfBits (bits : UInt32) : ℝ :=
  let e : ℕ := (bits >>> 23 &&& 0xFF).toNat
  let m : ℕ := (bits &&& 0x7FFFFF).toNat
  let v : ℝ := if e = 0 then m * 2 ^ (-149 : ℤ) else (2 ^ 23 + m) * 2 ^ ((e : ℤ) - 150)
  if bits >>> 31 = 0 then v else -v

@[reducible]
noncomputable def realFunctions : ExactFunctions where
  ofBits  := realOfBits
  powf    := (· ^ ·)
  sqrt    := Real.sqrt
  exp     := Real.exp
  sin     := Real.sin
  cos     := Real.cos
  exp_pos := Real.exp_pos
  exp_add := Real.exp_add
