import VeloCore.Objects.Backend.LlamaForward

open List F32

-- A rotation of two numbers of a buffer. The angle is that of the position, slowed down by the power of the base with
-- the exponent over the size of a head.
structure Turn where
  first : Nat
  second : Nat
  pos : Nat
  exponent : Nat
deriving DecidableEq, Repr

namespace Turn

def touches (turn : Turn) (c : Nat) : Bool :=
  turn.first = c || turn.second = c

variable {φ σ ε : Type} [F32 φ]

def rotate (theta : φ) (x : List φ) (turn : Turn) : Eff σ ε (List φ) := do
  let x₀ ← Eff.index x turn.first
  let x₁ ← Eff.index x turn.second
  let x ← Eff.put x turn.first (F32.sub (mul x₀ (cos theta)) (mul x₁ (sin theta)))
  Eff.put x turn.second (add (mul x₀ (sin theta)) (mul x₁ (cos theta)))

-- `pos as f32 / freq_base.powf(2.0 * i as f32 / head_dim as f32)`
def cpuAngle (headDim : Nat) (freqBase : φ) (turn : Turn) : φ :=
  div (ofInt turn.pos) (powf freqBase (div (mul (ofInt 2) (ofInt (turn.exponent / 2 : Nat))) (ofInt headDim)))

-- `(float)pos * pow(freq_base, -(float)h_dim_idx / (float)head_dim)`
def kernelAngle (headDim : Nat) (freqBase : φ) (turn : Turn) : φ :=
  mul (ofInt turn.pos) (powf freqBase (div (neg (ofInt turn.exponent)) (ofInt headDim)))

end Turn

-- The rotations of `apply_rope`
def cpuTurns (pos nHeads headDim : Nat) : List Turn :=
  (range nHeads).flatMap fun h => (range (headDim / 2)).map fun i =>
    ⟨h * headDim + i, h * headDim + i + headDim / 2, pos, 2 * i⟩

-- What a thread of `rope` does to the queries, and to the keys as well
def ropeThread (pos headDim tpig : Nat) : Turn :=
  let i := uint (tpig * 2)
  { first := i, second := uint (i + 1), pos, exponent := i % headDim }

namespace ModelLoader.ModelMeta

variable (m : ModelMeta)

-- The rotations that `forward` dispatches
def kernelTurns (pos : Nat) : List Turn :=
  let nRope := (m.nHead + m.nHeadKv) * m.headDim / 2
  (range nRope).map (ropeThread (uint pos) (uint m.headDim))

-- The numbers of each of the buffers `q` and `k`
def ropeBuffer : Nat :=
  m.nEmbd

-- The kernel rotates what the CPU does, each number of a head once, and leaves the buffers alone otherwise.
structure RopeAgrees (m : ModelMeta) (pos : Nat) : Prop where
  queries     : ((m.kernelTurns pos).filter (·.first < m.nHead * m.headDim)).Perm (cpuTurns pos m.nHead m.headDim)
  keys        : ((m.kernelTurns pos).filter (·.first < m.nHeadKv * m.headDim)).Perm (cpuTurns pos m.nHeadKv m.headDim)
  queriesOnce : ∀ c < m.nHead * m.headDim, (m.kernelTurns pos).countP (·.touches c) = 1
  keysOnce    : ∀ c < m.nHeadKv * m.headDim, (m.kernelTurns pos).countP (·.touches c) = 1
  inside      : ∀ turn ∈ m.kernelTurns pos, turn.first < m.ropeBuffer ∧ turn.second < m.ropeBuffer

end ModelLoader.ModelMeta
