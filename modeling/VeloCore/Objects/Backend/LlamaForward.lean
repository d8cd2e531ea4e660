import VeloCore.Objects.Gguf.Header
import VeloCore.Objects.Metal.Matvec
import VeloCore.Primitives.Slices

open List

-- What the code asks of `f32`
class F32 (φ : Type) where
  ofInt : Int → φ
  ofBits : UInt32 → φ
  add : φ → φ → φ
  sub : φ → φ → φ
  mul : φ → φ → φ
  div : φ → φ → φ
  max : φ → φ → φ
  powf : φ → φ → φ
  neg : φ → φ
  sqrt : φ → φ
  exp : φ → φ
  sin : φ → φ
  cos : φ → φ
  negInfinity : φ

namespace F32

variable {φ ψ : Type} [F32 φ]

def zero : φ :=
  ofInt 0

def one : φ :=
  ofInt 1

def f16ToF32 (bits : UInt16) : φ :=
  let sign := (bits >>> 15).toUInt32 <<< (31 : UInt32)
  let exp := bits >>> 10 &&& 0x1F
  let mant := (bits &&& 0x3FF).toUInt32
  if exp = 0 then
    let v := mul (ofInt mant.toNat) (div one (ofInt (2 ^ 24)))
    if sign ≠ 0 then neg v else v
  else if exp = 31 then
    ofBits (sign ||| (0x7F800000 : UInt32) ||| mant <<< (13 : UInt32))
  else
    ofBits (sign ||| (exp.toUInt32 + 112) <<< (23 : UInt32) ||| mant <<< (13 : UInt32))

def bf16ToF32 (bits : UInt16) : φ :=
  ofBits (bits.toUInt32 <<< 16)

def sum (l : List φ) : φ :=
  l.foldl add zero

-- `a.iter().zip(b).map(|(a, b)| a * b).sum()`
def dot (a b : List φ) : φ :=
  sum (zipWith mul a b)

omit [F32 φ] in
-- `for (x, y) in a.iter_mut().zip(b) { *x = f(x, y) }`
def zipMut (f : φ → ψ → φ) : List φ → List ψ → List φ
  | x :: xs, y :: ys => f x y :: zipMut f xs ys
  | xs, _            => xs

def rmsNorm (x w : List φ) (eps : φ) : List φ :=
  let rms := sqrt (add (div (sum (x.map fun v => mul v v)) (ofInt x.length)) eps)
  zipMut (fun xi wi => mul (div xi rms) wi) x w

def softmax (x : List φ) : List φ :=
  let m := x.foldl max negInfinity
  let x := x.map fun v => exp (sub v m)
  let inv := div one (sum x)
  x.map fun v => mul v inv

def silu (x : φ) : φ :=
  mul x (div one (add one (exp (neg x))))

instance : F32 Float32 where
  ofInt       := Float32.ofInt
  ofBits      := Float32.ofBits
  add         := (· + ·)
  sub         := (· - ·)
  mul         := (· * ·)
  div         := (· / ·)
  max         := Max.max
  powf        := Float32.pow
  neg         := (- ·)
  sqrt        := Float32.sqrt
  exp         := Float32.exp
  sin         := Float32.sin
  cos         := Float32.cos
  negInfinity := -1 / 0

end F32

section Dequantisation

open F32

variable {φ : Type} [F32 φ] {σ ε : Type}

-- `data.chunks_exact(n)`
def chunksExact (n : Nat) (data : List UInt8) : List (List UInt8) :=
  (range (data.length / n)).map fun i => (data.drop (i * n)).take n

def le16 (lo hi : UInt8) : UInt16 :=
  .ofNat (ofLeBytes [lo, hi])

def copyF32Row (data : List UInt8) (out : List φ) : List φ :=
  zipMut (fun _ chunk => ofBits (.ofNat (ofLeBytes chunk))) out (chunksExact 4 data)

def dequantF16Row (data : List UInt8) (out : List φ) : List φ :=
  zipMut (fun _ chunk => f16ToF32 (.ofNat (ofLeBytes chunk))) out (chunksExact 2 data)

def dequantBf16Row (data : List UInt8) (out : List φ) : List φ :=
  zipMut (fun _ chunk => bf16ToF32 (.ofNat (ofLeBytes chunk))) out (chunksExact 2 data)

-- The block is written to `out[base..]`.
def dequantQ4_0Block (block : List UInt8) (base : Nat) (out : List φ) : Eff σ ε (List φ) := do
  let lo ← Eff.index block 0
  let hi ← Eff.index block 1
  let delta := f16ToF32 (le16 lo hi)
  let nibbles ← Eff.slice block 2 18
  Eff.forEach (fun out i => do
    let byte ← Eff.index nibbles i
    let lo : Int := (byte &&& 0x0F).toNat - 8
    let hi : Int := (byte >>> 4 &&& 0x0F).toNat - 8
    let out ← Eff.put out (base + i * 2) (mul delta (ofInt lo))
    Eff.put out (base + (i * 2 + 1)) (mul delta (ofInt hi))) (range 16) out

def dequantQ4_0Row (data : List UInt8) (out : List φ) : Eff σ ε (List φ) :=
  Eff.forEach (fun out b => do
    let block ← Eff.slice data (b * 18) ((b + 1) * 18)
    dequantQ4_0Block block (b * 32) out) (range (out.length / 32)) out

-- The scales of the eight parts of a block, out of its 12 bytes
def unpackQ4kScales (s : List UInt8) : List (UInt8 × UInt8) :=
  let at' (i : Nat) : UInt8 := s[i]?.getD 0
  let mask (b : UInt8) : UInt8 := b &&& 0x3F
  let low (i : Nat) : UInt8 × UInt8 :=
    (mask (at' i) ||| (at' (i + 8) &&& 0x0F) <<< (4 : UInt8),
      mask (at' (i + 4)) ||| (at' (i + 8) >>> (4 : UInt8)) <<< (4 : UInt8))
  let high (i : Nat) : UInt8 × UInt8 :=
    (mask (at' (i + 8)), at' (i + 8) >>> (4 : UInt8) ||| (at' (i + 4) >>> (4 : UInt8)) <<< (4 : UInt8))
  ((range 4).map low ++ (range 4).map high).map fun (sc, mn) => (mask sc, mask mn)

def dequantQ4kBlock (block : List UInt8) (base : Nat) (out : List φ) : Eff σ ε (List φ) := do
  let d₀ ← Eff.index block 0
  let d₁ ← Eff.index block 1
  let d : φ := f16ToF32 (le16 d₀ d₁)
  let m₀ ← Eff.index block 2
  let m₁ ← Eff.index block 3
  let dmin : φ := f16ToF32 (le16 m₀ m₁)
  let scalesBytes ← Eff.slice block 4 16
  let qs ← Eff.slice block 16 144
  Eff.forEach (fun out (part : (UInt8 × UInt8) × Nat) => do
    let ((sc, mnSc), sub') := part
    let scale := mul d (ofInt sc.toNat)
    let min := mul dmin (ofInt mnSc.toNat)
    Eff.forEach (fun out i => do
      let byte ← Eff.index qs (sub' * 16 + i)
      let lo : φ := ofInt (byte &&& 0x0F).toNat
      let hi : φ := ofInt (byte >>> 4 &&& 0x0F).toNat
      let out ← Eff.put out (base + (sub' * 32 + i * 2)) (F32.sub (mul scale lo) min)
      Eff.put out (base + (sub' * 32 + i * 2 + 1)) (F32.sub (mul scale hi) min)) (range 16) out)
    (unpackQ4kScales scalesBytes).zipIdx out

def dequantQ4kRow (data : List UInt8) (out : List φ) : Eff σ ε (List φ) :=
  Eff.forEach (fun out b => do
    let block ← Eff.slice data (b * 144) ((b + 1) * 144)
    dequantQ4kBlock block (b * 256) out) (range (out.length / 256)) out

def dequantRow (dtype : GgmlType) (data : List UInt8) (out : List φ) : Eff σ ε (List φ) :=
  match dtype with
  | .f32         => pure (copyF32Row data out)
  | .f16         => pure (dequantF16Row data out)
  | .bf16        => pure (dequantBf16Row data out)
  | .q4_0 | .q4_1 => dequantQ4_0Row data out
  | .q4K         => dequantQ4kRow data out
  | _            => pure (out.map fun _ => zero)

-- One row of the matrix is decoded at a time, into the same place.
def matvecQuant (out : List φ) (data : List UInt8) (dtype : GgmlType) (x : List φ) (rows cols : Nat) :
    Eff σ ε (List φ) := do
  let rowBytes := dtype.rowBytes cols
  let (out, _) ← Eff.forEach (fun ((out, row) : List φ × List φ) r => do
    let src ← Eff.slice data (r * rowBytes) ((r + 1) * rowBytes)
    let row ← dequantRow dtype src row
    let o ← Eff.index out r
    let out ← Eff.put out r (add o (dot row x))
    pure (out, row)) (range rows) (out, replicate cols zero)
  pure out

def applyRope (x : List φ) (pos nHeads headDim half : Nat) (freqBase : φ) : Eff σ ε (List φ) :=
  Eff.forEach (fun x (h : Nat) =>
    Eff.forEach (fun x (i : Nat) => do
      let offset := h * headDim
      let theta := div (ofInt pos) (powf freqBase (div (mul (ofInt 2) (ofInt i)) (ofInt headDim)))
      let x₀ ← Eff.index x (offset + i)
      let x₁ ← Eff.index x (offset + i + half)
      let x ← Eff.put x (offset + i) (F32.sub (mul x₀ (cos theta)) (mul x₁ (sin theta)))
      Eff.put x (offset + i + half) (add (mul x₀ (sin theta)) (mul x₁ (cos theta)))) (range half) x) (range nHeads) x

end Dequantisation

namespace ModelLoader

-- The keys and the values of each layer, one position after the other
structure KvCache (φ : Type) where
  nHeadKv : Nat
  headDim : Nat
  k : List (List φ)
  v : List (List φ)
  pos : Nat

namespace KvCache

variable {φ : Type} [F32 φ]

def new (nLayer nHeadKv headDim nCtx : Nat) : KvCache φ where
  nHeadKv
  headDim
  k := replicate nLayer (replicate (nCtx * nHeadKv * headDim) F32.zero)
  v := replicate nLayer (replicate (nCtx * nHeadKv * headDim) F32.zero)
  pos := 0

omit [F32 φ] in
def storeKv (layer pos : Nat) (k v : List φ) : Eff (KvCache φ) ε Unit := do
  let kv ← Eff.get
  let stride := kv.nHeadKv * kv.headDim
  let start := pos * stride
  let kRows ← Eff.index kv.k layer
  let kRows ← Eff.copyInto kRows start (start + stride) k
  Eff.modify fun kv => { kv with k := kv.k.set layer kRows }
  let vRows ← Eff.index kv.v layer
  let vRows ← Eff.copyInto vRows start (start + stride) v
  Eff.modify fun kv => { kv with v := kv.v.set layer vRows }

-- The cache is of the size that `new` makes it for a model.
structure Shaped (m : ModelMeta) (kv : KvCache φ) : Prop where
  nHeadKv_eq : kv.nHeadKv = m.nHeadKv
  headDim_eq : kv.headDim = m.headDim
  k_length   : kv.k.length = m.nLayer
  v_length   : kv.v.length = m.nLayer
  k_rows     : ∀ rows ∈ kv.k, rows.length = m.nCtx * m.nHeadKv * m.headDim
  v_rows     : ∀ rows ∈ kv.v, rows.length = m.nCtx * m.nHeadKv * m.headDim

end KvCache

-- The matrices that a layer goes through the rows of, with the rows and columns that it takes them to have
def ModelMeta.layerUsed (m : ModelMeta) (l : Nat) : List Product :=
  [ ⟨.layer l .wq, m.nHead * m.headDim, m.nEmbd⟩,
    ⟨.layer l .wk, m.nHeadKv * m.headDim, m.nEmbd⟩,
    ⟨.layer l .wv, m.nHeadKv * m.headDim, m.nEmbd⟩,
    ⟨.layer l .wo, m.nEmbd, m.nHead * m.headDim⟩,
    ⟨.layer l .w1, m.nFf, m.nEmbd⟩,
    ⟨.layer l .w3, m.nFf, m.nEmbd⟩,
    ⟨.layer l .w2, m.nEmbd, m.nFf⟩ ]

-- A token is a number of 32 bits.
def ModelMeta.used (m : ModelMeta) : List Product :=
  ⟨.tokenEmbd, min m.nVocab (2 ^ 32), m.nEmbd⟩ :: (range m.nLayer).flatMap m.layerUsed ++ [⟨.output, m.nVocab, m.nEmbd⟩]

-- There are keys and values for the heads to look at.
def ModelMeta.Grouped (m : ModelMeta) : Prop :=
  m.headDim = 0 ∨ 0 < m.nHeadKv

instance (m : ModelMeta) : Decidable m.Grouped :=
  inferInstanceAs (Decidable (_ ∨ _))

namespace WeightStore

-- The rows of a matrix, each in blocks of its own, take no more bytes than its elements do in blocks that go on from one
-- row to the next.
def Whole (store : WeightStore) (p : Product) : Prop :=
  ∀ info, store.index.lookup p.name.text = some info →
    p.rows * info.dtype.rowBytes p.cols ≤ Gguf.size info.dtype info.shape

instance (store : WeightStore) : DecidablePred store.Whole := fun p =>
  inferInstanceAs (Decidable (∀ info ∈ store.index.lookup p.name.text, _ ≤ _))

open F32

variable {φ : Type} [F32 φ] (store : WeightStore)

def weightsRef (name : TensorName) : Eff (KvCache φ) LoadError (List UInt8 × GgmlType) := do
  let data ← store.require name.text
  match store.dtype name.text with
  | some dtype => pure (data, dtype)
  | none       => Eff.panic

-- A vector of `n` numbers
def loadVec (name : TensorName) (n : Nat) : Eff (KvCache φ) LoadError (List φ) := do
  let (data, dtype) ← store.weightsRef name
  dequantRow dtype data (replicate n zero)

-- A product with a new vector of zeros
def product (name : TensorName) (x : List φ) (rows cols : Nat) : Eff (KvCache φ) LoadError (List φ) := do
  let (data, dtype) ← store.weightsRef name
  matvecQuant (replicate rows zero) data dtype x rows cols

def embedding (token : TokenId) : Eff (KvCache φ) LoadError (List φ) := do
  let (data, dtype) ← store.weightsRef .tokenEmbd
  let rowBytes := dtype.rowBytes store.modelMeta.nEmbd
  let start := token.toNat * rowBytes
  let row ← Eff.slice data start (start + rowBytes)
  dequantRow dtype row (replicate store.modelMeta.nEmbd zero)

-- The head `h` of the attention over the positions up to `pos`
def attendHead (layer pos h : Nat) (q xAttn : List φ) : Eff (KvCache φ) LoadError (List φ) := do
  let headDim := store.modelMeta.headDim
  let kvStride := store.modelMeta.nHeadKv * headDim
  let kvHead := h * store.modelMeta.nHeadKv / store.modelMeta.nHead
  let qH ← Eff.slice q (h * headDim) ((h + 1) * headDim)
  let kv ← Eff.get
  let scores ← Eff.forEach (fun scores t => do
    let rows ← Eff.index kv.k layer
    let kT ← Eff.slice rows (t * kvStride + kvHead * headDim) (t * kvStride + kvHead * headDim + headDim)
    Eff.put scores t (div (dot qH kT) (sqrt (ofInt headDim)))) (range (pos + 1)) (replicate (pos + 1) zero)
  let scores := softmax scores
  let outH ← Eff.slice xAttn (h * headDim) ((h + 1) * headDim)
  let outH ← Eff.forEach (fun outH t => do
    let rows ← Eff.index kv.v layer
    let vT ← Eff.slice rows (t * kvStride + kvHead * headDim) (t * kvStride + kvHead * headDim + headDim)
    let s ← Eff.index scores t
    pure (zipMut (fun o v => add o (mul s v)) outH vT)) (range (pos + 1)) outH
  Eff.copyInto xAttn (h * headDim) ((h + 1) * headDim) outH

def attentionBlock (layer pos : Nat) (x : List φ) : Eff (KvCache φ) LoadError (List φ) := do
  let m := store.modelMeta
  let normW ← store.loadVec (.layer layer .attentionNorm) m.nEmbd
  let xb := rmsNorm x normW (ofBits m.normEps)
  let q ← store.product (.layer layer .wq) xb (m.nHead * m.headDim) m.nEmbd
  let k ← store.product (.layer layer .wk) xb (m.nHeadKv * m.headDim) m.nEmbd
  let v ← store.product (.layer layer .wv) xb (m.nHeadKv * m.headDim) m.nEmbd
  let q ← applyRope q pos m.nHead m.headDim (m.headDim / 2) (ofBits m.ropeFreqBase)
  let k ← applyRope k pos m.nHeadKv m.headDim (m.headDim / 2) (ofBits m.ropeFreqBase)
  KvCache.storeKv layer pos k v
  let xAttn ← Eff.forEach (fun xAttn h => store.attendHead layer pos h q xAttn) (range m.nHead)
    (replicate (m.nHead * m.headDim) zero)
  let xOut ← store.product (.layer layer .wo) xAttn m.nEmbd (m.nHead * m.headDim)
  pure (zipMut add x xOut)

def ffnBlock (layer : Nat) (x : List φ) : Eff (KvCache φ) LoadError (List φ) := do
  let m := store.modelMeta
  let ffnNormW ← store.loadVec (.layer layer .ffnNorm) m.nEmbd
  let xb₂ := rmsNorm x ffnNormW (ofBits m.normEps)
  let gate ← store.product (.layer layer .w1) xb₂ m.nFf m.nEmbd
  let up ← store.product (.layer layer .w3) xb₂ m.nFf m.nEmbd
  let gate := zipMut (fun g u => mul (silu g) u) gate up
  let ffnOut ← store.product (.layer layer .w2) gate m.nEmbd m.nFf
  pure (zipMut add x ffnOut)

def outputHead (x : List φ) : Eff (KvCache φ) LoadError (List φ) := do
  let m := store.modelMeta
  let outNormW ← store.loadVec .outputNorm m.nEmbd
  let x := rmsNorm x outNormW (ofBits m.normEps)
  let lmHeadName := if (store.index.lookup TensorName.output.text).isSome then TensorName.output else .tokenEmbd
  store.product lmHeadName x m.nVocab m.nEmbd

def forwardOne (token : TokenId) (pos : Nat) : Eff (KvCache φ) LoadError (List φ) := do
  let x ← store.embedding token
  let x ← Eff.forEach (fun x layer => do
    let x ← store.attentionBlock layer pos x
    store.ffnBlock layer x) (range store.modelMeta.nLayer) x
  store.outputHead x

end WeightStore
end ModelLoader
