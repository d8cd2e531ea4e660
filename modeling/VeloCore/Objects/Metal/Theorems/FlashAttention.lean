import VeloCore.Objects.Metal.FlashAttention
import VeloCore.Objects.Metal.Theorems.Paging
import VeloCore.Objects.Backend.Exact
import VeloCore.Primitives.OnlineSoftmax
import VeloCore.Primitives.Fills

open List F32 Eff

section Exact

variable [ExactFunctions]

open OnlineSoftmax

@[simp] theorem add_real (x y : ℝ) : (add (.real x) (.real y) : Exact) = .real (x + y) := rfl

@[simp] theorem sub_real (x y : ℝ) : (F32.sub (.real x) (.real y) : Exact) = .real (x - y) := rfl

@[simp] theorem mul_real (x y : ℝ) : (mul (.real x) (.real y) : Exact) = .real (x * y) := rfl

@[simp] theorem div_real (x y : ℝ) : (div (.real x) (.real y) : Exact) = .real (x / y) := rfl

@[simp] theorem max_real (x y : ℝ) : (F32.max (.real x) (.real y) : Exact) = .real (Max.max x y) := rfl

@[simp] theorem exp_real (x : ℝ) : (F32.exp (.real x) : Exact) = .real (ExactFunctions.exp x) := rfl

@[simp] theorem sqrt_real (x : ℝ) : (F32.sqrt (.real x) : Exact) = .real (ExactFunctions.sqrt x) := rfl

@[simp] theorem ofInt_real (n : ℤ) : (ofInt n : Exact) = .real n := rfl

theorem zero_real : (zero : Exact) = .real 0 := by simp [zero]

theorem one_real : (one : Exact) = .real 1 := by simp [one]

-- Numbers that are added up one after another
theorem foldl_add_real (f : ℕ → ℝ) (c : ℝ) (n : ℕ) :
    (range n).foldl (fun a t => add a (.real (f t))) (Exact.real c) = .real (c + ∑ t ∈ Finset.range n, f t) := by
  induction n
  case zero      => simp
  case succ n hi => rw [range_succ, foldl_append, hi, Finset.sum_range_succ, foldl_cons, foldl_nil, add_real, add_assoc]

theorem sum_real (f : ℕ → ℝ) (n : ℕ) : F32.sum ((range n).map fun t => Exact.real (f t)) =
    .real (∑ t ∈ Finset.range n, f t) := by
  rw [F32.sum, foldl_map, zero_real, foldl_add_real, zero_add]

omit [ExactFunctions] in
theorem zipWith_range (f : α → β → γ) (a : ℕ → α) (b : ℕ → β) (n : ℕ) :
    zipWith f ((range n).map a) ((range n).map b) = (range n).map fun d => f (a d) (b d) := by
  simp [zipWith_map, zipWith_self]

theorem dot_real (a b : ℕ → ℝ) (n : ℕ) : dot ((range n).map fun d => .real (a d)) ((range n).map fun d => .real (b d)) =
    Exact.real (∑ d ∈ Finset.range n, a d * b d) := by
  rw [dot, zipWith_range]
  simp only [mul_real, sum_real]

theorem foldl_max_real (s : ℕ → ℝ) (n : ℕ) :
    ((range (n + 1)).map fun t => Exact.real (s t)).foldl F32.max negInfinity = .real (runningMax s n) := by
  rw [foldl_map]
  induction n
  case zero      => rfl
  case succ n hi => rw [range_succ, foldl_append, hi, foldl_cons, foldl_nil, max_real, runningMax]

-- The softmax of all scores at once
theorem softmax_real (s : ℕ → ℝ) (n : ℕ) : softmax ((range (n + 1)).map fun t => Exact.real (s t)) =
    (range (n + 1)).map fun t => .real (ExactFunctions.exp (s t - runningMax s n) * (1 / total ExactFunctions.exp s n)) := by
  rw [softmax, foldl_max_real, map_map]
  simp only [Function.comp_def, sub_real, exp_real, sum_real, map_map, one_real, div_real, mul_real]
  rfl

end Exact

namespace PagedArgs

-- Where the row of a position is in a pool, with these pages
def placeIn (pages : List UInt32) (blockSize t : ℕ) : ℕ :=
  (pages.getD (t / blockSize) 0).toNat * blockSize + t % blockSize

-- The pages of the slot have room for the positions up to `pos`, and their rows are numbered with 32 bits.
structure Maps (args : PagedArgs) (pages : List UInt32) (pos : ℕ) : Prop where
  covered   : pos < pages.length * args.blockSize
  mapping   : ∀ i (h : i < pages.length), args.slotMapping (args.slotId * args.maxPages + i) = pages[i]
  index_lt  : args.slotId * args.maxPages + pages.length ≤ 2 ^ 32
  offset_lt : ∀ t ≤ pos, (placeIn pages args.blockSize t + 1) * (args.nHeadKv * args.headDim) ≤ 2 ^ 32

-- The pool holds the rows of these positions.
def Pooled (args : PagedArgs) (pages : List UInt32) (pos : ℕ) (rows : List ℝ) (pool : ℕ → ℝ) : Prop :=
  ∀ t ≤ pos, ∀ j < args.nHeadKv * args.headDim, rows[t * (args.nHeadKv * args.headDim) + j]? =
    some (pool (placeIn pages args.blockSize t * (args.nHeadKv * args.headDim) + j))

variable {args : PagedArgs} {pages : List UInt32} {pos t : ℕ} {rows : List ℝ} {pool : ℕ → ℝ}

theorem Maps.place_eq (h : args.Maps pages pos) (ht : t ≤ pos) : args.place t = placeIn pages args.blockSize t := by
  have hb : 0 < args.blockSize := Nat.pos_of_mul_pos_left (Nat.zero_lt_of_lt h.covered)
  have hlt : t / args.blockSize < pages.length := (Nat.div_lt_iff_lt_mul hb).mpr (ht.trans_lt h.covered)
  have hindex := h.index_lt
  rw [place, placeIn, blockIdx, tableIndex, uint_eq (by omega), h.mapping _ hlt, getD_eq_getElem _ _ hlt, tokenInBlock]

theorem Pooled.getD (h : args.Pooled pages pos rows pool) (ht : t ≤ pos) (hj : o + d < args.nHeadKv * args.headDim) :
    pool (placeIn pages args.blockSize t * (args.nHeadKv * args.headDim) + o + d) =
      rows[t * (args.nHeadKv * args.headDim) + o + d]?.getD 0 := by
  rw [Nat.add_assoc, Nat.add_assoc, h t ht _ hj, Option.getD_some]

theorem Pooled.lt_length (h : args.Pooled pages pos rows pool) (ht : t ≤ pos) (hj : o + d < args.nHeadKv * args.headDim) :
    t * (args.nHeadKv * args.headDim) + o + d < rows.length := by
  rw [Nat.add_assoc]
  exact (List.getElem?_eq_some_iff.mp (h t ht _ hj)).choose

end PagedArgs

namespace FlashAttention

variable [ExactFunctions]

open OnlineSoftmax

-- What the loop knows after `n + 1` tokens with these scores and values
noncomputable def after (s : ℕ → ℝ) (v : ℕ → ℕ → ℝ) (headDim n : ℕ) : State Exact where
  m   := .real (runningMax s n)
  l   := .real (total ExactFunctions.exp s n)
  acc := (range headDim).map fun d => .real (weighted ExactFunctions.exp s (v · d) n)

theorem foldl_step (q : ℕ → ℝ) (k v : ℕ → ℕ → ℝ) (c : ℝ) (headDim n : ℕ) :
    (range (n + 1)).foldl (fun s t => step ((range headDim).map fun d => Exact.real (q d)) (.real c) s
      ((range headDim).map fun d => Exact.real (k t d)) ((range headDim).map fun d => Exact.real (v t d))) (init headDim) =
        after (fun t => (∑ d ∈ Finset.range headDim, q d * k t d) * c) v headDim n := by
  induction n
  case zero =>
    -- Minus infinity is the first greatest score, and its weight is zero.
    have hacc : replicate headDim (zero : Exact) = (range headDim).map fun _ => .real 0 := by simp [zero_real]
    have hinf (x : ℝ) : (F32.max negInfinity (.real x) : Exact) = .real x := rfl
    have hexp (x : ℝ) : (F32.exp (F32.sub negInfinity (.real x)) : Exact) = .real 0 := rfl
    rw [range_one, foldl_cons, foldl_nil, init, hacc]
    simp only [step, after, dot_real, mul_real, hinf, hexp, sub_real, exp_real, add_real, zipWith_range, zero_real, mul_zero,
      zero_add, total, weighted, runningMax, Finset.sum_range_one]
  case succ n hi =>
    rw [range_succ, foldl_append, hi, foldl_cons, foldl_nil]
    simp only [step, after, dot_real, mul_real, max_real, sub_real, exp_real, add_real, zipWith_range]
    simp only [total_succ ExactFunctions.exp_add, weighted_succ ExactFunctions.exp_add, runningMax]

-- The softmax of the scores as the weights of the values
noncomputable def output (q : ℕ → ℝ) (k v : ℕ → ℕ → ℝ) (c : ℝ) (headDim n : ℕ) : List Exact :=
  let s (t : ℕ) := (∑ d ∈ Finset.range headDim, q d * k t d) * c
  (range headDim).map fun d => .real (weighted ExactFunctions.exp s (v · d) n / total ExactFunctions.exp s n)

theorem length_output (q : ℕ → ℝ) (k v : ℕ → ℕ → ℝ) (c : ℝ) (headDim n : ℕ) :
    (output q k v c headDim n).length = headDim := by
  simp [output]

variable {args : PagedArgs} {kPool vPool : ℕ → ℝ} {q : List ℝ} {place : ℕ → ℕ} {pos nHead headIdx : ℕ}

-- A thread reads one row after the other where the page table leads to.
theorem run_eq (hkv : args.nHeadKv ∣ nHead) (hh : headIdx < nHead) (hb : 0 < args.blockSize) (hdim : args.headDim ≤ 128)
    (hpos : pos + 1 < 2 ^ 32) (hq : nHead * args.headDim = q.length) (hq' : q.length < 2 ^ 32)
    (hplace : ∀ t ≤ pos, args.place t = place t ∧ (place t + 1) * (args.nHeadKv * args.headDim) ≤ 2 ^ 32) {o : ℕ}
    (ho : headIdx * args.nHeadKv / nHead * args.headDim = o) {k v : ℕ → ℕ → ℝ}
    (hk : ∀ t ≤ pos, ∀ d < args.headDim, kPool (place t * (args.nHeadKv * args.headDim) + o + d) = k t d)
    (hv : ∀ t ≤ pos, ∀ d < args.headDim, vPool (place t * (args.nHeadKv * args.headDim) + o + d) = v t d) :
    run args (fun a => .real (kPool a)) (fun a => .real (vPool a)) (q.map .real) pos nHead headIdx =
      some (output (fun d => q[headIdx * args.headDim + d]?.getD 0) k v (1 / ExactFunctions.sqrt args.headDim) args.headDim
        pos) := by
  have hn := Nat.zero_lt_of_lt hh
  have hm := Nat.pos_of_dvd_of_pos hkv hn
  have hgroup : 0 < nHead / args.nHeadKv := Nat.div_pos (Nat.le_of_dvd hn hkv) hm
  have hhead : headIdx / (nHead / args.nHeadKv) < args.nHeadKv := (exists_head_iff hn hkv).mp ⟨headIdx, hh, rfl⟩
  rw [mul_div_eq_div_div hm hn hkv] at ho
  have hrow (pool : ℕ → ℝ) (x : ℕ → ℕ → ℝ) (t : ℕ) (ht : t ≤ pos) (hx : ∀ d < args.headDim,
      pool (place t * (args.nHeadKv * args.headDim) + o + d) = x t d) : ((range args.headDim).map fun d =>
        Exact.real (pool (args.kvHead t (headIdx / (nHead / args.nHeadKv)) + d))) =
          (range args.headDim).map fun d => .real (x t d) := by
    have ⟨heq, hlt⟩ := hplace t ht
    refine map_congr_left fun d hd => ?_
    have hd := mem_range.mp hd
    have hrecord := Nat.mul_lt_mul_of_pos_right hhead (Nat.zero_lt_of_lt hd)
    rw [Nat.succ_mul] at hlt
    rw [PagedArgs.kvHead, PagedArgs.readOffset_eq (by rw [heq]; omega), heq, ho, hx d hd]
  have hheadQ : ((range args.headDim).map fun d => (q.map Exact.real)[uint (headIdx * args.headDim) + d]?.getD zero) =
      (range args.headDim).map fun d => .real (q[headIdx * args.headDim + d]?.getD 0) := by
    refine map_congr_left fun d hd => ?_
    have hlt := hq ▸ Nat.digits_lt hh (mem_range.mp hd)
    rw [uint_eq (by omega), getElem?_map, getElem?_eq_getElem hlt]
    rfl
  have hrows (x : List Exact) (c : Exact) := foldl_ext (l := range (pos + 1)) _ _ (init args.headDim) fun s t ht =>
    have ht := Nat.le_of_lt_succ (mem_range.mp ht)
    congrArg₂ (step x c s) (hrow kPool k t ht (hk t ht)) (hrow vPool v t ht (hv t ht))
  rw [run, if_neg (by omega)]
  dsimp only
  rw [uint_eq hpos, hheadQ, hrows, one_real, ofInt_real, sqrt_real, div_real, Int.cast_natCast, foldl_step]
  simp [after, output, Function.comp_def]

end FlashAttention

namespace Eff

variable {σ ε : Type}

theorem slice_map {l : List ℝ} {start n : ℕ} (h : start + n ≤ l.length) :
    (Eff.slice (l.map Exact.real) start (start + n) : Eff σ ε (List Exact)) =
      pure ((range n).map fun d => .real (l[start + d]?.getD 0)) := by
  rw [slice_eq (Nat.le_add_right ..) (by rwa [length_map])]
  refine congrArg pure (ext_getElem (by simp; omega) fun d hd _ => ?_)
  have hd : d < n := by simp at hd; omega
  simp [getElem?_eq_getElem (show start + d < l.length by omega)]

end Eff

theorem zipMut_range (f : α → β → α) (a : ℕ → α) (b : ℕ → β) (n : ℕ) :
    zipMut f ((range n).map a) ((range n).map b) = (range n).map fun d => f (a d) (b d) := by
  have hzip (x : List α) (y : List β) (h : x.length = y.length) : zipMut f x y = zipWith f x y := by
    induction x generalizing y
    case nil => simp [zipMut]
    case cons i x hi =>
      cases y
      case nil      => simp at h
      case cons j y => simp [zipMut, hi y (by simpa using h)]
  rw [hzip _ _ (by simp), zipWith_range]

namespace ModelLoader.WeightStore

open OnlineSoftmax FlashAttention

variable [ExactFunctions] {store : WeightStore} {kv : KvCache Exact} {layer pos h : ℕ} {q kRows vRows : List ℝ}
  {xAttn : List Exact}

-- The sum over the values of all positions
theorem foldl_zipMut (w : ℕ → ℝ) (v : ℕ → ℕ → ℝ) (headDim n : ℕ) :
    (range n).foldl (fun o t => zipMut (fun o x => add o (mul (.real (w t)) x)) o
      ((range headDim).map fun d => Exact.real (v t d))) ((range headDim).map fun _ => .real 0) =
        (range headDim).map fun d => .real (∑ t ∈ Finset.range n, w t * v t d) := by
  induction n
  case zero => simp
  case succ n hi =>
    rw [range_succ, foldl_append, hi, foldl_cons, foldl_nil, zipMut_range]
    simp only [mul_real, add_real, Finset.sum_range_succ]

section Loops

variable {rows : List ℝ} {cache : List (List Exact)} {stride o headDim n : ℕ}

-- The loop over the keys
theorem scores_eq (hrows : cache[layer]? = some (rows.map .real)) (hlen : ∀ t < n, t * stride + o + headDim ≤ rows.length)
    (qH : ℕ → ℝ) : Eff.forEach (fun scores t => do
      let rows ← (Eff.index cache layer : Eff (KvCache Exact) LoadError (List Exact))
      let kT ← Eff.slice rows (t * stride + o) (t * stride + o + headDim)
      Eff.put scores t (div (dot ((range headDim).map fun d => .real (qH d)) kT) (sqrt (ofInt headDim))))
      (range n) (replicate n zero) =
        pure ((range n).map fun t => .real ((∑ d ∈ Finset.range headDim, qH d * rows[t * stride + o + d]?.getD 0) *
          (1 / ExactFunctions.sqrt headDim))) := by
  have hbody (t : ℕ) (ht : t < n) (scores : List Exact) : (do
      let rows ← (Eff.index cache layer : Eff (KvCache Exact) LoadError (List Exact))
      let kT ← Eff.slice rows (t * stride + o) (t * stride + o + headDim)
      Eff.put scores t (div (dot ((range headDim).map fun d => .real (qH d)) kT) (sqrt (ofInt headDim)))) =
        Eff.put scores t (.real ((∑ d ∈ Finset.range headDim, qH d * rows[t * stride + o + d]?.getD 0) *
          (1 / ExactFunctions.sqrt headDim))) := by
    rw [index_some hrows, pure_bind, slice_map (hlen t ht), pure_bind, dot_real, ofInt_real, sqrt_real, div_real,
      div_eq_mul_one_div, Int.cast_natCast]
  rw [map_eq_flatMap (l := range n)]
  refine Fills.eq_pure (Fills.forEach (w := 1) fun j t ht => ⟨rfl, ?_⟩) (by simp)
  have ⟨hlt, heq⟩ := List.getElem?_eq_some_iff.mp ht
  rw [length_range] at hlt
  rw [getElem_range] at heq
  subst heq
  rw [Nat.mul_one, Nat.zero_add, funext (hbody j hlt)]
  exact Fills.put

-- The loop over the values
theorem values_eq (hrows : cache[layer]? = some (rows.map .real)) (hlen : ∀ t < n, t * stride + o + headDim ≤ rows.length)
    (w : ℕ → ℝ) : Eff.forEach (fun outH t => do
      let rows ← (Eff.index cache layer : Eff (KvCache Exact) LoadError (List Exact))
      let vT ← Eff.slice rows (t * stride + o) (t * stride + o + headDim)
      let s ← Eff.index ((range n).map fun t => Exact.real (w t)) t
      pure (zipMut (fun o v => add o (mul s v)) outH vT))
      (range n) ((range headDim).map fun _ => .real 0) =
        pure ((range headDim).map fun d => .real (∑ t ∈ Finset.range n, w t * rows[t * stride + o + d]?.getD 0)) := by
  rw [forEach_eq_pure (g := fun outH t => zipMut (fun o v => add o (mul (.real (w t)) v)) outH
    ((range headDim).map fun d => .real (rows[t * stride + o + d]?.getD 0))), foldl_zipMut]
  intro t ht outH
  have ht := mem_range.mp ht
  rw [index_some hrows, pure_bind, slice_map (hlen t ht), pure_bind, index_eq (by simpa using ht), pure_bind]
  simp

end Loops

-- What the CPU computes for a head, with the keys and the values of the positions up to `pos`
theorem attendHead_eq {headDim stride o : ℕ} (hd : store.modelMeta.headDim = headDim)
    (hstride : store.modelMeta.nHeadKv * headDim = stride) (hh : h < store.modelMeta.nHead)
    (ho : h * store.modelMeta.nHeadKv / store.modelMeta.nHead * headDim = o) (hq : q.length = store.modelMeta.nHead * headDim)
    (hx : xAttn.length = store.modelMeta.nHead * headDim)
    (hzero : (xAttn.take (h * headDim + headDim)).drop (h * headDim) = replicate headDim zero)
    (hk : kv.k[layer]? = some (kRows.map .real)) (hv : kv.v[layer]? = some (vRows.map .real))
    (hlen : ∀ t ≤ pos, t * stride + o + headDim ≤ kRows.length ∧ t * stride + o + headDim ≤ vRows.length) :
    (store.attendHead layer pos h (q.map .real) xAttn : Eff (KvCache Exact) LoadError (List Exact)) kv =
      (.ok (xAttn.overwrite (h * headDim) (output (fun d => q[h * headDim + d]?.getD 0)
        (fun t d => kRows[t * stride + o + d]?.getD 0) (fun t d => vRows[t * stride + o + d]?.getD 0)
        (1 / ExactFunctions.sqrt headDim) headDim pos)), kv) := by
  have hrow : (h + 1) * headDim ≤ store.modelMeta.nHead * headDim := Nat.mul_le_mul_right _ hh
  have hsucc : (h + 1) * headDim = h * headDim + headDim := Nat.succ_mul ..
  have hnew : replicate headDim (zero : Exact) = (range headDim).map fun _ => .real 0 := by simp [zero_real]
  unfold attendHead
  simp only [hd, hstride, ho]
  rw [hsucc] at hrow ⊢
  rw [slice_map (by omega), pure_bind, bind_ok (show Eff.get kv = (.ok kv, kv) from rfl),
    scores_eq hk fun t ht => (hlen t (Nat.le_of_lt_succ ht)).left]
  rw [pure_bind, softmax_real, slice_eq (Nat.le_add_right ..) (by omega), pure_bind, hzero, hnew]
  rw [values_eq hv fun t ht => (hlen t (Nat.le_of_lt_succ ht)).right]
  rw [pure_bind, Eff.copyInto, if_pos ⟨Nat.le_add_right .., by omega, by simp⟩, overwrite, length_output, output]
  simp only [weighted_div_total]
  rfl

end ModelLoader.WeightStore

namespace ModelLoader.WeightStore

open FlashAttention

variable [ExactFunctions] {store : WeightStore} {kv : KvCache Exact} {layer pos h : ℕ} {q kRows vRows : List ℝ}
  {args : PagedArgs} {pages : List UInt32} {kPool vPool : ℕ → ℝ}

-- The threads of the kernel write what the loops of the CPU compute for all heads.
theorem run_eq_attendHead (hkv : store.modelMeta.nHeadKv ∣ store.modelMeta.nHead)
    (hdim : 1 ≤ store.modelMeta.headDim ∧ store.modelMeta.headDim ≤ 128)
    (hpos : pos + 1 < 2 ^ 32) (hargs : args.Maps pages pos) (hn : args.nHeadKv = store.modelMeta.nHeadKv)
    (hd : args.headDim = store.modelMeta.headDim) (hq : q.length = store.modelMeta.nHead * store.modelMeta.headDim)
    (hq' : q.length < 2 ^ 32) (hk : kv.k[layer]? = some (kRows.map .real)) (hv : kv.v[layer]? = some (vRows.map .real))
    (hkp : args.Pooled pages pos kRows kPool) (hvp : args.Pooled pages pos vRows vPool) : ∃ out : ℕ → List Exact,
      (∀ h < store.modelMeta.nHead, run args (fun a => .real (kPool a)) (fun a => .real (vPool a)) (q.map .real) pos
        store.modelMeta.nHead h = some (out h)) ∧
      (Eff.forEach (fun xAttn h => store.attendHead layer pos h (q.map .real) xAttn) (range store.modelMeta.nHead)
        (replicate (store.modelMeta.nHead * store.modelMeta.headDim) zero) : Eff (KvCache Exact) LoadError (List Exact)) kv =
          (.ok ((range store.modelMeta.nHead).flatMap out), kv) := by
  have hb : 0 < args.blockSize := Nat.pos_of_mul_pos_left (Nat.zero_lt_of_lt hargs.covered)
  rw [← hd] at hdim hq ⊢
  rw [← hn] at hkv
  let start (h : ℕ) := h * args.nHeadKv / store.modelMeta.nHead * args.headDim
  have hstart {h d : ℕ} (hh : h < store.modelMeta.nHead) (hlt : d < args.headDim) :
      start h + d < args.nHeadKv * args.headDim := by
    have hm := Nat.pos_of_dvd_of_pos hkv (Nat.zero_lt_of_lt hh)
    refine Nat.digits_lt ?_ hlt
    rw [mul_div_eq_div_div hm (Nat.zero_lt_of_lt hh) hkv]
    exact (exists_head_iff (Nat.zero_lt_of_lt hh) hkv).mp ⟨h, hh, rfl⟩
  let out (h : ℕ) : List Exact := output (fun d => q[h * args.headDim + d]?.getD 0)
    (fun t d => kRows[t * (args.nHeadKv * args.headDim) + start h + d]?.getD 0)
    (fun t d => vRows[t * (args.nHeadKv * args.headDim) + start h + d]?.getD 0)
    (1 / ExactFunctions.sqrt args.headDim) args.headDim pos
  have hlen (h : ℕ) : (out h).length = args.headDim := length_output ..
  have hflat (h : ℕ) : ((range h).flatMap out).length = h * args.headDim := by simp [hlen]
  refine ⟨out, fun h hh => ?_, ?_⟩
  case refine_1 =>
    refine run_eq hkv hh hb hdim.right hpos hq.symm hq' (fun t ht => ⟨hargs.place_eq ht, hargs.offset_lt t ht⟩) rfl ?_ ?_
    case refine_1 => exact fun t ht d hd => hkp.getD ht (hstart hh hd)
    case refine_2 => exact fun t ht d hd => hvp.getD ht (hstart hh hd)
  case refine_2 =>
    -- After `h` heads, the rest of the numbers are still zero.
    let after (h : ℕ) : List Exact := (range h).flatMap out ++ replicate ((store.modelMeta.nHead - h) * args.headDim) zero
    have hstep (h : ℕ) (hh : h < store.modelMeta.nHead) :
        store.attendHead layer pos h (q.map .real) (after h) kv = (.ok (after (h + 1)), kv) := by
      have hrest : args.headDim ≤ (store.modelMeta.nHead - h) * args.headDim := Nat.le_mul_of_pos_left _ (Nat.sub_pos_of_lt hh)
      have hx : (after h).length = store.modelMeta.nHead * args.headDim := by
        rw [length_append, hflat, length_replicate, ← Nat.add_mul, Nat.add_sub_cancel' hh.le]
      have hzero : ((after h).take (h * args.headDim + args.headDim)).drop (h * args.headDim) =
          replicate args.headDim zero := by
        rw [drop_take, Nat.add_sub_cancel_left, drop_left' (hflat h), take_replicate, Nat.min_eq_left hrest]
      have hsucc : (range (h + 1)).flatMap out = (range h).flatMap out ++ out h := by simp [range_succ]
      have hnext : (after h).overwrite (h * args.headDim) (out h) = after (h + 1) := by
        rw [overwrite_append (hflat h), hlen, drop_replicate, ← Nat.sub_one_mul, Nat.sub_sub, ← hsucc]
      rw [attendHead_eq (o := start h) hd.symm (by rw [← hn]) hh (by rw [← hn]) hq hx hzero hk hv fun t ht => ?_, hnext]
      have hlast := hstart hh (Nat.sub_one_lt_of_lt hdim.left)
      have hkl := hkp.lt_length ht hlast
      have hvl := hvp.lt_length ht hlast
      omega
    have hloop := forEach_range_ok (f := fun xAttn h => store.attendHead layer pos h (q.map .real) xAttn) (a := after)
      (s := kv) hstep
    simpa [after] using hloop

end ModelLoader.WeightStore

namespace ModelLoader.WeightStore

-- Two heads that share the keys of one, on two pages in the opposite order
theorem run_eq_attendHead_two : ∃ (_ : ExactFunctions) (out : ℕ → List Exact),
    (∀ h < 2, FlashAttention.run ⟨fun i => if i = 0 then 1 else 0, 0, 2, 1, 1, 1⟩ (fun a => .real (if a = 0 then 5 else 2))
      (fun a => .real (if a = 0 then 7 else 3)) (map .real [1, 4]) 1 2 h = some (out h)) ∧
    (Eff.forEach (fun xAttn h => attendHead ⟨⟨"", 1, 2, 1, 2, 1, 2, 1, 1, 0, 0, .q4_0⟩, ∅, []⟩ 0 1 h (map .real [1, 4]) xAttn)
      (range 2) (replicate 2 zero) : Eff (KvCache Exact) LoadError (List Exact))
        ⟨1, 1, [map .real [2, 5]], [map .real [3, 7]], 0⟩ =
          (.ok ((range 2).flatMap out), ⟨1, 1, [map .real [2, 5]], [map .real [3, 7]], 0⟩) := by
  have := realFunctions
  have hrows (a b : ℝ) : PagedArgs.Pooled ⟨fun i => if i = 0 then 1 else 0, 0, 2, 1, 1, 1⟩ [1, 0] 1 [a, b]
      (fun i => if i = 0 then b else a) := by
    intro t ht j hj
    change j < 1 at hj
    interval_cases t <;> interval_cases j <;> rfl
  have hargs : PagedArgs.Maps ⟨fun i => if i = 0 then 1 else 0, 0, 2, 1, 1, 1⟩ [1, 0] 1 := by
    refine ⟨by decide, fun i hi => ?_, by decide, by decide⟩
    change i < 2 at hi
    interval_cases i <;> rfl
  exact ⟨this, @run_eq_attendHead this ⟨⟨"", 1, 2, 1, 2, 1, 2, 1, 1, 0, 0, .q4_0⟩, ∅, []⟩
    ⟨1, 1, [map .real [2, 5]], [map .real [3, 7]], 0⟩ 0 1 [1, 4] [2, 5] [3, 7] _ _ _ _ ⟨2, rfl⟩ (by decide) (by decide) hargs
    rfl rfl rfl (by decide) rfl rfl (hrows 2 5) (hrows 3 7)⟩

end ModelLoader.WeightStore
