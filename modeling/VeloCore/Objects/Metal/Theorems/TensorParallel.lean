import VeloCore.Objects.Metal.TensorParallel
import VeloCore.Objects.Metal.Theorems.Model
import VeloCore.Primitives.Slices
import Mathlib.Data.List.GetD

open List

section Matvec

variable {R : Type} [CommRing R] {w x : List R}

theorem matvecF32_zero (h : ∀ a ∈ w, a = 0) (rows cols : Nat) (x : List R) : matvecF32 w rows cols x = replicate rows 0 := by
  have hget (i) : w.getD i 0 = 0 := by
    rw [getD_eq_getElem?_getD]
    cases hi : w[i]?
    case none   => rfl
    case some a => exact h a (mem_of_getElem? hi)
  simp only [matvecF32, hget, zero_mul]
  simp

theorem matvecF32_nil (w x : List R) (rows : Nat) : matvecF32 w rows 0 x = replicate rows 0 := by
  simp [matvecF32]

theorem vecAdd_zero (x : List R) : vecAdd x (replicate x.length 0) = x := by
  induction x
  case nil           => rfl
  case cons a as hi  => simp_all [vecAdd, replicate_succ]

theorem range_mul_eq (m n : Nat) : range (m * n) = (range m).flatMap fun k => (range n).map fun i => k * n + i := by
  induction m
  case zero      => simp
  case succ m hi => rw [Nat.succ_mul, range_add, range_succ, flatMap_append, ← hi, flatMap_singleton]

theorem getD_slice (data : List R) {a b i : Nat} (h : i < b) : ((data.drop a).take b).getD i 0 = data.getD (a + i) 0 := by
  simp [h]

-- The products of the slices of the rows, one after another, are those of all rows.
theorem flatMap_matvecF32 (data x : List R) (m n cols : Nat) :
    ((range m).flatMap fun k => matvecF32 ((data.drop (k * n * cols)).take (n * cols)) n cols x) = matvecF32 data (m * n) cols x := by
  rw [matvecF32, range_mul_eq, map_flatMap]
  refine flatMap_congr fun k _ => ?_
  rw [matvecF32, map_map]
  refine map_congr_left fun r hr => congrArg List.sum (map_congr_left fun c hc => ?_)
  have hlt : r * cols + c < n * cols := by
    calc r * cols + c < r * cols + cols := Nat.add_lt_add_left (mem_range.mp hc) _
      _ = (r + 1) * cols := by ring
      _ ≤ n * cols := Nat.mul_le_mul_right _ (mem_range.mp hr)
  rw [getD_slice data hlt, show k * n * cols + (r * cols + c) = (k * n + r) * cols + c by ring]

end Matvec

-- The degrees of a tensor-parallel model that its sizes can be divided by.
structure TpDegree (dims : ModelMeta) where
  degree : Nat
  pos : 0 < degree
  dvd_nHead : degree ∣ dims.nHead
  dvd_nHeadKv : degree ∣ dims.nHeadKv
  dvd_nFf : degree ∣ dims.nFf
  dvd_nVocab : degree ∣ dims.nVocab

section Runs

variable {R σ σ' : Type} {run : TokenId → Nat → σ → List R × σ} {run' : TokenId → Nat → σ' → List R × σ'}

-- The logits for each token of a sequence.
def runAll (run : TokenId → Nat → σ → List R × σ) : Nat → List TokenId → σ → List (List R)
  | _, [], _ => []
  | pos, token :: tokens, s => (run token pos s).1 :: runAll run (pos + 1) tokens (run token pos s).2

theorem runAll_eq {I : σ → Prop} (h : ∀ token pos s s', I s → (run token pos s).1 = (run' token pos s').1 ∧ I (run token pos s).2)
    (hs : I s) (tokens : List TokenId) (pos : Nat) (s' : σ') : runAll run pos tokens s = runAll run' pos tokens s' := by
  induction tokens generalizing pos s s'
  case nil => rfl
  case cons token tokens hi =>
    have ⟨hlogits, hnext⟩ := h token pos s s' hs
    rw [runAll, runAll, hlogits, hi hnext]

end Runs

section Shard

variable {R : Type} {data : List R} {shape : List Nat} {d rank : Nat} {name : TensorName} {strategy : ShardStrategy}

-- Whether a tensor of the shape can be split.
def Splits (shape : List Nat) (d : Nat) : ShardStrategy → Prop
  | .replicated => True
  | .column     => d ∣ shape.getLast?.getD 0 ∧ shape.getLast?.getD 0 ≠ 0
  | .row        => d ∣ shape.head?.getD 0 ∧ shape[1]?.getD 1 ≠ 0 ∧ shape.head?.getD 0 ≠ 0

theorem shardWeight_ok_iff (name : TensorName) (data : List R) (shape : List Nat) (d rank : Nat) (strategy : ShardStrategy) :
    (∃ part, shardWeight name data shape d rank strategy = .ok part) ↔ d ≤ 1 ∨ Splits shape d strategy := by
  unfold shardWeight
  split
  case isTrue hd => simp [hd]
  case isFalse hd =>
    cases strategy
    case replicated => simp [Splits]
    case column =>
      simp only [shardColumn, Splits, Nat.dvd_iff_mod_eq_zero, hd, false_or]
      split
      case isTrue h => simp [h]
      case isFalse h =>
        split <;> simp_all
    case row =>
      simp only [shardRow, Splits, Nat.dvd_iff_mod_eq_zero, hd, false_or]
      split
      case isTrue h => simp [h]
      case isFalse h =>
        split
        case isTrue hzero  => exact iff_of_false (by simp) fun hs => hzero.elim hs.right.left hs.right.right
        case isFalse hzero => simp_all [not_or]

-- A part has nothing in it that the tensor has not.
theorem subset_of_shardWeight {part : List R} (h : shardWeight name data shape d rank strategy = .ok part) : part ⊆ data := by
  unfold shardWeight at h
  split at h
  case isTrue => cases h; exact Subset.refl _
  case isFalse =>
    cases strategy
    case replicated => cases h; exact Subset.refl _
    case column =>
      simp only [shardColumn] at h
      split at h
      case isTrue => contradiction
      case isFalse =>
        split at h
        case isTrue => contradiction
        case isFalse =>
          cases h
          exact fun a ha => mem_of_mem_drop (mem_of_mem_take ha)
    case row =>
      simp only [shardRow] at h
      split at h
      case isTrue => contradiction
      case isFalse =>
        split at h
        case isTrue => contradiction
        case isFalse =>
          cases h
          intro a ha
          have ⟨_, _, ha⟩ := mem_flatMap.mp ha
          exact mem_of_mem_drop (mem_of_mem_take ha)

end Shard

namespace LlamaTensorParallelModel

variable {dims : ModelMeta} {d : Nat} {R : Type} {weights : TensorName → List R} {model : LlamaTensorParallelModel R}

theorem new_ok_iff : new dims weights d = .ok model ↔
    (∀ rank < d, ∀ name ∈ dims.names, d ≤ 1 ∨ Splits (dims.shape name) d name.shardStrategy) ∧
      model = ⟨dims, d, fun rank name =>
        (shardWeight name (weights name) (dims.shape name) d rank name.shardStrategy).toOption.getD []⟩ := by
  have hmap (rank) (name) :
      ((shardWeight name (weights name) (dims.shape name) d rank name.shardStrategy).map fun _ => ()) = .ok () ↔
      d ≤ 1 ∨ Splits (dims.shape name) d name.shardStrategy := by
    rw [← shardWeight_ok_iff name (weights name) (dims.shape name) d rank]
    cases shardWeight name (weights name) (dims.shape name) d rank name.shardStrategy <;> simp [Except.map]
  have hall : ((range d).forM fun rank => dims.names.forM fun name =>
        (shardWeight name (weights name) (dims.shape name) d rank name.shardStrategy).map fun _ => ()) = .ok () ↔
      ∀ rank < d, ∀ name ∈ dims.names, d ≤ 1 ∨ Splits (dims.shape name) d name.shardStrategy := by
    simp only [Except.forM_eq_ok_iff, hmap, mem_range]
  rw [← hall, new]
  dsimp only
  cases (range d).forM fun rank => dims.names.forM fun name =>
    (shardWeight name (weights name) (dims.shape name) d rank name.shardStrategy).map fun _ => ()
  case error => simp [bind, Except.bind]
  case ok    => simp [bind, Except.bind, pure, Except.pure, eq_comm]

theorem mem_names_iff : name ∈ dims.names ↔
    name = .tokenEmbd ∨ name = .outputNorm ∨ name = .output ∨ ∃ l < dims.nLayer, ∃ t, name = .layer l t := by
  have hall (t : LayerTensor) : t ∈ [LayerTensor.attentionNorm, .wq, .wk, .wv, .wo, .ffnNorm, .w1, .w2, .w3] := by
    cases t <;> decide
  rw [ModelMeta.names, mem_cons, mem_cons, mem_cons, mem_flatMap]
  simp only [mem_range, mem_map]
  refine or_congr_right (or_congr_right (or_congr_right (exists_congr fun l => and_congr_right fun _ => ?_)))
  constructor
  case mp =>
    rintro ⟨t, _, heq⟩
    exact ⟨t, heq.symm⟩
  case mpr =>
    rintro ⟨t, heq⟩
    exact ⟨t, hall t, heq.symm⟩

-- Whether the constructor returns a model of several shards: there are weights to split, and all of them can be.
def Shardable (dims : ModelMeta) (d : Nat) : Prop :=
  dims.nLayer = 0 ∨ d ≤ 1 ∨ (d ∣ dims.nEmbd ∧ dims.nHeadKv * dims.headDim ≠ 0 ∧ dims.nFf ≠ 0)

theorem splits_iff (d : TpDegree dims) (hvocab : dims.nVocab ≠ 0) (hembd : dims.nEmbd ≠ 0) :
    (∀ rank < d.degree, ∀ name ∈ dims.names, d.degree ≤ 1 ∨ Splits (dims.shape name) d.degree name.shardStrategy) ↔
      Shardable dims d.degree := by
  constructor
  case mp =>
    intro h
    refine or_iff_not_imp_left.mpr fun hlayer => or_iff_not_imp_left.mpr fun hd => ?_
    have hsplits (t) : Splits (dims.shape (.layer 0 t)) d.degree (TensorName.layer 0 t).shardStrategy :=
      (h 0 d.pos _ (mem_names_iff.mpr (.inr (.inr (.inr ⟨0, Nat.pos_of_ne_zero hlayer, t, rfl⟩))))).resolve_left hd
    exact ⟨(hsplits .wq).left, (hsplits .wk).right, (hsplits .w1).right⟩
  case mpr =>
    intro h rank _ name hname
    refine or_iff_not_imp_left.mpr fun hd => ?_
    rcases mem_names_iff.mp hname with rfl | rfl | rfl | ⟨l, hl, t, rfl⟩
    case inl => trivial
    case inr.inl => trivial
    case inr.inr.inl => exact ⟨d.dvd_nVocab, hvocab⟩
    case inr.inr.inr =>
      have ⟨hdvd, hkv, hff⟩ := (h.resolve_left (Nat.ne_zero_of_lt hl)).resolve_left hd
      have hdkv : d.degree ∣ dims.nHeadKv * dims.headDim := d.dvd_nHeadKv.mul_right _
      cases t
      case attentionNorm => trivial
      case ffnNorm       => trivial
      case wq            => exact ⟨hdvd, hembd⟩
      case wk            => exact ⟨hdkv, hkv⟩
      case wv            => exact ⟨hdkv, hkv⟩
      case wo            => exact ⟨hdvd, hembd, hembd⟩
      case w1            => exact ⟨d.dvd_nFf, hff⟩
      case w3            => exact ⟨d.dvd_nFf, hff⟩
      case w2            => exact ⟨d.dvd_nFf, hembd, hff⟩

-- The part of a row that a shard has the heads of.
def splitRow (dims : ModelMeta) (d rank : Nat) (row : List R × List R) : List R × List R :=
  let width := dims.nHeadKv / d * dims.headDim
  ((row.1.drop (rank * width)).take width, (row.2.drop (rank * width)).take width)

-- New scratch buffers are all zero.
def start [CommRing R] (dims : ModelMeta) (d : Nat) (rows : Nat → List R × List R) : Nat → ShardMemory R := fun rank =>
  ⟨replicate dims.nEmbd 0, fun t => splitRow dims d rank (rows t)⟩

-- The logits for each token are those of the unsharded model with the same weights and history.
def Equals (dims : ModelMeta) (d : TpDegree dims) : Prop :=
  ∀ {R : Type} [CommRing R] (ops : ExactOps R) (weights : TensorName → List R) (model : LlamaTensorParallelModel R)
    (rows : Nat → List R × List R) (scratch : Scratch → List R) (pos : Nat) (tokens : List TokenId),
    (∀ name, (weights name).length = (dims.shape name).prod) → new dims weights d.degree = .ok model →
      runAll (model.run ops) pos tokens (start dims d.degree rows) =
        runAll (LlamaMetalModel.run (ops.toLlamaOps dims) (dims.loaded weights) dims.nLayer) pos tokens ⟨scratch, rows, []⟩

section Logits

variable [CommRing R] {ops : ExactOps R} {d : TpDegree dims}

-- What the unsharded model makes of the hidden state that the layers leave.
theorem run_unsharded (ops : ExactOps R) (dims : ModelMeta) (weights : TensorName → List R) (token : TokenId) (pos : Nat)
    (mem : MetalMemory R) : ∃ row,
    row = (range dims.nEmbd).map (fun i => (weights .tokenEmbd).getD (token.toNat * dims.nEmbd + i) 0) ∧
    (LlamaMetalModel.run (ops.toLlamaOps dims) (dims.loaded weights) dims.nLayer token pos mem).1 =
      matvecF32 (weights .output) dims.nVocab dims.nEmbd (ops.rmsNorm (weights .outputNorm)
        (((range dims.nLayer).foldl (LlamaMetalModel.layer (ops.toLlamaOps dims) (dims.loaded weights) pos)
          (mem.set .hiddenState row)).scratch .hiddenState)) :=
  ⟨_, rfl, rfl⟩

-- The logits of the shards, one after another, where they have the same hidden state.
theorem logits_eq (hnew : new dims weights d.degree = .ok model) (hlength : (weights .output).length = (dims.shape .output).prod)
    (hvocab : dims.nVocab ≠ 0) (x : List R) : (range d.degree).flatMap (fun rank =>
      matvecF32 (model.weights rank .output) (dims.nVocab / d.degree) dims.nEmbd x) =
    matvecF32 (weights .output) dims.nVocab dims.nEmbd x := by
  have hmodel := (new_ok_iff.mp hnew).right
  subst hmodel
  by_cases hd : d.degree ≤ 1
  case pos =>
    have hone : d.degree = 1 := Nat.le_antisymm hd d.pos
    simp [hone, shardWeight, Except.toOption]
  case neg =>
    have hmod : dims.nVocab % d.degree = 0 := Nat.mod_eq_zero_of_dvd d.dvd_nVocab
    have hrow : (weights .output).length / dims.nVocab = dims.nEmbd := by
      rw [hlength]
      simp [ModelMeta.shape, Nat.pos_of_ne_zero hvocab]
    have hpart (rank) : shardWeight .output (weights .output) (dims.shape .output) d.degree rank .column =
        .ok (((weights .output).drop (rank * (dims.nVocab / d.degree) * dims.nEmbd)).take (dims.nVocab / d.degree * dims.nEmbd)) := by
      simp [shardWeight, hd, shardColumn, ModelMeta.shape, hmod, hvocab, hrow]
    simp only [TensorName.shardStrategy, hpart, Except.toOption, Option.getD_some]
    rw [flatMap_matvecF32, Nat.mul_div_cancel' d.dvd_nVocab]

end Logits

-- What a model is made of.
section New

variable {d : Nat} (h : new dims weights d = .ok model)

include h

theorem modelMeta_of_new : model.modelMeta = dims := by
  rw [(new_ok_iff.mp h).right]

theorem tpDegree_of_new : model.tpDegree = d := by
  rw [(new_ok_iff.mp h).right]

theorem weights_of_new (rank : Nat) (name : TensorName) : model.weights rank name =
    (shardWeight name (weights name) (dims.shape name) d rank name.shardStrategy).toOption.getD [] := by
  rw [(new_ok_iff.mp h).right]

theorem weights_of_replicated (rank : Nat) (name : TensorName) (hname : name.shardStrategy = .replicated) :
    model.weights rank name = weights name := by
  rw [weights_of_new h, hname]
  unfold shardWeight
  split <;> rfl

theorem weights_subset (rank : Nat) (name : TensorName) : model.weights rank name ⊆ weights name := by
  rw [weights_of_new h]
  cases hpart : shardWeight name (weights name) (dims.shape name) d rank name.shardStrategy
  case error => simp [Except.toOption]
  case ok    => exact subset_of_shardWeight hpart

end New

section Run

variable [CommRing R] {ops : ExactOps R} {d : TpDegree dims} (hnew : new dims weights d.degree = .ok model)

include hnew

theorem embed_hiddenState (token : TokenId) (mem : Nat → ShardMemory R) (rank : Nat) : (model.embed token mem rank).hiddenState =
    if 0 < dims.nEmbd then
      (mem rank).hiddenState.set 0 ((weights .tokenEmbd).getD (uint (token.toNat * dims.nEmbd)) 0)
    else
      (mem rank).hiddenState := by
  simp [embed, embedLookup, modelMeta_of_new hnew, weights_of_replicated hnew rank .tokenEmbd rfl]

-- Where the layers leave the same hidden state to all shards, they make of it what the unsharded model would.
theorem run_sharded (ops : ExactOps R) (hlength : (weights .output).length = (dims.shape .output).prod) (hvocab : dims.nVocab ≠ 0) (token : TokenId)
    (pos : Nat) (mem : Nat → ShardMemory R)
    (h : ∀ rank, ((range dims.nLayer).foldl (model.layer ops pos) (model.embed token mem) rank).hiddenState = x) :
    (model.run ops token pos mem).1 = matvecF32 (weights .output) dims.nVocab dims.nEmbd (ops.rmsNorm (weights .outputNorm) x) ∧
      ∀ rank, ((model.run ops token pos mem).2 rank).hiddenState = ops.rmsNorm (weights .outputNorm) x := by
  have hnorm (rank) : model.weights rank .outputNorm = weights .outputNorm := weights_of_replicated hnew rank .outputNorm rfl
  have hlogits := logits_eq hnew hlength hvocab (ops.rmsNorm (weights .outputNorm) x)
  have hlen : (matvecF32 (weights .output) dims.nVocab dims.nEmbd (ops.rmsNorm (weights .outputNorm) x)).length = dims.nVocab := by
    simp [matvecF32]
  simp only [run, modelMeta_of_new hnew, tpDegree_of_new hnew, h, hnorm, hlogits, hlen]
  simp

end Run

-- Why the sizes are enough.
section Equal

variable [CommRing R] {ops : ExactOps R} {d : TpDegree dims} (hnew : new dims weights d.degree = .ok model)

include hnew

theorem logits_nil (hvocab : dims.nVocab = 0) (token : TokenId) (pos : Nat) (mem : Nat → ShardMemory R) :
    (model.run ops token pos mem).1 = [] := by
  simp [run, modelMeta_of_new hnew, hvocab, matvecF32]

theorem logits_replicate (hembd : dims.nEmbd = 0) (token : TokenId) (pos : Nat) (mem : Nat → ShardMemory R) :
    (model.run ops token pos mem).1 = replicate dims.nVocab 0 := by
  have hall (c : Nat) : (range d.degree).flatMap (fun _ => replicate c (0 : R)) = replicate (d.degree * c) 0 := by
    simp [eq_replicate_iff]
  simp only [run, modelMeta_of_new hnew, tpDegree_of_new hnew, hembd, matvecF32_nil, hall, Nat.mul_div_cancel' d.dvd_nVocab]
  simp

-- With one number for the hidden state, one thread is enough to look it up.
theorem logits_one (hlength : (weights .output).length = (dims.shape .output).prod) (hvocab : dims.nVocab ≠ 0)
    (hlayer : dims.nLayer = 0) (hembd : dims.nEmbd = 1) (token : TokenId) (pos : Nat) (mem : Nat → ShardMemory R)
    (mem' : MetalMemory R) (h : ∀ rank, (mem rank).hiddenState.length = 1) :
    (model.run ops token pos mem).1 =
        (LlamaMetalModel.run (ops.toLlamaOps dims) (dims.loaded weights) dims.nLayer token pos mem').1 ∧
      ∀ rank, ((model.run ops token pos mem).2 rank).hiddenState.length = 1 := by
  have ⟨row, hrow, hrun⟩ := run_unsharded ops dims weights token pos mem'
  have hhidden (rank) : (model.embed token mem rank).hiddenState = row := by
    have ⟨a, ha⟩ := length_eq_one_iff.mp (h rank)
    have hplace : uint token.toNat = token.toNat := Nat.mod_eq_of_lt token.toNat_lt
    simp [embed_hiddenState hnew, ha, hrow, hembd, hplace]
  have ⟨hlogits, hlast⟩ := run_sharded (x := row) hnew ops hlength hvocab token pos mem (by rw [hlayer]; exact hhidden)
  constructor
  case left =>
    rw [hlogits, hrun, hlayer]
    rfl
  case right =>
    intro rank
    rw [hlast, ops.rmsNorm_length, hrow, hembd]
    rfl

end Equal

-- Primitives and weights for which nothing comes of a layer but the norm: the sum of the hidden state is each of the logits.
section Plain

def plainOps : ExactOps ℤ where
  rmsNorm w x := x.map (w.headD 1 * ·)
  rope _ _ q k := (q, k)
  attention _ _ _ _ _ := []
  silu x := x
  rmsNorm_length := by simp

def plainWeights (dims : ModelMeta) (name : TensorName) : List ℤ :=
  replicate (dims.shape name).prod (match name with
    | .layer .. => 0
    | _         => 1)

theorem eq_zero_of_mem_layer {l : Nat} {t : LayerTensor} (h : a ∈ plainWeights dims (.layer l t)) : a = 0 :=
  eq_of_mem_replicate h

theorem matvecF32_ones {x : List ℤ} (h : x.length = dims.nEmbd) :
    matvecF32 (plainWeights dims .output) dims.nVocab dims.nEmbd x = replicate dims.nVocab x.sum := by
  have hx : (range dims.nEmbd).map (fun c => x.getD c 0) = x := by
    refine ext_getElem (by simp [h]) fun i _ hi => ?_
    rw [getElem_map, getElem_range, getD_eq_getElem _ _ hi]
  refine eq_replicate_iff.mpr ⟨by simp [matvecF32], fun a ha => ?_⟩
  have ⟨r, hr, heq⟩ := mem_map.mp ha
  have hone (c) (hc : c ∈ range dims.nEmbd) : (plainWeights dims .output).getD (r * dims.nEmbd + c) 0 = 1 := by
    have hlt : r * dims.nEmbd + c < (dims.shape .output).prod := by
      calc r * dims.nEmbd + c < r * dims.nEmbd + dims.nEmbd := Nat.add_lt_add_left (mem_range.mp hc) _
        _ = (r + 1) * dims.nEmbd := by ring
        _ ≤ dims.nVocab * dims.nEmbd := Nat.mul_le_mul_right _ (mem_range.mp hr)
        _ = (dims.shape .output).prod := by simp [ModelMeta.shape, Nat.mul_comm]
    have hdef : plainWeights dims .output = replicate (dims.shape .output).prod 1 := rfl
    rw [hdef, getD_eq_getElem _ _ (by simpa using hlt), getElem_replicate]
  calc a = ((range dims.nEmbd).map fun c => x.getD c 0).sum := by
        rw [← heq]
        exact congrArg List.sum (map_congr_left fun c hc => by rw [hone c hc, one_mul])
    _ = x.sum := by rw [hx]

variable {d : TpDegree dims} {model : LlamaTensorParallelModel ℤ}

theorem allReduceSumAndAdd_zero {parts : Nat → List ℤ} {mem : Nat → ShardMemory ℤ} (hparts : ∀ rank, parts rank = replicate dims.nEmbd 0)
    (hmodel : model.modelMeta = dims) (h : ∀ rank, (mem rank).hiddenState.length = dims.nEmbd) :
    model.allReduceSumAndAdd parts mem = mem := by
  have hsame (rank) : vecAdd (mem rank).hiddenState (replicate dims.nEmbd 0) = (mem rank).hiddenState := by
    rw [← h rank, vecAdd_zero]
  have hsum (ranks : List Nat) : ranks.foldl (fun sum rank => vecAdd sum (parts rank)) (replicate dims.nEmbd 0) =
      replicate dims.nEmbd 0 := by
    induction ranks
    case nil => rfl
    case cons rank ranks hi =>
      have hzero := vecAdd_zero (replicate dims.nEmbd (0 : ℤ))
      rw [length_replicate] at hzero
      rw [foldl_cons, hparts, hzero, hi]
  unfold allReduceSumAndAdd
  split
  case isTrue  => simp only [hparts, hsame]
  case isFalse => simp only [hmodel, hsum, hsame]

theorem layer_plain (hnew : new dims (plainWeights dims) d.degree = .ok model) (pos l : Nat) {mem : Nat → ShardMemory ℤ}
    (h : ∀ rank, (mem rank).hiddenState.length = dims.nEmbd) : model.layer plainOps pos mem l = mem := by
  have hmodel := modelMeta_of_new hnew
  have hzero (rank t) : ∀ a ∈ model.weights rank (.layer l t), a = 0 := fun a ha =>
    eq_zero_of_mem_layer (weights_subset hnew rank _ ha)
  have hattn (rank) : (forwardLayer plainOps model.shardMeta (fun t => model.weights rank (.layer l t)) pos (mem rank)).1 =
      replicate dims.nEmbd 0 := by
    rw [forwardLayer, matvecF32_zero (hzero rank .wo), shardMeta, hmodel]
  have hmlp (rank) : (forwardLayer plainOps model.shardMeta (fun t => model.weights rank (.layer l t)) pos (mem rank)).2 =
      replicate dims.nEmbd 0 := by
    rw [forwardLayer, matvecF32_zero (hzero rank .w2), shardMeta, hmodel]
  simp only [layer]
  rw [allReduceSumAndAdd_zero hattn hmodel h, allReduceSumAndAdd_zero hmlp hmodel h]

theorem foldl_layer_plain (hnew : new dims (plainWeights dims) d.degree = .ok model) (pos : Nat) (ls : List Nat)
    {mem : Nat → ShardMemory ℤ} (h : ∀ rank, (mem rank).hiddenState.length = dims.nEmbd) :
    ls.foldl (model.layer plainOps pos) mem = mem := by
  induction ls
  case nil          => rfl
  case cons l ls hi => rw [foldl_cons, layer_plain hnew pos l h, hi]

theorem rmsNorm_layer_plain {l : Nat} {x : List ℤ} (hembd : dims.nEmbd ≠ 0) (h : x.length = dims.nEmbd) :
    plainOps.rmsNorm (plainWeights dims (.layer l .attentionNorm)) x = replicate dims.nEmbd 0 := by
  have ⟨n, hn⟩ := Nat.exists_eq_succ_of_ne_zero hembd
  have hhead : (plainWeights dims (.layer l .attentionNorm)).headD 1 = 0 := by
    simp [plainWeights, ModelMeta.shape, hn, replicate_succ]
  have hnorm (w : List ℤ) : plainOps.rmsNorm w x = x.map (w.headD 1 * ·) := rfl
  rw [hnorm, hhead]
  simp [h]

theorem unsharded_layer_plain (hembd : dims.nEmbd ≠ 0) (pos l : Nat) {mem : MetalMemory ℤ}
    (h : (mem.scratch .hiddenState).length = dims.nEmbd) :
    (LlamaMetalModel.layer (plainOps.toLlamaOps dims) (dims.loaded (plainWeights dims)) pos mem l).scratch .hiddenState =
      replicate dims.nEmbd 0 := by
  have hloaded (t : LayerTensor) : (dims.loaded (plainWeights dims) (.layer l t)).isSome := rfl
  have ⟨w, wo, w2, a, b, hw, hwo, hw2, hhidden, _⟩ := LlamaMetalModel.layer_scratch (plainOps.toLlamaOps dims) pos hloaded mem
  cases hw
  cases hwo
  cases hw2
  have hprod (t : LayerTensor) (x : List ℤ) (cols : Nat) :
      matvecF32 (plainWeights dims (.layer l t)) dims.nEmbd cols x = replicate dims.nEmbd 0 :=
    matvecF32_zero (fun _ => eq_zero_of_mem_layer) _ cols x
  have hzero := vecAdd_zero (replicate dims.nEmbd (0 : ℤ))
  rw [length_replicate] at hzero
  have hsum : vecAdd (vecAdd (plainOps.rmsNorm (plainWeights dims (.layer l .attentionNorm)) (mem.scratch .hiddenState))
      (matvecF32 (plainWeights dims (.layer l .wo)) dims.nEmbd dims.nEmbd a))
      (matvecF32 (plainWeights dims (.layer l .w2)) dims.nEmbd dims.nFf b) = replicate dims.nEmbd 0 := by
    rw [rmsNorm_layer_plain hembd h, hprod, hprod, hzero, hzero]
  exact hhidden.trans hsum

theorem foldl_unsharded_layer_plain (hembd : dims.nEmbd ≠ 0) (pos : Nat) {ls : List Nat} (hls : ls ≠ []) (mem : MetalMemory ℤ)
    (h : (mem.scratch .hiddenState).length = dims.nEmbd) :
    (ls.foldl (LlamaMetalModel.layer (plainOps.toLlamaOps dims) (dims.loaded (plainWeights dims)) pos) mem).scratch .hiddenState =
      replicate dims.nEmbd 0 := by
  induction ls generalizing mem
  case nil => contradiction
  case cons l ls hi =>
    have hl := unsharded_layer_plain hembd pos l h
    rw [foldl_cons]
    generalize LlamaMetalModel.layer (plainOps.toLlamaOps dims) (dims.loaded (plainWeights dims)) pos mem l = mem₁ at hl ⊢
    cases ls
    case nil  => exact hl
    case cons => exact hi (cons_ne_nil _ _) mem₁ (by rw [hl, length_replicate])

-- With more than one number to look up, or with a layer, the logits are not one.
theorem plain_equals (hvocab : dims.nVocab ≠ 0) (hembd : dims.nEmbd ≠ 0) (hnew : new dims (plainWeights dims) d.degree = .ok model)
    (h : Equals dims d) : dims.nLayer = 0 ∧ dims.nEmbd = 1 := by
  have hlen (name) : (plainWeights dims name).length = (dims.shape name).prod := by
    simp [plainWeights]
  have ⟨n, hn⟩ := Nat.exists_eq_succ_of_ne_zero hembd
  have hones (k : Nat) : (replicate (dims.nEmbd * k) (1 : ℤ)).headD 1 = 1 := by
    cases hk : dims.nEmbd * k <;> simp [replicate_succ]
  have hnorm (x : List ℤ) : plainOps.rmsNorm (plainWeights dims .outputNorm) x = x := by
    have hdef : plainOps.rmsNorm (plainWeights dims .outputNorm) x = x.map ((replicate (dims.nEmbd * 1) (1 : ℤ)).headD 1 * ·) := rfl
    simp only [hdef, hones, one_mul, map_id']
  have hget (i) (hi : i < dims.nEmbd) : (plainWeights dims .tokenEmbd).getD i 0 = 1 := by
    have hdef : plainWeights dims .tokenEmbd = replicate (dims.nEmbd * (dims.nVocab * 1)) 1 := rfl
    have hlt : i < dims.nEmbd * (dims.nVocab * 1) := hi.trans_le (Nat.le_mul_of_pos_right _ (by omega))
    rw [hdef, getD_eq_getElem _ _ (by simpa using hlt), getElem_replicate]
  -- One thread writes one number, and the layers add nothing to it.
  have hstart (rank) : (model.embed 0 (start dims d.degree fun _ => ([], [])) rank).hiddenState = 1 :: replicate n 0 := by
    have hfirst := hget 0 (Nat.pos_of_ne_zero hembd)
    have hzero : uint ((0 : TokenId).toNat * dims.nEmbd) = 0 := by
      rw [UInt32.toNat_zero, Nat.zero_mul, uint, Nat.zero_mod]
    rw [embed_hiddenState hnew, if_pos (Nat.pos_of_ne_zero hembd), hzero, hfirst, start, hn]
    rfl
  have hx (rank) : ((range dims.nLayer).foldl (model.layer plainOps 0)
      (model.embed 0 (start dims d.degree fun _ => ([], []))) rank).hiddenState = 1 :: replicate n 0 := by
    rw [foldl_layer_plain hnew 0 _ fun rank => by rw [hstart]; simp [hn], hstart]
  have ⟨hsharded, _⟩ := run_sharded hnew plainOps (hlen .output) hvocab 0 0 _ hx
  rw [hnorm, matvecF32_ones (by simp [hn])] at hsharded
  have ⟨row, hrow, hunsharded⟩ := run_unsharded plainOps dims (plainWeights dims) 0 0 ⟨fun _ => [], fun _ => ([], []), []⟩
  have hrow : row = replicate dims.nEmbd 1 := by
    refine hrow.trans (eq_replicate_iff.mpr ⟨by simp, fun a ha => ?_⟩)
    have ⟨i, hi, heq⟩ := mem_map.mp ha
    rw [← heq]
    simpa using hget i (mem_range.mp hi)
  have heq : (model.run plainOps 0 0 (start dims d.degree fun _ => ([], []))).1 =
      (LlamaMetalModel.run (plainOps.toLlamaOps dims) (dims.loaded (plainWeights dims)) dims.nLayer 0 0
        ⟨fun _ => [], fun _ => ([], []), []⟩).1 :=
    (List.cons.inj (h plainOps (plainWeights dims) model (fun _ => ([], [])) (fun _ => []) 0 [0] hlen hnew)).left
  rw [hsharded, hunsharded, hnorm] at heq
  by_cases hlayer : dims.nLayer = 0
  case pos =>
    rw [hlayer, range_zero, foldl_nil] at heq
    change _ = matvecF32 _ _ _ row at heq
    rw [matvecF32_ones (by simp [hrow]), replicate_right_inj hvocab, hrow] at heq
    refine ⟨hlayer, ?_⟩
    simp at heq
    omega
  case neg =>
    have hne : range dims.nLayer ≠ [] := by simpa using hlayer
    rw [foldl_unsharded_layer_plain hembd 0 hne _ (by rw [hrow]; exact length_replicate), matvecF32_ones (by simp),
      replicate_right_inj hvocab] at heq
    simp at heq

end Plain

-- The shards compute what the unsharded model does just when there is nothing to compute, or there are no layers and a hidden
-- state of one number, or the weights cannot be split.
theorem equals_iff (d : TpDegree dims) : Equals dims d ↔ dims.nVocab = 0 ∨ dims.nEmbd = 0 ∨ (dims.nLayer = 0 ∧ dims.nEmbd = 1) ∨
    ¬Shardable dims d.degree := by
  constructor
  case mp =>
    intro h
    refine or_iff_not_imp_left.mpr fun hvocab => or_iff_not_imp_left.mpr fun hembd => or_iff_not_imp_right.mpr fun hshard => ?_
    have hsplits := (splits_iff d hvocab hembd).mpr (not_not.mp hshard)
    exact plain_equals hvocab hembd (new_ok_iff.mpr ⟨hsplits, rfl⟩) h
  case mpr =>
    intro h R _ ops weights model rows scratch pos tokens hlen hnew
    by_cases hvocab : dims.nVocab = 0
    case pos =>
      refine runAll_eq (I := fun _ => True) (fun token pos s s' _ => ⟨?_, trivial⟩) trivial tokens pos _
      rw [logits_nil hnew hvocab]
      have ⟨_, _, hrun⟩ := run_unsharded ops dims weights token pos s'
      simp [hrun, hvocab, matvecF32]
    case neg =>
      by_cases hembd : dims.nEmbd = 0
      case pos =>
        refine runAll_eq (I := fun _ => True) (fun token pos s s' _ => ⟨?_, trivial⟩) trivial tokens pos _
        rw [logits_replicate hnew hembd]
        have ⟨_, _, hrun⟩ := run_unsharded ops dims weights token pos s'
        rw [hrun, hembd, matvecF32_nil]
      case neg =>
        cases (h.resolve_left hvocab).resolve_left hembd
        case inl h =>
          exact runAll_eq (I := fun mem => ∀ rank, (mem rank).hiddenState.length = 1)
            (fun token pos s s' hs => logits_one hnew (hlen .output) hvocab h.left h.right token pos s s' hs)
            (fun _ => by simp [start, h.right]) tokens pos _
        case inr h => exact absurd ((splits_iff d hvocab hembd).mp (new_ok_iff.mp hnew).left) h

-- Two shards of one layer.
theorem exists_not_equals : ¬Equals ⟨2, 2, 1, 2, 2, 1, 2⟩ ⟨2, by decide, by decide, by decide, by decide, by decide⟩ := by
  intro h
  refine absurd (plain_equals ?_ ?_ (new_ok_iff.mpr ⟨(splits_iff _ ?_ ?_).mpr (.inr (.inr ⟨?_, ?_, ?_⟩)), rfl⟩) h).left ?_
  all_goals decide

end LlamaTensorParallelModel
