import VeloCore.Objects.Metal.Model
import VeloCore.Objects.Backend.Theorems.LlamaCpu
import VeloCore.Primitives.Slices

open List

namespace WeightStore

variable {φ τ : Type} {ops : LlamaOps φ τ} {weights : WeightStore τ} {nLayer : Nat}

-- All tensors that the model requires for certain.
structure Complete (weights : WeightStore τ) (nLayer : Nat) : Prop where
  tokenEmbd  : (weights .tokenEmbd).isSome
  layer      : ∀ l < nLayer, ∀ t, (weights (.layer l t)).isSome
  outputNorm : (weights .outputNorm).isSome

theorem require_eq_ok_iff {name : TensorName} {t : τ} : weights.require name = .ok t ↔ weights name = some t := by
  unfold require
  split <;> simp_all

-- A layer that is computed has all its tensors.
theorem isSome_of_layer {x : List φ} {row : List φ × List φ} (hproject : weights.project ops l x pos = .ok row)
    (hattend : weights.attend ops l x pos rows = .ok x') (t : LayerTensor) : (weights (.layer l t)).isSome := by
  simp only [project, attend, ffn, projectQkv, Except.bind_eq_ok_iff, require_eq_ok_iff] at hproject hattend
  have ⟨_, ⟨_, hnorm, _, hwq, _, hwk, _, hwv, _⟩, _⟩ := hproject
  have ⟨_, _, _, hwo, _, hffn, _, hw1, _, hw3, _, hw2, _⟩ := hattend
  cases t
  case attentionNorm => exact Option.isSome_of_eq_some hnorm
  case wq            => exact Option.isSome_of_eq_some hwq
  case wk            => exact Option.isSome_of_eq_some hwk
  case wv            => exact Option.isSome_of_eq_some hwv
  case wo            => exact Option.isSome_of_eq_some hwo
  case ffnNorm       => exact Option.isSome_of_eq_some hffn
  case w1            => exact Option.isSome_of_eq_some hw1
  case w2            => exact Option.isSome_of_eq_some hw2
  case w3            => exact Option.isSome_of_eq_some hw3

-- Where all tensors are there, a layer adds twice to what it is given.
theorem layer_ok (ops : LlamaOps φ τ) (h : ∀ t, (weights (.layer l t)).isSome) (x : List φ) (pos : Nat)
    (rows : List (List φ × List φ)) : (∃ row, weights.project ops l x pos = .ok row) ∧
      ∃ a b, weights.attend ops l x pos rows = .ok (ops.vecAdd (ops.vecAdd x a) b) := by
  simp only [Option.isSome_iff_exists] at h
  choose w hw using h
  constructor
  case left => simp [project, projectQkv, require, hw, bind, Except.bind, pure, Except.pure]
  case right =>
    simp only [attend, ffn, projectQkv, require, hw, bind, Except.bind, pure, Except.pure]
    exact ⟨_, _, rfl⟩

end WeightStore

namespace LlamaCpuModel

variable {φ τ : Type} {ops : LlamaOps φ τ} {weights : WeightStore τ} {nLayer nCtx pos : Nat}
  {kv kv' : LlamaKvCache (List φ × List φ)} {x x' : List φ}

theorem load_eq_ok_iff {K : Type} {kv kv' : LlamaKvCache K} {x : Except String α} :
    load x kv = (.ok a, kv') ↔ x = .ok a ∧ kv = kv' := by
  rw [load, Eff.call_eq_ok_iff, Prod.mk.injEq]

theorem isSome_of_forwardLayers {ls : List Nat}
    (h : forwardLayers (weights.toLlama ops nLayer nCtx) pos ls x kv = (.ok x', kv')) :
    ∀ l ∈ ls, ∀ t, (weights (.layer l t)).isSome := by
  induction ls generalizing x kv
  case nil => simp
  case cons l ls hi =>
    have ⟨x₁, kv₁, hlayer, hrest⟩ := Eff.bind_eq_ok_iff.mp h
    rw [forwardLayer_eq] at hlayer
    split at hlayer
    case h_1 => simp at hlayer
    case h_2 row hproject =>
      split at hlayer
      case isFalse => simp at hlayer
      case isTrue =>
        split at hlayer
        case h_1 => simp at hlayer
        case h_2 hattend =>
          intro l' hl' t
          cases mem_cons.mp hl'
          case inl heq => exact heq ▸ WeightStore.isSome_of_layer hproject hattend t
          case inr hl' => exact hi hrest l' hl' t

theorem complete_of_forwardOne (h : forwardOne (weights.toLlama ops nLayer nCtx) pos token kv = (.ok logits, kv')) :
    weights.Complete nLayer := by
  have ⟨x, kv₁, hembed, hrest⟩ := Eff.bind_eq_ok_iff.mp h
  have ⟨x', kv₂, hlayers, hhead⟩ := Eff.bind_eq_ok_iff.mp hrest
  have ⟨_, hembd, _⟩ := Except.bind_eq_ok_iff.mp (load_eq_ok_iff.mp hembed).left
  have ⟨_, hnorm, _⟩ := Except.bind_eq_ok_iff.mp (load_eq_ok_iff.mp hhead).left
  exact {
    tokenEmbd  := Option.isSome_iff_exists.mpr ⟨_, WeightStore.require_eq_ok_iff.mp hembd⟩
    layer l hl := isSome_of_forwardLayers hlayers l (mem_range.mpr hl)
    outputNorm := Option.isSome_iff_exists.mpr ⟨_, WeightStore.require_eq_ok_iff.mp hnorm⟩ }

-- Where the sum with anything is the hidden state, it is what the layers leave.
theorem forwardLayers_ok (ops : LlamaOps φ τ) (nLayer : Nat) (hadd : ∀ x y, ops.vecAdd x y = x) (hpos : pos < nCtx) {ls : List Nat}
    (h : ∀ l ∈ ls, ∀ t, (weights (.layer l t)).isSome) (x : List φ) (kv : LlamaKvCache (List φ × List φ)) :
    ∃ kv', forwardLayers (weights.toLlama ops nLayer nCtx) pos ls x kv = (.ok x, kv') := by
  induction ls generalizing kv
  case nil => exact ⟨kv, rfl⟩
  case cons l ls hi =>
    have hl := h l mem_cons_self
    have ⟨⟨row, hproject⟩, _⟩ := WeightStore.layer_ok ops hl x pos []
    have ⟨_, a, b, hattend⟩ := WeightStore.layer_ok ops hl x pos ((range pos).map (kv.rows l) ++ [row])
    rw [hadd, hadd] at hattend
    have hlayer : forwardLayer (weights.toLlama ops nLayer nCtx) pos l x kv = (.ok x, kv.store l pos row) := by
      have hp : (weights.toLlama ops nLayer nCtx).project l x pos = .ok row := hproject
      have ha : (weights.toLlama ops nLayer nCtx).attend l x pos ((range pos).map (kv.rows l) ++ [row]) = .ok x := hattend
      have hc : pos < (weights.toLlama ops nLayer nCtx).nCtx := hpos
      simp [forwardLayer_eq, hp, ha, hc]
    have ⟨kv', hrest⟩ := hi (fun l' hl' => h l' (mem_cons_of_mem _ hl')) (kv.store l pos row)
    exact ⟨kv', (Eff.bind_ok hlayer).trans hrest⟩

end LlamaCpuModel

namespace LlamaMetalModel

variable {φ τ : Type} {ops : LlamaOps φ τ} {weights : WeightStore τ} {nLayer pos : Nat} {mem : MetalMemory φ}

-- A layer adds twice to the norm of the hidden state, not to the hidden state.
theorem layer_scratch (ops : LlamaOps φ τ) (pos : Nat) (h : ∀ t, (weights (.layer l t)).isSome) (mem : MetalMemory φ) :
    ∃ w wo w2 a b, weights (.layer l .attentionNorm) = some w ∧ weights (.layer l .wo) = some wo ∧
      weights (.layer l .w2) = some w2 ∧
      (layer ops weights pos mem l).scratch .hiddenState =
        ops.vecAdd (ops.vecAdd (ops.rmsNorm w (mem.scratch .hiddenState)) (ops.matvec wo a)) (ops.matvec w2 b) ∧
      (layer ops weights pos mem l).scratch .logits = mem.scratch .logits := by
  simp only [Option.isSome_iff_exists] at h
  choose w hw using h
  simp only [layer, mlpBlock, attentionBlock, whenLoaded, hw]
  exact ⟨_, _, _, _, _, rfl, rfl, rfl, rfl, rfl⟩

-- The logits of the CPU, and the same rows written, whatever the primitives and the scratch buffers. The caches hold the same
-- rows before.
def Refines (weights : WeightStore τ) (nLayer : Nat) : Prop :=
  ∀ {φ : Type} (ops : LlamaOps φ τ) (nCtx : Nat) (token : TokenId) (pos : Nat) (kv kv' : LlamaKvCache (List φ × List φ))
    (mem : MetalMemory φ) (logits : List φ), (∀ l < nLayer, ∀ t < pos, kv.rows l t = mem.rows t) →
    LlamaCpuModel.forwardOne (weights.toLlama ops nLayer nCtx) pos token kv = (.ok logits, kv') →
      (run ops weights nLayer token pos mem).1 = logits ∧
      (run ops weights nLayer token pos mem).2.written = mem.written ++ (range nLayer).map fun l => (pos, kv'.rows l pos)

-- Primitives that show how often the hidden state was normed.
def countNorms (τ : Type) : LlamaOps Nat τ where
  embeddingRow _ _ := []
  rmsNorm _ x := 0 :: x
  matvec _ x := x
  rope _ q k := (q, k)
  attention q _ := q
  silu x := x
  vecMul x _ := x
  vecAdd x _ := x

theorem layers_countNorms (pos : Nat) {ls : List Nat} (h : ∀ l ∈ ls, ∀ t, (weights (.layer l t)).isSome) (mem : MetalMemory Nat) :
    (ls.foldl (layer (countNorms τ) weights pos) mem).scratch .hiddenState = replicate ls.length 0 ++ mem.scratch .hiddenState ∧
    (ls.foldl (layer (countNorms τ) weights pos) mem).scratch .logits = mem.scratch .logits := by
  induction ls generalizing mem
  case nil => exact ⟨rfl, rfl⟩
  case cons l ls hi =>
    have ⟨_, _, _, _, _, _, _, _, hhidden, hlogits⟩ := layer_scratch (countNorms τ) pos (h l mem_cons_self) mem
    have ⟨hh, hl⟩ := hi (fun l' hl' => h l' (mem_cons_of_mem _ hl')) (layer (countNorms τ) weights pos mem l)
    refine ⟨hh.trans ?_, hl.trans hlogits⟩
    rw [hhidden, length_cons, replicate_succ']
    simp [countNorms]

-- On the CPU the hidden state itself is normed only once.
theorem forwardOne_countNorms (h : weights.Complete nLayer) (token : TokenId) (kv : LlamaKvCache (List Nat × List Nat)) :
    ∃ kv', LlamaCpuModel.forwardOne (weights.toLlama (countNorms τ) nLayer 1) 0 token kv = (.ok [0], kv') := by
  have ⟨embd, hembd⟩ := Option.isSome_iff_exists.mp h.tokenEmbd
  have ⟨norm, hnorm⟩ := Option.isSome_iff_exists.mp h.outputNorm
  have ⟨kv', hlayers⟩ := LlamaCpuModel.forwardLayers_ok (countNorms τ) nLayer (fun _ _ => rfl) Nat.one_pos
    (fun l hl => h.layer l (mem_range.mp hl)) [] kv
  have hembed : LlamaCpuModel.load ((weights.toLlama (countNorms τ) nLayer 1).embed token) kv = (.ok [], kv) := by
    refine LlamaCpuModel.load_eq_ok_iff.mpr ⟨?_, rfl⟩
    exact Except.bind_eq_ok_iff.mpr ⟨embd, WeightStore.require_eq_ok_iff.mpr hembd, rfl⟩
  have hhead : LlamaCpuModel.load ((weights.toLlama (countNorms τ) nLayer 1).head []) kv' = (.ok [0], kv') := by
    refine LlamaCpuModel.load_eq_ok_iff.mpr ⟨?_, rfl⟩
    have ⟨lmHead, hlmHead⟩ : ∃ t, weights (if (weights .output).isSome then .output else .tokenEmbd) = some t := by
      split
      case isTrue ho => exact Option.isSome_iff_exists.mp ho
      case isFalse   => exact ⟨embd, hembd⟩
    exact Except.bind_eq_ok_iff.mpr ⟨norm, WeightStore.require_eq_ok_iff.mpr hnorm,
      Except.bind_eq_ok_iff.mpr ⟨lmHead, WeightStore.require_eq_ok_iff.mpr hlmHead, rfl⟩⟩
  exact ⟨kv', by rw [LlamaCpuModel.forwardOne, Eff.bind_ok hembed]; exact (Eff.bind_ok hlayers).trans hhead⟩

-- The Metal model computes what the CPU model does just when there is no layer, and a tensor for the head.
theorem refines_iff : Refines weights nLayer ↔ (weights.Complete nLayer → nLayer = 0 ∧ (weights .output).isSome) := by
  constructor
  case mp =>
    intro h hc
    let mem : MetalMemory Nat := ⟨fun _ => [1], fun _ => ([], []), []⟩
    have ⟨kv', hcpu⟩ := forwardOne_countNorms hc 0 ⟨fun _ _ => ([], []), 0⟩
    have hlogits := (h (countNorms τ) 1 0 0 _ kv' mem [0] (by simp) hcpu).left
    have ⟨embd, hembd⟩ := Option.isSome_iff_exists.mp hc.tokenEmbd
    have ⟨norm, hnorm⟩ := Option.isSome_iff_exists.mp hc.outputNorm
    have ⟨hh, hl⟩ := layers_countNorms 0 (fun l hl => hc.layer l (mem_range.mp hl)) (mem.set .hiddenState [])
    cases hout : weights .output
    case none =>
      have hstale : (run (countNorms τ) weights nLayer 0 0 mem).1 = [1] := by
        simp only [run, forward, whenLoaded, hembd, hnorm, hout]
        exact hl
      rw [hstale] at hlogits
      contradiction
    case some w =>
      have hnormed : (run (countNorms τ) weights nLayer 0 0 mem).1 = 0 :: replicate nLayer 0 := by
        have hhidden : ((range nLayer).foldl (layer (countNorms τ) weights 0) (mem.set .hiddenState [])).scratch .hiddenState =
            replicate nLayer 0 := by
          simpa [MetalMemory.set] using hh
        simp only [run, forward, whenLoaded, hembd, hnorm, hout]
        exact congrArg (0 :: ·) hhidden
      rw [hnormed] at hlogits
      exact ⟨by simpa using hlogits, rfl⟩
  case mpr =>
    intro h φ ops nCtx token pos kv kv' mem logits _ hcpu
    have ⟨hzero, hout⟩ := h (LlamaCpuModel.complete_of_forwardOne hcpu)
    subst hzero
    have ⟨x, kv₁, hembed, hrest⟩ := Eff.bind_eq_ok_iff.mp hcpu
    have ⟨x', kv₂, hlayers, hhead⟩ := Eff.bind_eq_ok_iff.mp hrest
    cases hlayers
    have ⟨embd, hembd, hx⟩ := Except.bind_eq_ok_iff.mp (LlamaCpuModel.load_eq_ok_iff.mp hembed).left
    have ⟨norm, hnorm, hhead⟩ := Except.bind_eq_ok_iff.mp (LlamaCpuModel.load_eq_ok_iff.mp hhead).left
    have ⟨lmHead, hlmHead, hlogits⟩ := Except.bind_eq_ok_iff.mp hhead
    rw [WeightStore.require_eq_ok_iff] at hembd hnorm hlmHead
    rw [if_pos hout] at hlmHead
    cases hx
    cases hlogits
    simp only [run, forward, whenLoaded, hembd, hnorm, hlmHead]
    exact ⟨rfl, (append_nil _).symm⟩

-- One layer with all its tensors.
theorem exists_not_refines : ¬Refines (fun _ => some ()) 1 := by
  intro h
  have ⟨hlogits, _⟩ := h (countNorms Unit) 1 0 0 ⟨fun _ _ => ([], []), 0⟩ _ ⟨fun _ => [], fun _ => ([], []), []⟩ _ (by simp) rfl
  revert hlogits
  decide +kernel

end LlamaMetalModel
