import VeloCore.Objects.Metal.Rope
import VeloCore.Objects.Metal.Theorems.KvLayers
import VeloCore.Objects.Gguf.Theorems.Loader
import VeloCore.Objects.Backend.Exact
import VeloCore.Primitives.Fills

open List F32

section Turns

variable {φ σ ε : Type} [F32 φ]

-- The loops of the CPU are its rotations one after another.
theorem applyRope_eq (x : List φ) (pos nHeads headDim : Nat) (freqBase : φ) :
    (applyRope x pos nHeads headDim (headDim / 2) freqBase : Eff σ ε (List φ)) =
      Eff.forEach (fun x turn => turn.rotate (turn.cpuAngle headDim freqBase) x) (cpuTurns pos nHeads headDim) x := by
  rw [cpuTurns, Eff.forEach_flatMap]
  simp only [Eff.forEach_map, Turn.rotate, Turn.cpuAngle, Nat.mul_div_cancel_left _ (show 0 < 2 by decide)]
  rfl

-- Rotations of the same position and exponent are by the same angle, if a negative exponent makes the inverse.
theorem kernelAngle_eq [ExactFunctions] {turn : Turn} {base : ℝ} {headDim : Nat} (heven : turn.exponent % 2 = 0)
    (hpow : ∀ e : ℝ, ExactFunctions.powf base (-e) = 1 / ExactFunctions.powf base e) :
    (turn.kernelAngle headDim (.real base) : Exact) = turn.cpuAngle headDim (.real base) := by
  have htwice : (2 : ℝ) * (((turn.exponent : ℤ) / 2 : ℤ) : ℝ) = turn.exponent := by
    exact_mod_cast Int.mul_ediv_cancel' (show (2 : ℤ) ∣ turn.exponent by omega)
  simp [Turn.kernelAngle, Turn.cpuAngle, mul, div, neg, powf, ofInt, Exact.map, Exact.map₂, hpow, htwice, div_eq_mul_inv]

end Turns

namespace ModelLoader.ModelMeta

variable {m : ModelMeta} {pos : Nat}

theorem mem_kernelTurns : turn ∈ m.kernelTurns pos ↔
    ∃ t < (m.nHead + m.nHeadKv) * m.headDim / 2, ropeThread (uint pos) (uint m.headDim) t = turn := by
  simp [kernelTurns]

-- The first two numbers of a head are those that are rotated together only if there are no others.
theorem RopeAgrees.headDim_eq (h : m.RopeAgrees pos) (hm : m.Sane) (heven : m.headDim % 2 = 0) (hpos : m.headDim ≠ 0) :
    m.headDim = 2 ∧ uint pos = pos := by
  have hcpu : ⟨0, m.headDim / 2, pos, 0⟩ ∈ cpuTurns pos m.nHead m.headDim :=
    mem_flatMap.mpr ⟨0, mem_range.mpr hm.nHead_pos, mem_map.mpr ⟨0, mem_range.mpr (by omega), by simp⟩⟩
  have ⟨t, _, ht⟩ := mem_kernelTurns.mp (mem_of_mem_filter (h.queries.mem_iff.mpr hcpu))
  simp only [ropeThread, Turn.mk.injEq] at ht
  have hsecond := ht.right.left
  rw [ht.left] at hsecond
  have hone : uint (0 + 1) = 1 := rfl
  exact ⟨by omega, ht.right.right.left⟩

theorem RopeAgrees.buffer (h : m.RopeAgrees pos) (hm : m.Sane) (hdim : m.headDim = 2) :
    2 * (m.nHead + m.nHeadKv) ≤ m.nEmbd := by
  by_contra hlt
  -- The thread that would rotate the number behind the last one
  have hmem : ropeThread (uint pos) (uint m.headDim) (m.nEmbd / 2) ∈ m.kernelTurns pos :=
    mem_kernelTurns.mpr ⟨_, by rw [hdim]; omega, rfl⟩
  have hlt' := (h.inside _ hmem).right
  have hsize := hm.nEmbd_lt
  rw [ropeThread, uint_eq (n := m.nEmbd / 2 * 2) (by omega), uint_eq (by omega), ropeBuffer] at hlt'
  dsimp only at hlt'
  omega

section Pairs

variable (hdim : m.headDim = 2) (hpos : pos < 2 ^ 32) (hbuffer : 2 * (m.nHead + m.nHeadKv) ≤ m.nEmbd) (hm : m.Sane)

include hdim hpos hbuffer hm

-- Heads of one pair
theorem kernelTurns_eq : m.kernelTurns pos = (range (m.nHead + m.nHeadKv)).map fun t => ⟨2 * t, 2 * t + 1, pos, 0⟩ := by
  have hsize := hm.nEmbd_lt
  rw [kernelTurns, hdim, Nat.mul_div_cancel _ (by decide)]
  refine map_congr_left fun t ht => ?_
  have ht := mem_range.mp ht
  rw [ropeThread, uint_eq hpos, uint_eq (n := t * 2) (by omega), uint_eq (by omega), Nat.mul_comm t]
  simp [uint]

theorem filter_kernelTurns (hn : n ≤ m.nHead + m.nHeadKv) :
    (m.kernelTurns pos).filter (·.first < n * m.headDim) = cpuTurns pos n m.headDim := by
  have hcpu : cpuTurns pos n 2 = (range n).map fun h => ⟨2 * h, 2 * h + 1, pos, 0⟩ := by
    simp [cpuTurns, map_eq_flatMap, Nat.mul_comm]
  obtain ⟨k, hk⟩ := Nat.exists_eq_add_of_le hn
  rw [kernelTurns_eq hdim hpos hbuffer hm, hdim, hcpu, hk, range_add, map_append, filter_append, filter_eq_self.mpr,
    filter_eq_nil_iff.mpr, append_nil]
  case _ => simp; omega
  case _ => simp; omega

theorem countP_kernelTurns (hn : n ≤ m.nHead + m.nHeadKv) (hc : c < n * m.headDim) :
    (m.kernelTurns pos).countP (·.touches c) = 1 := by
  rw [kernelTurns_eq hdim hpos hbuffer hm, countP_map]
  have hcount : (range (m.nHead + m.nHeadKv)).count (c / 2) = 1 :=
    count_eq_one_of_mem nodup_range (mem_range.mpr (by rw [hdim] at hc; omega))
  rw [count_eq_countP] at hcount
  refine (countP_congr fun t _ => ?_).trans hcount
  simp [Turn.touches]
  omega

theorem ropeAgrees_of : m.RopeAgrees pos where
  queries     := .of_eq (filter_kernelTurns hdim hpos hbuffer hm (Nat.le_add_right ..))
  keys        := .of_eq (filter_kernelTurns hdim hpos hbuffer hm (Nat.le_add_left ..))
  queriesOnce := fun _ => countP_kernelTurns hdim hpos hbuffer hm (Nat.le_add_right ..)
  keysOnce    := fun _ => countP_kernelTurns hdim hpos hbuffer hm (Nat.le_add_left ..)
  inside turn h := by
    rw [kernelTurns_eq hdim hpos hbuffer hm] at h
    have ⟨t, ht, heq⟩ := mem_map.mp h
    have ht := mem_range.mp ht
    rw [← heq, ropeBuffer]
    exact ⟨by dsimp only; omega, by dsimp only; omega⟩

end Pairs

theorem ropeAgrees_of_zero (h : m.headDim = 0) : m.RopeAgrees pos := by
  have hkernel : m.kernelTurns pos = [] := by simp [kernelTurns, h]
  have hcpu (n : Nat) : cpuTurns pos n 0 = [] := by simp [cpuTurns]
  exact ⟨by simp [hkernel, h, hcpu], by simp [hkernel, h, hcpu], by simp [h], by simp [h], by simp [hkernel]⟩

theorem ropeAgrees_iff (hm : m.Sane) (heven : m.headDim % 2 = 0) (pos : Nat) : m.RopeAgrees pos ↔
    m.headDim = 0 ∨ m.headDim = 2 ∧ pos < 2 ^ 32 ∧ 2 * (m.nHead + m.nHeadKv) ≤ m.nEmbd := by
  constructor
  case mp =>
    intro h
    refine or_iff_not_imp_left.mpr fun hne => ?_
    have ⟨hdim, hpos⟩ := h.headDim_eq hm heven hne
    exact ⟨hdim, hpos ▸ Nat.mod_lt _ (by norm_num), h.buffer hm hdim⟩
  case mpr =>
    intro h
    rcases h with h | ⟨hdim, hpos, hbuffer⟩
    case inl => exact ropeAgrees_of_zero h
    case inr => exact ropeAgrees_of hdim hpos hbuffer hm

-- A model with four heads of one pair each, and one of keys; two numbers are left at the end.
theorem ropeAgrees_iff_pairs : RopeAgrees ⟨"", 1, 10, 1, 4, 1, 1, 1, 2, 0, 0, .q4_0⟩ 7 ↔
    2 = 0 ∨ 2 = 2 ∧ 7 < 2 ^ 32 ∧ 2 * (4 + 1) ≤ 10 :=
  ropeAgrees_iff ⟨by decide, by decide, by decide, by decide, by decide, by decide, .inl rfl⟩ (by decide) 7

-- One head of four numbers
theorem exists_rope_disagrees : ∃ (m : ModelMeta) (pos : Nat), m.Sane ∧ m.headDim % 2 = 0 ∧ ¬m.RopeAgrees pos := by
  have hm : Sane ⟨"", 1, 4, 1, 1, 1, 1, 1, 4, 0, 0, .q4_0⟩ :=
    ⟨by decide, by decide, by decide, by decide, by decide, by decide, .inl rfl⟩
  refine ⟨_, 1, hm, by decide, fun h => ?_⟩
  exact absurd (h.headDim_eq hm (by decide) (by decide)).left (by decide)

end ModelLoader.ModelMeta
