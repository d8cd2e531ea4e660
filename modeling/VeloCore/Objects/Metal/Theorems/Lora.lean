import Mathlib
import VeloCore.Objects.Metal.Lora
import VeloCore.Objects.Metal.Theorems.KvLayers

open List

-- Threads that each change a cell of their own, in any order
section Cells

variable {ι α : Type} {l : List ι} {k : ι → Nat} {g : ι → α → α} {i : ι} {n : Nat}

theorem foldl_modify_of_forall (h : ∀ j ∈ l, k j = n → g j = id) (out : Nat → α) :
    l.foldl (fun out i => Function.update out (k i) (g i (out (k i)))) out n = out n := by
  induction l using reverseRecOn
  case nil => rfl
  case append_singleton l j hi =>
    rw [foldl_append, foldl_cons, foldl_nil, Function.update_apply]
    have hl := hi fun j' hj' => h j' (mem_append_left _ hj')
    split
    case isTrue heq  => rw [h j (by simp) heq.symm, ← heq, hl]; rfl
    case isFalse     => exact hl

theorem foldl_modify (hi : i ∈ l) (hl : l.Nodup) (h : ∀ j ∈ l, j ≠ i → k j = k i → g j = id) (out : Nat → α) :
    l.foldl (fun out i => Function.update out (k i) (g i (out (k i)))) out (k i) = g i (out (k i)) := by
  induction l using reverseRecOn
  case nil => contradiction
  case append_singleton l j hi' =>
    rw [nodup_append'] at hl
    obtain ⟨hl, _, hdisjoint⟩ := hl
    rw [foldl_append, foldl_cons, foldl_nil, Function.update_apply]
    by_cases hj : j = i
    case pos =>
      subst hj
      have hnot : j ∉ l := fun hmem => hdisjoint hmem (mem_singleton_self j)
      rw [if_pos rfl, foldl_modify_of_forall fun j' hj' heq =>
        h j' (mem_append_left _ hj') (fun hsame => hnot (hsame ▸ hj')) heq]
    case neg =>
      have hmem : i ∈ l := (mem_append.mp hi).resolve_right fun hmem => hj (mem_singleton.mp hmem).symm
      have hrest := hi' hmem hl fun j' hj' => h j' (mem_append_left _ hj')
      split
      case isTrue heq  => rw [h j (by simp) hj heq.symm, ← heq, hrest]; rfl
      case isFalse     => exact hrest

end Cells

section Merged

variable {R : Type} [CommRing R] {w x allLoraA allLoraB : List R} {adapters : List (LoraRow R)} {adapter : LoraRow R}
  {dIn dOut r b : Nat} {threads threads' : List (Nat × Nat)}

-- A matrix in a buffer, row by row, and a vector
def matrixAt (buffer : List R) (offset rows cols : Nat) : Matrix (Fin rows) (Fin cols) R :=
  fun i j => buffer.getD (offset + (i * cols + j)) 0

def vectorAt (buffer : List R) (offset n : Nat) : Fin n → R :=
  fun i => buffer.getD (offset + i) 0

-- The weights with an adapter merged into them
def LoraRow.merge (adapter : LoraRow R) (allLoraA allLoraB : List R) (r : Nat) (weights : Matrix (Fin dOut) (Fin dIn) R) :
    Matrix (Fin dOut) (Fin dIn) R :=
  if adapter.offsetA = noAdapter then
    weights
  else
    weights + adapter.scale • (matrixAt allLoraB adapter.offsetB.toNat dOut r * matrixAt allLoraA adapter.offsetA.toNat r dIn)

theorem foldl_range_add (f : Nat → R) (n : Nat) : (range n).foldl (fun sum i => sum + f i) 0 = ∑ i : Fin n, f i := by
  induction n
  case zero      => rfl
  case succ n hi => rw [range_succ, foldl_append, hi, Fin.sum_univ_castSucc]; rfl

-- Places of a matrix of this size
theorem row_major_lt {rows cols i j : Nat} (h : rows * cols < 2 ^ 32) (hi : i < rows) (hj : j < cols) : i * cols + j < 2 ^ 32 := by
  have := Nat.mul_le_mul_right cols (Nat.succ_le_of_lt hi)
  rw [Nat.succ_mul] at this
  omega

theorem row_major_inj {cols b b' c c' : Nat} (hc : c < cols) (hc' : c' < cols) (h : b * cols + c = b' * cols + c') :
    b = b' ∧ c = c' := by
  have hsame (b c : Nat) (hc : c < cols) : (b * cols + c) / cols = b ∧ (b * cols + c) % cols = c := by
    rw [Nat.mul_comm, Nat.mul_add_div (Nat.zero_lt_of_lt hc), Nat.mul_add_mod, Nat.div_eq_of_lt hc, Nat.mod_eq_of_lt hc]
    exact ⟨rfl, rfl⟩
  have h₁ := hsame b c hc
  have h₂ := hsame b' c' hc'
  rw [h] at h₁
  exact ⟨h₁.left.symm.trans h₂.left, h₁.right.symm.trans h₂.right⟩

namespace MatvecKernel

theorem mem_grid {width height : Nat} : (col, b) ∈ grid width height ↔ col < width ∧ b < height := by
  simp [grid]

theorem nodup_grid {width height : Nat} : (grid width height).Nodup :=
  nodup_range.product nodup_range

theorem getD_drop (l : List R) (m n : Nat) : (l.drop m).getD n 0 = l.getD (m + n) 0 := by
  rw [getD_eq_getElem?_getD, getD_eq_getElem?_getD, getElem?_drop]

-- The product of the adapter's matrices with the vector, one inner product after the other
theorem loraSum_eq (ha : r * dIn < 2 ^ 32) (hb : dOut * r < 2 ^ 32) (c : Fin dOut) {off offA offB : Nat} :
    loraSum (x.drop off) (allLoraA.drop offA) (allLoraB.drop offB) dIn r c =
      ((matrixAt allLoraB offB dOut r * matrixAt allLoraA offA r dIn).mulVec (vectorAt x off dIn)) c := by
  have hxa (j : Nat) (hj : j < r) : (range dIn).foldl (fun xa i =>
      xa + (x.drop off).getD i 0 * (allLoraA.drop offA).getD (uint (j * dIn + i)) 0) 0 =
        ((matrixAt allLoraA offA r dIn).mulVec (vectorAt x off dIn)) ⟨j, hj⟩ := by
    rw [foldl_range_add]
    refine Finset.sum_congr rfl fun i _ => ?_
    rw [uint_eq (row_major_lt ha hj i.isLt), getD_drop, getD_drop, mul_comm]
    rfl
  rw [← Matrix.mulVec_mulVec, loraSum]
  rw [foldl_range_add fun j => (range dIn).foldl (fun xa i =>
    xa + (x.drop off).getD i 0 * (allLoraA.drop offA).getD (uint (j * dIn + i)) 0) 0 *
      (allLoraB.drop offB).getD (uint (c * r + j)) 0]
  refine Finset.sum_congr rfl fun j _ => ?_
  rw [hxa j j.isLt, uint_eq (row_major_lt hb c.isLt j.isLt), getD_drop, mul_comm]
  rfl

-- Each thread of the product writes its row.
theorem runMatvecBatchedF32_eq (hw : dOut * dIn < 2 ^ 32) (hx : batchSize * dIn < 2 ^ 32) (hout : batchSize * dOut < 2 ^ 32)
    (hthreads : threads ~ grid dOut batchSize) (out : Nat → R) :
    (∀ b < batchSize, ∀ c : Fin dOut, runMatvecBatchedF32 w x dOut dIn threads out (b * dOut + c) =
      ((matrixAt w 0 dOut dIn).mulVec (vectorAt x (b * dIn) dIn)) c) ∧
    ∀ n, batchSize * dOut ≤ n → runMatvecBatchedF32 w x dOut dIn threads out n = out n := by
  let product (thread : Nat × Nat) : R := (range dIn).foldl (fun sum c =>
    sum + w.getD (uint (thread.1 * dIn + c)) 0 * x.getD (uint (thread.2 * dIn + c)) 0) 0
  let cell (thread : Nat × Nat) : Nat := thread.2 * dOut + thread.1
  have hmem {thread : Nat × Nat} : thread ∈ threads ↔ thread.1 < dOut ∧ thread.2 < batchSize :=
    hthreads.mem_iff.trans mem_grid
  have hcell {thread : Nat × Nat} (h : thread ∈ threads) : cell thread < batchSize * dOut := by
    obtain ⟨hc, hb⟩ := hmem.mp h
    have := Nat.mul_le_mul_right dOut (Nat.succ_le_of_lt hb)
    rw [Nat.succ_mul] at this
    dsimp only [cell]
    omega
  have hfold : runMatvecBatchedF32 w x dOut dIn threads out =
      threads.foldl (fun out thread => Function.update out (cell thread) ((fun _ => product thread) (out (cell thread)))) out := by
    refine foldl_ext _ _ _ fun out thread h => ?_
    obtain ⟨hc, _⟩ := hmem.mp h
    have hlt : thread.2 * dOut + thread.1 < 2 ^ 32 := (hcell h).trans hout
    exact (if_neg (Nat.not_le.mpr hc)).trans (by rw [uint_eq hlt])
  rw [hfold]
  refine ⟨fun b hb c => ?_, fun n hn => ?_⟩
  case refine_1 =>
    have hthread : (c.val, b) ∈ threads := hmem.mpr ⟨c.isLt, hb⟩
    refine (foldl_modify (k := cell) (g := fun thread _ => product thread) hthread (hthreads.nodup_iff.mpr nodup_grid)
      (fun thread h hne heq => ?_) out).trans ?_
    case refine_1 =>
      obtain ⟨hb', hc'⟩ := row_major_inj (hmem.mp h).left c.isLt heq
      exact absurd (Prod.ext hc' hb') hne
    case refine_2 =>
      dsimp only [product]
      rw [foldl_range_add]
      refine Finset.sum_congr rfl fun i _ => ?_
      rw [uint_eq (row_major_lt hw c.isLt i.isLt), uint_eq (row_major_lt hx hb i.isLt)]
      exact congrArg (fun place => w.getD place 0 * _) (Nat.zero_add _).symm
  case refine_2 =>
    refine foldl_modify_of_forall (k := cell) (g := fun thread _ => product thread) (fun thread h heq => ?_) out
    have := hcell h
    omega

-- Each thread of a vector with an adapter adds to its row, and the other ones change nothing.
theorem runMatvecLoraBatched_eq (x allLoraA allLoraB : List R) (adapters : List (LoraRow R)) (ha : r * dIn < 2 ^ 32)
    (hb : dOut * r < 2 ^ 32) (hx : adapters.length * dIn < 2 ^ 32) (hout : adapters.length * dOut < 2 ^ 32)
    (hgrid : grid dOut adapters.length ⊆ threads) (hnodup : threads.Nodup) (out : Nat → R) :
    (∀ b adapter, adapters[b]? = some adapter → ∀ c : Fin dOut,
      runMatvecLoraBatched x allLoraA allLoraB adapters dIn dOut r adapters.length threads out (b * dOut + c) =
        out (b * dOut + c) + ((adapter.merge allLoraA allLoraB r 0).mulVec (vectorAt x (b * dIn) dIn)) c) ∧
    ∀ n, adapters.length * dOut ≤ n →
      runMatvecLoraBatched x allLoraA allLoraB adapters dIn dOut r adapters.length threads out n = out n := by
  let cell (thread : Nat × Nat) : Nat := uint (thread.2 * dOut + thread.1)
  let gain (thread : Nat × Nat) (v : R) : R :=
    if h : thread.1 < dOut ∧ thread.2 < adapters.length then
      v + ((adapters[thread.2].merge allLoraA allLoraB r 0).mulVec (vectorAt x (thread.2 * dIn) dIn)) ⟨thread.1, h.left⟩
    else
      v
  have hthread (out : Nat → R) (thread : Nat × Nat) : loraThread x allLoraA allLoraB adapters dIn dOut r adapters.length out thread =
      Function.update out (cell thread) (gain thread (out (cell thread))) := by
    obtain ⟨c, b⟩ := thread
    dsimp only [loraThread, cell, gain]
    by_cases hin : c < dOut ∧ b < adapters.length
    case neg => rw [if_pos (by omega), dif_neg hin, Function.update_eq_self]
    case pos =>
      have hplace : b * dIn < 2 ^ 32 := (Nat.mul_le_mul_right dIn hin.right.le).trans_lt hx
      rw [if_neg (by omega), dif_pos hin, getElem?_eq_getElem hin.right, uint_eq hplace, LoraRow.merge]
      by_cases hno : adapters[b].offsetA = LoraRow.noAdapter
      case pos => simp only [if_pos hno, Matrix.zero_mulVec, Pi.zero_apply, add_zero, Function.update_eq_self]
      case neg =>
        rw [if_neg hno, zero_add, Matrix.smul_mulVec, Pi.smul_apply, smul_eq_mul, mul_comm adapters[b].scale]
        simp only [if_neg hno, loraSum_eq ha hb ⟨c, hin.left⟩]
  have hfold : runMatvecLoraBatched x allLoraA allLoraB adapters dIn dOut r adapters.length threads out =
      threads.foldl (fun out thread => Function.update out (cell thread) (gain thread (out (cell thread)))) out :=
    foldl_ext _ _ _ fun out thread _ => hthread out thread
  have hcell {c b : Nat} (hc : c < dOut) (hb : b < adapters.length) : cell (c, b) = b * dOut + c :=
    uint_eq (row_major_lt hout hb hc)
  rw [hfold]
  refine ⟨fun b adapter hadapter c => ?_, fun n hn => ?_⟩
  case refine_1 =>
    obtain ⟨hb, hget⟩ := List.getElem?_eq_some_iff.mp hadapter
    have hmem : (c.val, b) ∈ threads := hgrid (mem_grid.mpr ⟨c.isLt, hb⟩)
    have hothers (thread : Nat × Nat) (_ : thread ∈ threads) (hne : thread ≠ (c.val, b)) (heq : cell thread = cell (c.val, b)) :
        gain thread = id := by
      by_cases hin : thread.1 < dOut ∧ thread.2 < adapters.length
      case pos =>
        rw [hcell c.isLt hb] at heq
        obtain ⟨hb', hc'⟩ := row_major_inj hin.left c.isLt ((hcell hin.left hin.right).symm.trans heq)
        exact absurd (Prod.ext hc' hb') hne
      case neg => exact funext fun v => dif_neg hin
    have hrun := foldl_modify hmem hnodup hothers out
    rw [hcell c.isLt hb] at hrun
    rw [hrun, ← hget]
    exact dif_pos ⟨c.isLt, hb⟩
  case refine_2 =>
    refine foldl_modify_of_forall (k := cell) (g := gain) (fun thread h heq => ?_) out
    by_cases hin : thread.1 < dOut ∧ thread.2 < adapters.length
    case pos =>
      have hlt := Nat.mul_le_mul_right dOut (Nat.succ_le_of_lt hin.right)
      rw [Nat.succ_mul] at hlt
      have := (hcell hin.left hin.right).symm.trans heq
      omega
    case neg => exact funext fun v => dif_neg hin

-- A product and a batch of adapters after it are, for each vector, one product with the weights into which its own adapter is
-- merged, in whatever order the threads of both run. The grid of the second one may be larger than the batch.
theorem runMatvecLoraBatched_merged (w x allLoraA allLoraB : List R) (adapters : List (LoraRow R)) (hw : dOut * dIn < 2 ^ 32)
    (ha : r * dIn < 2 ^ 32) (hb : dOut * r < 2 ^ 32) (hx : adapters.length * dIn < 2 ^ 32)
    (hout : adapters.length * dOut < 2 ^ 32) (hthreads : threads ~ grid dOut adapters.length) (hgrid : grid dOut adapters.length ⊆ threads')
    (hnodup : threads'.Nodup) (out : Nat → R) :
    let out' := runMatvecLoraBatched x allLoraA allLoraB adapters dIn dOut r adapters.length threads'
      (runMatvecBatchedF32 w x dOut dIn threads out)
    (∀ b adapter, adapters[b]? = some adapter → ∀ c : Fin dOut, out' (b * dOut + c) =
      ((adapter.merge allLoraA allLoraB r (matrixAt w 0 dOut dIn)).mulVec (vectorAt x (b * dIn) dIn)) c) ∧
    ∀ n, adapters.length * dOut ≤ n → out' n = out n := by
  intro out'
  obtain ⟨hproduct, hbeyond⟩ := runMatvecBatchedF32_eq (x := x) hw hx hout hthreads out
  obtain ⟨hlora, hbeyond'⟩ := runMatvecLoraBatched_eq x allLoraA allLoraB adapters ha hb hx hout hgrid hnodup
    (runMatvecBatchedF32 w x dOut dIn threads out)
  refine ⟨fun b adapter hadapter c => ?_, fun n hn => (hbeyond' n hn).trans (hbeyond n hn)⟩
  obtain ⟨hlt, _⟩ := List.getElem?_eq_some_iff.mp hadapter
  refine (hlora b adapter hadapter c).trans ?_
  rw [hproduct b hlt c, LoraRow.merge, LoraRow.merge]
  split
  case isTrue  => rw [Matrix.zero_mulVec, Pi.zero_apply, add_zero]
  case isFalse => rw [zero_add, Matrix.add_mulVec, Pi.add_apply]

-- Two vectors, of which the second one has an adapter, with the threads of the second dispatch the other way round
theorem runMatvecLoraBatched_merged_two :
    runMatvecLoraBatched [1, 2, 3, 4] [5, 6] [7, 8] [⟨0xFFFFFFFF, 0, 0⟩, ⟨0, 0, (10 : ℤ)⟩] 2 2 1 2 (grid 3 2).reverse
      (runMatvecBatchedF32 [1, 0, 0, 1] [1, 2, 3, 4] 2 2 (grid 2 2) fun _ => 0) 3 =
        ((LoraRow.merge (⟨0, 0, 10⟩ : LoraRow ℤ) [5, 6] [7, 8] 1 (matrixAt [1, 0, 0, 1] 0 2 2)).mulVec
          (vectorAt [1, 2, 3, 4] 2 2)) 1 :=
  (runMatvecLoraBatched_merged [1, 0, 0, 1] [1, 2, 3, 4] [5, 6] [7, 8] [⟨0xFFFFFFFF, 0, 0⟩, ⟨0, 0, 10⟩] (by decide) (by decide)
    (by decide) (by decide) (by decide) (.refl (grid 2 2)) (by decide) (by decide) _).left 1 _ rfl 1

end MatvecKernel
end Merged
