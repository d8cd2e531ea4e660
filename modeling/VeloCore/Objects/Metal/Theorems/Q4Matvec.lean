import VeloCore.Objects.Metal.Q4Matvec
import VeloCore.Objects.Metal.Theorems.KvLayers
import VeloCore.Objects.Backend.Theorems.Q4k

open List F32 Eff

-- Writes to places of their own, or of the same value
theorem foldl_update {l : List ι} (k : ι → Nat) (f : ι → α) {out : Nat → α} (hi : i ∈ l)
    (h : ∀ j ∈ l, k j = k i → f j = f i) : l.foldl (fun out i => Function.update out (k i) (f i)) out (k i) = f i := by
  induction l using reverseRecOn
  case nil => contradiction
  case append_singleton l j hj =>
    rw [foldl_append, foldl_cons, foldl_nil, Function.update_apply]
    split
    case isTrue heq => exact h j (by simp) heq.symm
    case isFalse hne =>
      have hmem : i ∈ l := (mem_append.mp hi).resolve_right fun hj => hne (mem_singleton.mp hj ▸ rfl)
      exact hj hmem fun j' hj' => h j' (mem_append_left _ hj')

section Cpu

variable {φ σ ε : Type} [F32 φ] {w : List UInt8} {x : List φ} {n rows : Nat} {t : GgmlType}

-- The numbers of a row of `n` blocks
def rowValues (t : GgmlType) (n : Nat) (w : List UInt8) (r : Nat) : List φ :=
  (range n).flatMap fun b => t.decodeBlock ((w.part (n * t.stride) r).part t.stride b)

theorem length_rowValues (ht : t.Decoded) : (rowValues t n w r : List φ).length = n * t.blockElems := by
  simp [rowValues, GgmlType.length_decodeBlock ht]

-- Each row is the product of its numbers with the vector, whatever the row before left behind.
theorem matvecQuant_eq (ht : t.Decoded) (hs : t.stride = t.blockBytes) (hw : w.length = rows * (n * t.blockBytes)) :
    (matvecQuant (replicate rows zero) w t x rows (n * t.blockElems) : Eff σ ε (List φ)) =
      pure ((range rows).map fun r => add zero (dot (rowValues t n w r) x)) := by
  have hrow (r : Nat) (hr : r < rows) (row : List φ) (hlen : row.length = n * t.blockElems) :
      (dequantRow t (w.part (n * t.blockBytes) r) row : Eff σ ε (List φ)) = pure (rowValues t n w r) := by
    rw [dequantRow_eq ht (by rw [length_part hw.ge hr, hs]) hlen, rowValues, hs]
  have hloop (k m : Nat) (hk : k + m = rows) (pre row : List φ) (hpre : pre.length = k) (hlen : row.length = n * t.blockElems) :
      ∃ row', (Eff.forEach (fun p r => do
        let src ← Eff.slice w (r * (n * t.blockBytes)) ((r + 1) * (n * t.blockBytes))
        let row ← dequantRow t src p.2
        let o ← Eff.index p.1 r
        let out ← Eff.put p.1 r (add o (dot row x))
        pure (out, row)) (range' k m) (pre ++ replicate m zero, row) : Eff σ ε (List φ × List φ)) =
          pure (pre ++ (range' k m).map fun r => add zero (dot (rowValues t n w r) x), row') := by
    induction m generalizing k pre row
    case zero => exact ⟨row, by simp [Eff.forEach]⟩
    case succ m hi =>
      obtain ⟨row', hrow'⟩ := hi (k + 1) (by omega) (pre ++ [add zero (dot (rowValues t n w k) x)]) (rowValues t n w k)
        (by simp [hpre]) (length_rowValues ht)
      refine ⟨row', ?_⟩
      have hindex : (Eff.index (pre ++ replicate (m + 1) zero) k : Eff σ ε φ) = pure zero := by
        rw [index_eq (by simp [hpre])]
        simp [← hpre]
      have hput (v : φ) : (Eff.put (pre ++ replicate (m + 1) zero) k v : Eff σ ε (List φ)) =
          pure (pre ++ [v] ++ replicate m zero) := by
        rw [put_eq (by simp [hpre]), ← hpre]
        simp [replicate_succ]
      rw [range'_succ, Eff.forEach]
      simp only [slice_part hw.ge (show k < rows by omega), hrow k (by omega) row hlen, pure_bind, hindex, hput, hrow']
      simp
  obtain ⟨row', h⟩ := hloop 0 rows (Nat.zero_add rows) [] (replicate (n * t.blockElems) zero) rfl length_replicate
  rw [matvecQuant, GgmlType.rowBytes_mul, range_eq_range']
  rw [nil_append, nil_append] at h
  exact (congrArg (· >>= fun p => pure p.1) h).trans (pure_bind _ _)

end Cpu

namespace MatvecKernel

variable {φ : Type} [F32 φ] {w : List UInt8} {x : List φ} {n rows cols row : Nat}

omit [F32 φ] in
theorem shift_eq (byte : UInt8) : byte >>> (4 : UInt8) &&& 0x0F = byte >>> (4 : UInt8) := by
  refine UInt8.toBitVec_inj.mp (BitVec.eq_of_getLsbD_eq fun i hi => ?_)
  interval_cases i <;> simp

theorem q4_0Sum_eq (hr : row < rows) (hw : w.length = rows * (n * 18)) (hbytes : rows * (n * 18) < 2 ^ 32)
    (hx : off + n * 32 ≤ x.length) (hsize : x.length < 2 ^ 32) :
    q4_0Sum w x (n * 32) row off = dot (rowValues .q4_0 n w row) ((x.drop off).take (n * 32)) := by
  have hvec : (x.drop off).take (n * 32) = (range n).flatMap fun b => (range 16).flatMap fun i =>
      [x[off + b * 32 + i * 2]?.getD zero, x[off + b * 32 + i * 2 + 1]?.getD zero] :=
    take_drop_pairs (m := 16) zero hx
  have hpage : (row + 1) * (n * 18) ≤ rows * (n * 18) := Nat.mul_le_mul_right _ hr
  rw [Nat.succ_mul] at hpage
  have hstart (b : Nat) (hb : b < n) : uint (uint (row * n * 18) + b * 18) = row * (n * 18) + b * 18 := by
    rw [uint_eq (n := row * n * 18) (by rw [Nat.mul_assoc]; omega), Nat.mul_assoc, uint_eq (by omega)]
  have hbyte (b k : Nat) (hb : b < n) (hk : k < 18) :
      ((w.part (n * 18) row).part 18 b)[k]? = w[row * (n * 18) + b * 18 + k]? := by
    rw [getElem?_part hk, getElem?_part (by omega), Nat.add_assoc]
  rw [dot, F32.sum, hvec, rowValues, zipWith_flatMap fun b _ => by rw [GgmlType.length_decodeBlock (by decide)]; rfl,
    foldl_flatMap, q4_0Sum, Nat.mul_div_cancel n (by decide)]
  refine foldl_ext _ _ _ fun s b hb => ?_
  have hb := mem_range.mp hb
  have hnibbles (i : Nat) (hi : i < 16) : ((((w.part (n * 18) row).part 18 b).take 18).drop 2)[i]? =
      w[row * (n * 18) + b * 18 + 2 + i]? := by
    rw [getElem?_drop, getElem?_take_of_lt (by omega), hbyte b (2 + i) hb (by omega), Nat.add_assoc (row * (n * 18) + b * 18) 2 i]
  simp only [GgmlType.stride, GgmlType.blockBytes, GgmlType.decodeBlock, q4_0Block, nibbles]
  rw [zipWith_flatMap (by simp), foldl_flatMap, hstart b hb, hbyte b 0 hb (by omega), hbyte b 1 hb (by omega)]
  refine foldl_ext _ _ _ fun s i hi => ?_
  have hi := mem_range.mp hi
  rw [hnibbles i hi, shift_eq, uint_eq (by omega), uint_eq (by omega)]
  rfl

-- The products of the rows, as the CPU has them, are what `x` returns.
def Computes (w : List UInt8) (x : List φ) (rows cols : Nat) (out : Nat → φ) : Prop :=
  ∃ products : List φ, products.length = rows ∧
    (matvecQuant (replicate rows zero) w .q4_0 x rows cols : Eff Unit Empty (List φ)) = pure products ∧
    (∀ r < rows, ∃ row, (dequantQ4_0Row (w.part (cols / 32 * 18) r) (replicate cols zero) : Eff Unit Empty (List φ)) = pure row ∧
      products[r]? = some (dot row x)) ∧
    ∀ r < rows, products[r]? = some (out r)

theorem computes_of (hzero : ∀ a : φ, add zero a = a) (hw : w.length = rows * (n * 18)) {out : Nat → φ}
    (hout : ∀ r < rows, out r = dot (rowValues .q4_0 n w r) x) : Computes w x rows (n * 32) out := by
  have hdecoded : GgmlType.q4_0.Decoded := by decide
  have hget (r : Nat) (hr : r < rows) : ((range rows).map fun r => add zero (dot (rowValues .q4_0 n w r) x))[r]? =
      some (dot (rowValues .q4_0 n w r) x) := by
    rw [getElem?_map, getElem?_range hr, Option.map_some, hzero]
  refine ⟨_, by simp, matvecQuant_eq hdecoded rfl hw, fun r hr => ⟨rowValues .q4_0 n w r, ?_, hget r hr⟩,
    fun r hr => (hget r hr).trans (congrArg some (hout r hr).symm)⟩
  rw [Nat.mul_div_cancel n (by decide)]
  exact dequantRow_eq hdecoded (length_part hw.ge hr).ge length_replicate

theorem runMatvecQ4_0_eq (hrows : rows < 2 ^ 32) (out : Nat → φ) (hr : row < rows) :
    runMatvecQ4_0 out w x rows cols row = q4_0Sum w x (uint cols) row 0 := by
  have hfold : runMatvecQ4_0 out w x rows cols =
      (range rows).foldl (fun out tpig => Function.update out tpig (q4_0Sum w x (uint cols) tpig 0)) out :=
    foldl_ext _ _ _ fun out tpig ht => if_pos ((uint_eq hrows).symm ▸ mem_range.mp ht)
  rw [hfold]
  exact foldl_update (fun i => i) _ (mem_range.mpr hr) fun j _ hj => hj ▸ rfl

theorem runMatvecBatchedQ4_0_eq {batchSize b : Nat} (hrows : rows < 2 ^ 32) (hsize : batchSize * rows < 2 ^ 32)
    (out : Nat → φ) (hb : b < batchSize) (hr : row < rows) :
    runMatvecBatchedQ4_0 out w x rows cols batchSize (b * rows + row) = q4_0Sum w x (uint cols) row (uint (b * uint cols)) := by
  have hlt {b r : Nat} (hb : b < batchSize) (hr : r < rows) : b * rows + r < 2 ^ 32 := by
    have := Nat.mul_le_mul_right rows (Nat.succ_le_of_lt hb)
    rw [Nat.succ_mul] at this
    omega
  let threads := (range batchSize).flatMap fun b => (range rows).map fun r => (b, r)
  have hfold : runMatvecBatchedQ4_0 out w x rows cols batchSize = threads.foldl (fun out (thread : Nat × Nat) =>
      Function.update out (thread.1 * rows + thread.2) (q4_0Sum w x (uint cols) thread.2 (uint (thread.1 * uint cols)))) out := by
    rw [foldl_flatMap]
    refine foldl_ext _ _ _ fun out b hb => ?_
    rw [foldl_map]
    refine foldl_ext _ _ _ fun out r hr => ?_
    rw [uint_eq hrows, if_pos (mem_range.mp hr), uint_eq (hlt (mem_range.mp hb) (mem_range.mp hr))]
  have hmem : (b, row) ∈ threads :=
    mem_flatMap.mpr ⟨b, mem_range.mpr hb, mem_map.mpr ⟨row, mem_range.mpr hr, rfl⟩⟩
  rw [hfold]
  refine foldl_update (fun thread : Nat × Nat => thread.1 * rows + thread.2)
    (fun thread => q4_0Sum w x (uint cols) thread.2 (uint (thread.1 * uint cols))) hmem fun ⟨b', r'⟩ hj heq => ?_
  have ⟨_, _, hr'⟩ := mem_flatMap.mp hj
  have ⟨_, hr', hpair⟩ := mem_map.mp hr'
  cases hpair
  have hsame (b r : Nat) (hr : r < rows) : (b * rows + r) / rows = b ∧ (b * rows + r) % rows = r := by
    rw [Nat.mul_comm, Nat.mul_add_div (Nat.zero_lt_of_lt hr), Nat.mul_add_mod, Nat.div_eq_of_lt hr, Nat.mod_eq_of_lt hr]
    exact ⟨rfl, rfl⟩
  have h₁ := hsame b row hr
  have h₂ := hsame b' r' (mem_range.mp hr')
  dsimp only at heq ⊢
  rw [heq] at h₂
  rw [h₂.left.symm.trans h₁.left, h₂.right.symm.trans h₁.right]

-- One vector, and the vectors of a batch
theorem runMatvecQ4_0_computes (hzero : ∀ a : φ, add zero a = a) (w : List UInt8) (x : List φ) (rows cols batchSize : Nat)
    (hcols : 32 ∣ cols) (hw : w.length = rows * (cols / 32) * 18) (hx : x.length = batchSize * cols)
    (hrows : rows < 2 ^ 32) (hcols' : cols < 2 ^ 32) (hbytes : w.length < 2 ^ 32) (hsize : x.length < 2 ^ 32)
    (hout : batchSize * rows < 2 ^ 32) (out : Nat → φ) :
    (batchSize = 1 → Computes w x rows cols (runMatvecQ4_0 out w x rows cols)) ∧
      ∀ b < batchSize, Computes w (x.part cols b) rows cols fun r =>
        runMatvecBatchedQ4_0 out w x rows cols batchSize (b * rows + r) := by
  obtain ⟨n, rfl⟩ := hcols
  rw [Nat.mul_comm 32 n] at *
  rw [Nat.mul_div_cancel n (by decide), Nat.mul_assoc] at hw
  refine ⟨fun hone => computes_of hzero hw fun r hr => ?_, fun b hb => computes_of hzero hw fun r hr => ?_⟩
  case refine_1 =>
    subst hone
    rw [Nat.one_mul] at hx
    rw [runMatvecQ4_0_eq hrows out hr, uint_eq hcols', q4_0Sum_eq hr hw (hw ▸ hbytes) (by omega) hsize, drop_zero, ← hx,
      take_length]
  case refine_2 =>
    have hle := Nat.mul_le_mul_right (n * 32) (Nat.succ_le_of_lt hb)
    rw [Nat.succ_mul] at hle
    rw [runMatvecBatchedQ4_0_eq hrows hout out hb hr, uint_eq hcols', uint_eq (n := b * (n * 32)) (by omega),
      q4_0Sum_eq hr hw (hw ▸ hbytes) (by omega) hsize, List.part, drop_take, Nat.succ_mul, Nat.add_sub_cancel_left]

-- Two rows of one block, and two vectors
theorem runMatvecQ4_0_computes_two : ∃ _ : ExactFunctions,
    ∀ b < 2, Computes (replicate 36 0x4A) ((replicate 64 one).part 32 b) 2 32 fun r =>
      runMatvecBatchedQ4_0 (fun _ => (zero : Exact)) (replicate 36 0x4A) (replicate 64 one) 2 32 2 (b * 2 + r) := by
  have := realFunctions
  refine ⟨this, ?_⟩
  exact (runMatvecQ4_0_computes (fun a => by cases a <;> simp [add, zero, ofInt, Exact.map₂]) _ _ 2 32 2 (by decide) (by decide)
    length_replicate (by decide) (by decide) (by decide) (by rw [length_replicate]; decide) (by decide) _).right

end MatvecKernel
