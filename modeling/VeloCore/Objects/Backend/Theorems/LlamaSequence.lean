import VeloCore.Objects.Backend.LlamaSequence
import VeloCore.Objects.Backend.Theorems.LlamaForward
import VeloCore.Primitives.Alike

open List Eff

section Rows

variable {α : Type} {rows rows' row : List α} {a b n : Nat}

-- Rows of the same length that start alike
theorem Eff.slice_congr (hl : rows'.length = rows.length) (ht : rows'.take n = rows.take n) (hb : b ≤ n) :
    (Eff.slice rows' a b : Eff σ ε (List α)) = Eff.slice rows a b := by
  have htake : rows'.take b = rows.take b := by
    have h := congrArg (take b) ht
    rwa [take_take, take_take, Nat.min_eq_left hb] at h
  rw [Eff.slice, Eff.slice, hl, htake]

theorem Eff.index_eq_pure {l : List α} {i : Nat} {a : α} (h : l[i]? = some a) : (Eff.index l i : Eff σ ε α) = pure a := by
  ext1 s
  simp [Eff.index, h, pure_apply]

theorem Eff.index_eq_panic {l : List α} {i : Nat} (h : l[i]? = none) : (Eff.index l i : Eff σ ε α) = Eff.panic := by
  ext1 s
  simp [Eff.index, h, Eff.panic]

-- What `copy_from_slice` leaves of the rows
def written (start : Nat) (row rows : List α) : List α :=
  rows.take start ++ row ++ rows.drop (start + row.length)

theorem written_length (h : a + row.length ≤ rows.length) : (written a row rows).length = rows.length := by
  simp [written]
  omega

theorem take_written (h : a + row.length ≤ rows.length) :
    (written a row rows).take (a + row.length) = rows.take a ++ row := by
  rw [written, take_append_of_le_length (by simp; omega), take_of_length_le (by simp)]

end Rows

namespace ModelLoader

variable {φ : Type} {m : ModelMeta}

namespace KvCache

variable {ε : Type} {layer pos : Nat} {k v : List φ} {kv kv' : KvCache φ}

def writeK (layer pos : Nat) (k : List φ) (kv : KvCache φ) : KvCache φ :=
  { kv with k := kv.k.modify layer (written (pos * (kv.nHeadKv * kv.headDim)) k) }

def writeV (layer pos : Nat) (v : List φ) (kv : KvCache φ) : KvCache φ :=
  { kv with v := kv.v.modify layer (written (pos * (kv.nHeadKv * kv.headDim)) v) }

-- There are rows of the layer, and the row of the position is one of them.
def RowOf (m : ModelMeta) (layer pos : Nat) (row : List φ) : Prop :=
  layer < m.nLayer ∧ pos * (m.nHeadKv * m.headDim) + m.nHeadKv * m.headDim ≤ m.nCtx * m.nHeadKv * m.headDim ∧
    row.length = m.nHeadKv * m.headDim

instance : Decidable (RowOf m layer pos k) :=
  inferInstanceAs (Decidable (_ ∧ _))

theorem modify_of_getElem? {α : Type} {f : α → α} {l : List α} {i : Nat} {a : α} (h : l[i]? = some a) :
    l.set i (f a) = l.modify i f := by
  refine ext_getElem? fun j => ?_
  rw [getElem?_set, getElem?_modify]
  split
  case isFalse => cases l[j]? <;> rfl
  case isTrue hij =>
    subst hij
    rw [if_pos (List.getElem?_eq_some_iff.mp h).1, h]
    rfl

theorem modify_writeK {rows : List φ} {stride : Nat} (hk : kv.k[layer]? = some rows)
    (hs : kv.nHeadKv * kv.headDim = stride) (hl : k.length = stride) :
    (Eff.modify fun kv => { kv with
      k := kv.k.set layer (rows.take (pos * stride) ++ k ++ rows.drop (pos * stride + stride)) } :
      Eff (KvCache φ) ε Unit) kv = (.ok (), kv.writeK layer pos k) := by
  simp only [Eff.modify, writeK, hs, ← modify_of_getElem? hk, written, hl]

theorem modify_writeV {rows : List φ} {stride : Nat} (hv : kv.v[layer]? = some rows)
    (hs : kv.nHeadKv * kv.headDim = stride) (hl : v.length = stride) :
    (Eff.modify fun kv => { kv with
      v := kv.v.set layer (rows.take (pos * stride) ++ v ++ rows.drop (pos * stride + stride)) } :
      Eff (KvCache φ) ε Unit) kv = (.ok (), kv.writeV layer pos v) := by
  simp only [Eff.modify, writeV, hs, ← modify_of_getElem? hv, written, hl]

-- All that `store_kv` can do
theorem storeKv_apply (h : kv.Shaped m) : (storeKv layer pos k v : Eff (KvCache φ) ε Unit) kv =
    if RowOf m layer pos k then
      if RowOf m layer pos v then (.ok (), (kv.writeK layer pos k).writeV layer pos v)
      else (.error .panic, kv.writeK layer pos k)
    else (.error .panic, kv) := by
  have hs : kv.nHeadKv * kv.headDim = m.nHeadKv * m.headDim := by rw [h.nHeadKv_eq, h.headDim_eq]
  rw [storeKv, bind_ok get_apply]
  by_cases hl : layer < m.nLayer
  case neg =>
    have hk : kv.k[layer]? = none := getElem?_eq_none (by rw [h.k_length]; omega)
    rw [if_neg fun hr => hl hr.left, bind_error (show Eff.index kv.k layer kv = (.error .panic, kv) by simp [Eff.index, hk])]
  case pos =>
    obtain ⟨kRows, hk⟩ : ∃ rows, kv.k[layer]? = some rows := ⟨_, getElem?_eq_getElem (by rw [h.k_length]; exact hl)⟩
    obtain ⟨vRows, hv⟩ : ∃ rows, kv.v[layer]? = some rows := ⟨_, getElem?_eq_getElem (by rw [h.v_length]; exact hl)⟩
    have hkl := h.k_rows kRows (mem_of_getElem? hk)
    have hvl := h.v_rows vRows (mem_of_getElem? hv)
    have hrow (row : List φ) : (pos * (m.nHeadKv * m.headDim) ≤ pos * (m.nHeadKv * m.headDim) + m.nHeadKv * m.headDim ∧
        pos * (m.nHeadKv * m.headDim) + m.nHeadKv * m.headDim ≤ m.nCtx * m.nHeadKv * m.headDim ∧
        row.length = pos * (m.nHeadKv * m.headDim) + m.nHeadKv * m.headDim - pos * (m.nHeadKv * m.headDim)) ↔
        RowOf m layer pos row := by
      rw [Nat.add_sub_cancel_left, RowOf, and_iff_right (Nat.le_add_right _ _), and_iff_right hl]
    rw [bind_ok (show Eff.index kv.k layer kv = (.ok kRows, kv) by simp [Eff.index, hk]), hs, Eff.copyInto, hkl,
      if_congr (hrow k) rfl rfl]
    by_cases hrk : RowOf m layer pos k
    case neg => rw [if_neg hrk, if_neg hrk]; rfl
    case pos =>
      rw [if_pos hrk, if_pos hrk, pure_bind,
        bind_ok (modify_writeK hk hs hrk.right.right),
        bind_ok (show Eff.index kv.v layer (kv.writeK layer pos k) = (.ok vRows, kv.writeK layer pos k) by
          simp [Eff.index, hv]), Eff.copyInto, hvl, if_congr (hrow v) rfl rfl]
      by_cases hrv : RowOf m layer pos v
      case neg => rw [if_neg hrv, if_neg hrv]; rfl
      case pos =>
        rw [if_pos hrv, if_pos hrv, pure_bind]
        have hv' : (kv.writeK layer pos k).v[layer]? = some vRows := hv
        exact modify_writeV hv' hs hrv.right.right

theorem RowOf.le (h : RowOf m layer pos k) : pos * (m.nHeadKv * m.headDim) + k.length ≤ m.nCtx * m.nHeadKv * m.headDim := by
  rw [h.right.right]
  exact h.right.left

theorem mem_modify {α : Type} {f : α → α} {l : List α} {i : Nat} {b : α} (h : b ∈ l.modify i f) :
    b ∈ l ∨ ∃ a ∈ l, b = f a := by
  have ⟨j, hj⟩ := mem_iff_getElem?.mp h
  rw [getElem?_modify, Option.map_eq_map, Option.map_eq_some_iff] at hj
  have ⟨a, ha, hb⟩ := hj
  split at hb
  case isTrue  => exact .inr ⟨a, mem_of_getElem? ha, hb.symm⟩
  case isFalse => exact .inl (hb ▸ mem_of_getElem? ha)

theorem Shaped.writeK (h : kv.Shaped m) (hr : RowOf m layer pos k) : (kv.writeK layer pos k).Shaped m := by
  refine { h with k_length := by simpa [KvCache.writeK] using h.k_length, k_rows := fun rows hm => ?_ }
  rcases mem_modify hm with hm | ⟨rows₀, hm₀, heq⟩
  case inl => exact h.k_rows rows hm
  case inr =>
    have hl := h.k_rows rows₀ hm₀
    rw [heq, written_length (by rw [hl, h.nHeadKv_eq, h.headDim_eq]; exact hr.le), hl]

theorem Shaped.writeV (h : kv.Shaped m) (hr : RowOf m layer pos v) : (kv.writeV layer pos v).Shaped m := by
  refine { h with v_length := by simpa [KvCache.writeV] using h.v_length, v_rows := fun rows hm => ?_ }
  rcases mem_modify hm with hm | ⟨rows₀, hm₀, heq⟩
  case inl => exact h.v_rows rows hm
  case inr =>
    have hl := h.v_rows rows₀ hm₀
    rw [heq, written_length (by rw [hl, h.nHeadKv_eq, h.headDim_eq]; exact hr.le), hl]

theorem Shaped.moved (h : kv.Shaped m) (n : Nat) : Shaped m { kv with pos := n } :=
  { h with }

theorem storeKv_keeps (p : Nat) :
    Keeps (fun kv : KvCache φ => kv.Shaped m ∧ kv.pos = p) (storeKv layer pos k v : Eff (KvCache φ) ε Unit) := by
  intro kv ⟨h, hp⟩
  rw [storeKv_apply h]
  split
  case isFalse => exact ⟨h, hp⟩
  case isTrue hk =>
    split
    case isTrue hv  => exact ⟨(h.writeK hk).writeV hv, hp⟩
    case isFalse hv => exact ⟨h.writeK hk, hp⟩

-- How many positions of a layer count: the position `pos` itself does in the layers that have been passed through.
def visible (pos layer l : Nat) : Nat :=
  if l < layer then pos + 1 else pos

-- Two caches of the model that hold the same keys and values at the positions that count
structure AgreeAt (m : ModelMeta) (pos layer : Nat) (kv kv' : KvCache φ) : Prop where
  left   : kv.Shaped m
  right  : kv'.Shaped m
  pos_eq : kv'.pos = kv.pos
  k_eq   : ∀ l : Nat, kv'.k[l]?.map (take (visible pos layer l * (m.nHeadKv * m.headDim))) =
    kv.k[l]?.map (take (visible pos layer l * (m.nHeadKv * m.headDim)))
  v_eq   : ∀ l : Nat, kv'.v[l]?.map (take (visible pos layer l * (m.nHeadKv * m.headDim))) =
    kv.v[l]?.map (take (visible pos layer l * (m.nHeadKv * m.headDim)))

-- A row that is written into both makes one more position of the layer count.
theorem map_take_modify {d d' : List (List φ)} {stride n : Nat} (hrow : k.length = stride) (hn : pos * stride + stride ≤ n)
    (hd : ∀ rows ∈ d, rows.length = n) (hd' : ∀ rows ∈ d', rows.length = n) (l : Nat)
    (h : d'[l]?.map (take (visible pos layer l * stride)) = d[l]?.map (take (visible pos layer l * stride))) :
    (d'.modify layer (written (pos * stride) k))[l]?.map (take (visible pos (layer + 1) l * stride)) =
      (d.modify layer (written (pos * stride) k))[l]?.map (take (visible pos (layer + 1) l * stride)) := by
  rw [getElem?_modify, getElem?_modify]
  by_cases hl : layer = l
  case neg =>
    have hv : visible pos (layer + 1) l = visible pos layer l := by
      unfold visible
      exact if_congr (by omega) rfl rfl
    simpa only [if_neg hl, hv, Option.map_eq_map, Option.map_id'] using h
  case pos =>
    subst hl
    have hv : visible pos (layer + 1) layer * stride = pos * stride + k.length := by
      rw [visible, if_pos (Nat.lt_succ_self _), Nat.succ_mul, hrow]
    have htake {rows : List φ} (hr : rows.length = n) :
        (written (pos * stride) k rows).take (pos * stride + k.length) = rows.take (pos * stride) ++ k :=
      take_written (by rw [hr, hrow]; exact hn)
    rw [visible, if_neg (Nat.lt_irrefl _)] at h
    rw [hv]
    cases hr : d[layer]? <;> cases hr' : d'[layer]? <;>
      simp only [hr, hr', Option.map_none, Option.map_some, Option.some.injEq, reduceCtorEq] at h
    case none.none => rfl
    case some.some rows rows' =>
      have hlen := hd rows (mem_of_getElem? hr)
      have hlen' := hd' rows' (mem_of_getElem? hr')
      simp only [Option.map_eq_map, Option.map_some, if_pos, htake hlen, htake hlen', h]

theorem AgreeAt.write (h : AgreeAt m pos layer kv kv') (hk : RowOf m layer pos k) (hv : RowOf m layer pos v) :
    AgreeAt m pos (layer + 1) ((kv.writeK layer pos k).writeV layer pos v)
      ((kv'.writeK layer pos k).writeV layer pos v) where
  left   := (h.left.writeK hk).writeV hv
  right  := (h.right.writeK hk).writeV hv
  pos_eq := h.pos_eq
  k_eq l := by
    simp only [writeV, writeK, h.left.nHeadKv_eq, h.left.headDim_eq, h.right.nHeadKv_eq, h.right.headDim_eq]
    exact map_take_modify hk.right.right hk.right.left h.left.k_rows h.right.k_rows l (h.k_eq l)
  v_eq l := by
    simp only [writeV, writeK, h.left.nHeadKv_eq, h.left.headDim_eq, h.right.nHeadKv_eq, h.right.headDim_eq]
    exact map_take_modify hv.right.right hv.right.left h.left.v_rows h.right.v_rows l (h.v_eq l)

theorem storeKv_alike :
    Alike (AgreeAt m pos layer) (AgreeAt m pos (layer + 1)) (storeKv layer pos k v : Eff (KvCache φ) ε Unit) := by
  intro kv kv' h
  rw [storeKv_apply h.left, storeKv_apply h.right]
  split
  case isFalse => exact ⟨rfl, nofun⟩
  case isTrue hk =>
    split
    case isFalse => exact ⟨rfl, nofun⟩
    case isTrue hv => exact ⟨rfl, fun _ _ => h.write hk hv⟩

theorem AgreeBelow.agreeAt {n : Nat} (ha : AgreeBelow n kv kv') (h : kv.Shaped m) (h' : kv'.Shaped m) :
    AgreeAt m n 0 kv kv' where
  left   := h
  right  := h'
  pos_eq := ha.left
  k_eq l := by simpa only [h.nHeadKv_eq, h.headDim_eq, visible, Nat.not_lt_zero, ↓reduceIte] using ha.right.left l
  v_eq l := by simpa only [h.nHeadKv_eq, h.headDim_eq, visible, Nat.not_lt_zero, ↓reduceIte] using ha.right.right l

theorem AgreeAt.below {n : Nat} (h : AgreeAt m n 0 kv kv') : AgreeBelow n kv kv' := by
  refine ⟨h.pos_eq, fun l => ?_, fun l => ?_⟩
  case refine_1 => rw [h.left.nHeadKv_eq, h.left.headDim_eq]; exact h.k_eq l
  case refine_2 => rw [h.left.nHeadKv_eq, h.left.headDim_eq]; exact h.v_eq l

-- After the last layer the position counts.
theorem AgreeAt.succ (h : AgreeAt m pos m.nLayer kv kv') : AgreeAt m (pos + 1) 0 kv kv' := by
  have hvis {d d' : List (List φ)} (hd : d.length = m.nLayer) (hd' : d'.length = m.nLayer) (l : Nat)
      (he : d'[l]?.map (take (visible pos m.nLayer l * (m.nHeadKv * m.headDim))) =
        d[l]?.map (take (visible pos m.nLayer l * (m.nHeadKv * m.headDim)))) :
      d'[l]?.map (take (visible (pos + 1) 0 l * (m.nHeadKv * m.headDim))) =
        d[l]?.map (take (visible (pos + 1) 0 l * (m.nHeadKv * m.headDim))) := by
    by_cases hl : l < m.nLayer
    case neg => rw [getElem?_eq_none (by omega), getElem?_eq_none (by omega)]
    case pos => rwa [visible, if_pos hl] at he
  exact { h with
    k_eq := fun l => hvis h.left.k_length h.right.k_length l (h.k_eq l)
    v_eq := fun l => hvis h.left.v_length h.right.v_length l (h.v_eq l) }

-- What a query looks at of a position, where its keys and values are those of the head `k`
def headRow {σ ε : Type} (m : ModelMeta) (d : List (List φ)) (layer t k : Nat) : Eff σ ε (List φ) := do
  let rows ← Eff.index d layer
  Eff.slice rows (t * (m.nHeadKv * m.headDim) + k * m.headDim) (t * (m.nHeadKv * m.headDim) + k * m.headDim + m.headDim)

-- Both caches have the same of it up to a position.
structure SameHead (m : ModelMeta) (layer pos k : Nat) (kv kv' : KvCache φ) : Prop where
  keys   : ∀ t < pos + 1, (headRow m kv.k layer t k : Eff (KvCache φ) LoadError (List φ)) = headRow m kv'.k layer t k
  values : ∀ t < pos + 1, (headRow m kv.v layer t k : Eff (KvCache φ) LoadError (List φ)) = headRow m kv'.v layer t k

theorem headRow_congr {d d' : List (List φ)} {h t nHead : Nat}
    (hd : ∀ rows ∈ d, rows.length = m.nCtx * m.nHeadKv * m.headDim)
    (hd' : ∀ rows ∈ d', rows.length = m.nCtx * m.nHeadKv * m.headDim)
    (he : d'[layer]?.map (take ((pos + 1) * (m.nHeadKv * m.headDim))) =
      d[layer]?.map (take ((pos + 1) * (m.nHeadKv * m.headDim))))
    (hh : h < nHead) (ht : t < pos + 1) :
    (headRow m d layer t (h * m.nHeadKv / nHead) : Eff (KvCache φ) ε (List φ)) =
      headRow m d' layer t (h * m.nHeadKv / nHead) := by
  unfold headRow
  cases hr : d[layer]? <;> cases hr' : d'[layer]? <;>
    simp only [hr, hr', Option.map_none, Option.map_some, Option.some.injEq, reduceCtorEq] at he
  case none.none => rw [index_eq_panic hr, index_eq_panic hr']
  case some.some rows rows' =>
    have hlen := hd rows (mem_of_getElem? hr)
    have hlen' := hd' rows' (mem_of_getElem? hr')
    rw [index_eq_pure hr, index_eq_pure hr', pure_bind, pure_bind]
    by_cases hg : m.headDim = 0 ∨ 0 < m.nHeadKv
    case pos =>
      have hle : _ ≤ (pos + 1) * m.nHeadKv * m.headDim := (row_le_iff hh ht).mpr hg
      rw [mul_assoc (pos + 1)] at hle
      rw [slice_congr (hlen'.trans hlen.symm) he hle]
    case neg =>
      have h0 : m.nHeadKv = 0 := by omega
      rw [h0, Nat.mul_zero, Nat.zero_mul] at hlen hlen'
      rw [eq_nil_of_length_eq_zero hlen, eq_nil_of_length_eq_zero hlen']

theorem AgreeAt.sameHead {h nHead : Nat} (ha : AgreeAt m pos (layer + 1) kv kv') (hh : h < nHead) :
    SameHead m layer pos (h * m.nHeadKv / nHead) kv kv' := by
  have hvis : visible pos (layer + 1) layer = pos + 1 := if_pos (Nat.lt_succ_self _)
  have hk := ha.k_eq layer
  have hv := ha.v_eq layer
  rw [hvis] at hk hv
  exact ⟨fun t ht => headRow_congr ha.left.k_rows ha.right.k_rows hk hh ht,
    fun t ht => headRow_congr ha.left.v_rows ha.right.v_rows hv hh ht⟩

end KvCache

section Dequantisation

variable [F32 φ] {σ ε : Type}

theorem dequantRow_fixed (dtype : GgmlType) (data : List UInt8) (out : List φ) :
    Fixed (dequantRow dtype data out : Eff σ ε (List φ)) := by
  have hq4 : Fixed (dequantQ4_0Row data out : Eff σ ε (List φ)) :=
    .forEach (fun out b => (Fixed.slice _ _ _).bind fun block => (Fixed.index _ _).bind fun _ => (Fixed.index _ _).bind fun _ =>
      (Fixed.slice _ _ _).bind fun _ => .forEach (fun _ _ => (Fixed.index _ _).bind fun _ => (Fixed.put _ _ _).bind fun _ =>
        .put _ _ _) _ _) _ _
  have hq4k : Fixed (dequantQ4kRow data out : Eff σ ε (List φ)) :=
    .forEach (fun out b => (Fixed.slice _ _ _).bind fun block => (Fixed.index _ _).bind fun _ => (Fixed.index _ _).bind fun _ =>
      (Fixed.index _ _).bind fun _ => (Fixed.index _ _).bind fun _ => (Fixed.slice _ _ _).bind fun _ =>
      (Fixed.slice _ _ _).bind fun _ => .forEach (fun _ _ => .forEach (fun _ _ => (Fixed.index _ _).bind fun _ =>
        (Fixed.put _ _ _).bind fun _ => .put _ _ _) _ _) _ _) _ _
  unfold dequantRow
  split
  case h_4 | h_5 => exact hq4
  case h_6 => exact hq4k
  all_goals exact .pure _

theorem matvecQuant_fixed (out : List φ) (data : List UInt8) (dtype : GgmlType) (x : List φ) (rows cols : Nat) :
    Fixed (matvecQuant out data dtype x rows cols : Eff σ ε (List φ)) :=
  (Fixed.forEach (fun _ _ => (Fixed.slice _ _ _).bind fun _ => (dequantRow_fixed _ _ _).bind fun _ =>
    (Fixed.index _ _).bind fun _ => (Fixed.put _ _ _).bind fun _ => .pure _) _ _).bind fun _ => .pure _

theorem applyRope_fixed (x : List φ) (pos nHeads headDim half : Nat) (freqBase : φ) :
    Fixed (applyRope x pos nHeads headDim half freqBase : Eff σ ε (List φ)) :=
  .forEach (fun _ _ => .forEach (fun _ _ => (Fixed.index _ _).bind fun _ => (Fixed.index _ _).bind fun _ =>
    (Fixed.put _ _ _).bind fun _ => .put _ _ _) _ _) _ _

end Dequantisation

namespace WeightStore

open KvCache

variable [F32 φ] {store : WeightStore} {layer pos : Nat} {kv kv' : KvCache φ}

omit [F32 φ] in
theorem weightsRef_fixed (name : TensorName) : Fixed (store.weightsRef name : Eff (KvCache φ) LoadError _) := by
  refine (Fixed.okOr _ _).bind fun data => ?_
  split
  case h_1 => exact .pure _
  case h_2 => exact .panic

theorem loadVec_fixed (name : TensorName) (n : Nat) : Fixed (store.loadVec name n : Eff (KvCache φ) LoadError _) :=
  (weightsRef_fixed name).bind fun _ => dequantRow_fixed _ _ _

theorem product_fixed (name : TensorName) (x : List φ) (rows cols : Nat) : Fixed (store.product name x rows cols) :=
  (weightsRef_fixed name).bind fun _ => matvecQuant_fixed _ _ _ _ _ _

theorem embedding_fixed (token : TokenId) : Fixed (store.embedding token : Eff (KvCache φ) LoadError _) :=
  (weightsRef_fixed _).bind fun _ => (Fixed.slice _ _ _).bind fun _ => dequantRow_fixed _ _ _

theorem ffnBlock_fixed (x : List φ) : Fixed (store.ffnBlock layer x) :=
  (loadVec_fixed _ _).bind fun _ => (product_fixed _ _ _ _).bind fun _ => (product_fixed _ _ _ _).bind fun _ =>
    (product_fixed _ _ _ _).bind fun _ => .pure _

theorem outputHead_fixed (x : List φ) : Fixed (store.outputHead x) :=
  (loadVec_fixed _ _).bind fun _ => product_fixed _ _ _ _

-- A head takes the rows of the positions up to its own out of the cache, and computes with them.
theorem attendHead_split (store : WeightStore) (layer pos h : Nat) (q xAttn : List φ) :
    ∃ f : List φ → KvCache φ → Eff (KvCache φ) LoadError (List φ),
      store.attendHead layer pos h q xAttn = (do
        let qH ← Eff.slice q (h * store.modelMeta.headDim) ((h + 1) * store.modelMeta.headDim)
        let kv ← Eff.get
        f qH kv) ∧
      (∀ qH kv, Fixed (f qH kv)) ∧ (∀ qH kv n, f qH kv = f qH { kv with pos := n }) ∧
      ∀ qH kv kv', SameHead store.modelMeta layer pos (h * store.modelMeta.nHeadKv / store.modelMeta.nHead) kv kv' →
        f qH kv = f qH kv' := by
  refine ⟨_, rfl, fun qH kv => ?_, fun _ _ _ => rfl, fun qH kv kv' hkv => ?_⟩
  case refine_1 =>
    refine (Fixed.forEach (fun _ _ => (Fixed.index _ _).bind fun _ => (Fixed.slice _ _ _).bind fun _ => .put _ _ _) _ _).bind
      fun _ => (Fixed.slice _ _ _).bind fun _ => ?_
    exact (Fixed.forEach (fun _ _ => (Fixed.index _ _).bind fun _ => (Fixed.slice _ _ _).bind fun _ =>
      (Fixed.index _ _).bind fun _ => .pure _) _ _).bind fun _ => .copyInto _ _ _ _
  case refine_2 =>
    refine congrArg₂ (· >>= ·) (forEach_congr (fun t ht scores => ?_) _) (funext fun scores =>
      congrArg (_ >>= ·) (funext fun outH => congrArg (· >>= _) (forEach_congr (fun t ht outH => ?_) _)))
    case refine_1 =>
      have hrow := hkv.keys t (mem_range.mp ht)
      unfold headRow at hrow
      simp only [← bind_assoc, hrow]
    case refine_2 =>
      have hrow := hkv.values t (mem_range.mp ht)
      unfold headRow at hrow
      simp only [← bind_assoc, hrow]

-- Nothing else of a layer is looked at.
theorem attendHead_sameHead {h k : Nat} (hk : h * store.modelMeta.nHeadKv / store.modelMeta.nHead = k) (q xAttn : List φ) :
    Alike (SameHead store.modelMeta layer pos k) (SameHead store.modelMeta layer pos k)
      (store.attendHead layer pos h q xAttn) := by
  have ⟨f, hf, hfixed, _, hsame⟩ := attendHead_split store layer pos h q xAttn
  subst hk
  rw [hf]
  exact (Alike.of_fixed (.slice _ _ _)).bind fun qH => .get_bind (fun kv => .of_fixed (hfixed qH kv)) (hsame qH)

theorem attendHead_alike {h : Nat} (hh : h < store.modelMeta.nHead) (q xAttn : List φ) :
    Alike (AgreeAt store.modelMeta pos (layer + 1)) (AgreeAt store.modelMeta pos (layer + 1))
      (store.attendHead layer pos h q xAttn) := by
  have ⟨f, hf, hfixed, _, hsame⟩ := attendHead_split store layer pos h q xAttn
  rw [hf]
  exact (Alike.of_fixed (.slice _ _ _)).bind fun qH => .get_bind (fun kv => .of_fixed (hfixed qH kv))
    fun kv kv' ha => hsame qH kv kv' (ha.sameHead hh)

theorem attendHead_keeps {I : KvCache φ → Prop} {h : Nat} (q xAttn : List φ) :
    Keeps I (store.attendHead layer pos h q xAttn) := by
  have ⟨f, hf, hfixed, _⟩ := attendHead_split store layer pos h q xAttn
  rw [hf]
  exact (Fixed.slice _ _ _).keeps.bind fun qH => .bind .get fun kv => (hfixed qH kv).keeps

-- The cache at another position
def Moved (m : ModelMeta) (n : Nat) (kv kv' : KvCache φ) : Prop :=
  kv.Shaped m ∧ kv' = { kv with pos := n }

theorem attendHead_moved {h : Nat} (q xAttn : List φ) (n : Nat) :
    Alike (Moved store.modelMeta n) (Moved store.modelMeta n) (store.attendHead layer pos h q xAttn) := by
  have ⟨f, hf, hfixed, hmoved, _⟩ := attendHead_split store layer pos h q xAttn
  rw [hf]
  refine (Alike.of_fixed (.slice _ _ _)).bind fun qH => .get_bind (fun kv => .of_fixed (hfixed qH kv)) ?_
  rintro kv _ ⟨_, rfl⟩
  exact hmoved qH kv n

omit [F32 φ] in
theorem storeKv_moved {m : ModelMeta} (k v : List φ) (n : Nat) :
    Alike (Moved m n) (Moved m n) (storeKv layer pos k v : Eff (KvCache φ) LoadError Unit) := by
  rintro kv _ ⟨h, rfl⟩
  rw [storeKv_apply h, storeKv_apply (h.moved n)]
  split
  case isFalse => exact ⟨rfl, nofun⟩
  case isTrue hk =>
    split
    case isFalse   => exact ⟨rfl, nofun⟩
    case isTrue hv => exact ⟨rfl, fun _ _ => ⟨(h.writeK hk).writeV hv, rfl⟩⟩

-- Only the store and the heads of a block touch the cache.
theorem attentionBlock_alike {R S : KvCache φ → KvCache φ → Prop}
    (hstore : ∀ k v, Alike R S (storeKv layer pos k v : Eff (KvCache φ) LoadError Unit))
    (hheads : ∀ h < store.modelMeta.nHead, ∀ q xAttn, Alike S S (store.attendHead layer pos h q xAttn)) (x : List φ) :
    Alike R S (store.attentionBlock layer pos x) :=
  (Alike.of_fixed (loadVec_fixed _ _)).bind fun _ => (Alike.of_fixed (product_fixed _ _ _ _)).bind fun _ =>
    (Alike.of_fixed (product_fixed _ _ _ _)).bind fun _ => (Alike.of_fixed (product_fixed _ _ _ _)).bind fun _ =>
    (Alike.of_fixed (applyRope_fixed _ _ _ _ _ _)).bind fun _ => (Alike.of_fixed (applyRope_fixed _ _ _ _ _ _)).bind fun _ =>
    (hstore _ _).bind fun _ => (Alike.forEach (fun h hh _ => hheads h (mem_range.mp hh) _ _) _).bind fun _ =>
    (Alike.of_fixed (product_fixed _ _ _ _)).bind fun _ => .of_fixed (.pure _)

theorem layers_alike {R : Nat → KvCache φ → KvCache φ → Prop}
    (hblock : ∀ l < store.modelMeta.nLayer, ∀ x, Alike (R l) (R (l + 1)) (store.attentionBlock l pos x)) (token : TokenId) :
    Alike (R 0) (R store.modelMeta.nLayer) (store.forwardOne token pos) :=
  (Alike.of_fixed (embedding_fixed token)).bind fun x => .bind (.forEach_range (fun l hl x => (hblock l hl x).bind fun x =>
    .of_fixed (ffnBlock_fixed x)) x) fun x => .of_fixed (outputHead_fixed x)

-- A pass keeps the size of the cache and its position, wherever it ends.
theorem forwardOne_keeps (p : Nat) (token : TokenId) : Keeps (fun kv : KvCache φ => kv.Shaped store.modelMeta ∧ kv.pos = p)
    (store.forwardOne token pos) := by
  refine (embedding_fixed token).keeps.bind fun x => .bind (.forEach (fun l _ x => .bind ?_ fun x =>
    (ffnBlock_fixed x).keeps) x) fun x => (outputHead_fixed x).keeps
  exact (loadVec_fixed _ _).keeps.bind fun _ => (product_fixed _ _ _ _).keeps.bind fun _ =>
    (product_fixed _ _ _ _).keeps.bind fun _ => (product_fixed _ _ _ _).keeps.bind fun _ =>
    (applyRope_fixed _ _ _ _ _ _).keeps.bind fun _ => (applyRope_fixed _ _ _ _ _ _).keeps.bind fun _ =>
    (storeKv_keeps p).bind fun _ => .bind (.forEach (fun _ _ _ => attendHead_keeps _ _) _) fun _ =>
    (product_fixed _ _ _ _).keeps.bind fun _ => .pure _

-- A pass at a position does not depend on the rows from that position on, and after it the position counts.
theorem forwardOne_alike (token : TokenId) : Alike (AgreeAt store.modelMeta pos 0) (AgreeAt store.modelMeta (pos + 1) 0)
    (store.forwardOne token pos : Eff (KvCache φ) LoadError (List φ)) :=
  (layers_alike (R := AgreeAt store.modelMeta pos) (fun _ _ => attentionBlock_alike (fun _ _ => storeKv_alike)
    fun _ hh => attendHead_alike hh) token).mono (fun _ _ h => h) fun _ _ h => h.succ

-- The position of the cache is not looked at.
theorem forwardOne_moved (token : TokenId) (n : Nat) :
    Alike (Moved store.modelMeta n) (Moved store.modelMeta n)
      (store.forwardOne token pos : Eff (KvCache φ) LoadError (List φ)) :=
  layers_alike (R := fun _ => Moved store.modelMeta n) (fun _ _ => attentionBlock_alike (fun k v => storeKv_moved k v n)
    fun _ _ q x => attendHead_moved q x n) token

theorem forwardFrom_alike (tokens : List TokenId) (last : List φ) : Alike (AgreeAt store.modelMeta pos 0)
    (AgreeAt store.modelMeta (pos + tokens.length) 0) (store.forwardFrom pos last tokens) := by
  induction tokens generalizing pos last
  case nil                 => exact .of_fixed (.pure _)
  case cons token tokens hi =>
    refine (forwardOne_alike token).bind fun last => ?_
    have hpos : pos + (token :: tokens).length = pos + 1 + tokens.length := by simp [Nat.add_comm 1, Nat.add_assoc]
    exact hpos ▸ hi last

theorem forwardFrom_moved (pos : Nat) (tokens : List TokenId) (last : List φ) (n : Nat) :
    Alike (Moved store.modelMeta n) (Moved store.modelMeta n) (store.forwardFrom pos last tokens) := by
  induction tokens generalizing pos last
  case nil                  => exact .of_fixed (.pure _)
  case cons token tokens hi => exact (forwardOne_moved token n).bind fun last => hi (pos + 1) last

theorem forwardFrom_keeps (pos p : Nat) (tokens : List TokenId) (last : List φ) :
    Keeps (fun kv : KvCache φ => kv.Shaped store.modelMeta ∧ kv.pos = p) (store.forwardFrom pos last tokens) := by
  induction tokens generalizing pos last
  case nil                  => exact .pure _
  case cons token tokens hi => exact (forwardOne_keeps p token).bind fun last => hi (pos + 1) last

theorem forwardFrom_append (a b : List TokenId) (last : List φ) : store.forwardFrom pos last (a ++ b) =
    (do let last ← store.forwardFrom pos last a; store.forwardFrom (pos + a.length) last b) := by
  induction a generalizing pos last
  case nil => rfl
  case cons token a hi =>
    rw [cons_append, forwardFrom, forwardFrom, bind_assoc]
    refine congrArg (store.forwardOne token pos >>= ·) (funext fun last => ?_)
    rw [hi, length_cons, Nat.add_assoc, Nat.add_comm 1]

-- The logits of an empty run are the ones that it is given.
theorem forwardFrom_last {b : List TokenId} (hb : b ≠ []) (last last' : List φ) :
    store.forwardFrom pos last b = store.forwardFrom pos last' b := by
  cases b
  case nil  => contradiction
  case cons => rfl

theorem Reached.shaped (h : store.Reached kv) : kv.Shaped store.modelMeta := by
  induction h
  case new                     => exact new_shaped _
  case pass token pos hi       => exact (forwardOne_keeps _ token _ ⟨hi, rfl⟩).left
  case advance n hi            => exact hi.moved _

theorem forwardSequence_apply (tokens : List TokenId) : store.forwardSequence tokens kv =
    match store.forwardFrom kv.pos [] tokens kv with
    | (.ok last, kv₁) => (.ok last, { kv₁ with pos := kv₁.pos + tokens.length })
    | (.error e, kv₁) => (.error e, kv₁) := by
  rw [forwardSequence, bind_ok get_apply, bind_apply]
  cases store.forwardFrom kv.pos [] tokens kv with
  | mk r kv₁ => cases r <;> rfl

theorem forwardFrom_ok (h : kv.Shaped store.modelMeta) {tokens : List TokenId} {last logits : List φ}
    (hr : store.forwardFrom pos last tokens kv = (.ok logits, kv')) : kv'.Shaped store.modelMeta ∧ kv'.pos = kv.pos := by
  have hk := forwardFrom_keeps pos kv.pos tokens last kv ⟨h, rfl⟩
  rwa [hr] at hk

-- The chunks move the position on one after the other.
theorem forwardSequence_append (h : kv.Shaped store.modelMeta) (a : List TokenId) {b : List TokenId} (hb : b ≠ []) :
    ((do let _ ← store.forwardSequence a; store.forwardSequence b) kv).1 = (store.forwardSequence (a ++ b) kv).1 ∧
      ∀ logits, (store.forwardSequence (a ++ b) kv).1 = .ok logits →
        ((do let _ ← store.forwardSequence a; store.forwardSequence b) kv).2 = (store.forwardSequence (a ++ b) kv).2 := by
  rw [forwardSequence_apply (a ++ b), forwardFrom_append, bind_apply, bind_apply, forwardSequence_apply a]
  rcases ha : store.forwardFrom kv.pos [] a kv with ⟨_ | last, kv₁⟩
  case error => exact ⟨rfl, nofun⟩
  case ok =>
    have ⟨hs, hp⟩ := forwardFrom_ok h ha
    dsimp only
    rw [forwardSequence_apply b, hp, forwardFrom_last hb [] last]
    have ⟨hr, hm⟩ := forwardFrom_moved (kv.pos + a.length) b last (kv.pos + a.length) kv₁ _ ⟨hs, rfl⟩
    rcases hb₁ : store.forwardFrom (kv.pos + a.length) last b kv₁ with ⟨_ | logits, kv₂⟩ <;>
      rcases hb₂ : store.forwardFrom (kv.pos + a.length) last b { kv₁ with pos := kv.pos + a.length } with
        ⟨_ | logits', kv₂'⟩ <;>
      rw [hb₁, hb₂] at hr hm <;> cases hr
    case error.error => exact ⟨rfl, nofun⟩
    case ok.ok =>
      have ⟨_, heq⟩ := hm logits rfl
      have ⟨_, hp₂⟩ := forwardFrom_ok hs hb₁
      refine ⟨rfl, fun _ _ => ?_⟩
      dsimp only at heq ⊢
      rw [heq, hp₂, hp, length_append, Nat.add_assoc]

-- What a run returns does not depend on the rows from the position of the cache on, and neither do the rows before the
-- position that it ends at.
theorem forwardSequence_agree (h : kv.Shaped store.modelMeta) (h' : kv'.Shaped store.modelMeta)
    (ha : AgreeBelow kv.pos kv kv')
    (tokens : List TokenId) : (store.forwardSequence tokens kv').1 = (store.forwardSequence tokens kv).1 ∧
      ∀ logits, (store.forwardSequence tokens kv).1 = .ok logits →
        AgreeBelow (kv.pos + tokens.length) (store.forwardSequence tokens kv).2 (store.forwardSequence tokens kv').2 := by
  have ⟨hr, hs⟩ := forwardFrom_alike tokens [] kv kv' (ha.agreeAt h h')
  rw [forwardSequence_apply, forwardSequence_apply, ha.left]
  rcases hkv : store.forwardFrom kv.pos [] tokens kv with ⟨_ | logits, kv₁⟩ <;>
    rcases hkv' : store.forwardFrom kv.pos [] tokens kv' with ⟨_ | logits', kv₁'⟩ <;>
    rw [hkv, hkv'] at hr hs <;> cases hr
  case error.error => exact ⟨rfl, nofun⟩
  case ok.ok =>
    have ha := (hs logits rfl).below
    exact ⟨rfl, fun _ _ => ⟨congrArg (· + tokens.length) ha.left, ha.right⟩⟩

-- A run over tokens of the vocabulary that fits into the context returns.
theorem Forwards.forwardFrom (hf : store.Forwards φ) {tokens : List TokenId}
    (ht : ∀ t ∈ tokens, t.toNat < store.modelMeta.nVocab)
    (hp : pos + tokens.length ≤ store.modelMeta.nCtx) (h : kv.Shaped store.modelMeta) (last : List φ) :
    ∃ logits kv', store.forwardFrom pos last tokens kv = (.ok logits, kv') := by
  induction tokens generalizing pos last kv
  case nil => exact ⟨last, kv, rfl⟩
  case cons token tokens hi =>
    rw [length_cons] at hp
    have ⟨htoken, ht⟩ := forall_mem_cons.mp ht
    have ⟨logits, kv₁, hone, _, hs⟩ := hf token htoken pos (by omega) kv h
    rw [WeightStore.forwardFrom, bind_ok hone]
    exact hi ht (by omega) hs logits

theorem Forwards.forwardSequence (hf : store.Forwards φ) {tokens : List TokenId}
    (ht : ∀ t ∈ tokens, t.toNat < store.modelMeta.nVocab) (hp : kv.pos + tokens.length ≤ store.modelMeta.nCtx)
    (h : kv.Shaped store.modelMeta) : ∃ logits kv', store.forwardSequence tokens kv = (.ok logits, kv') := by
  have ⟨logits, kv₁, hr⟩ := hf.forwardFrom ht hp h []
  rw [forwardSequence_apply, hr]
  exact ⟨_, _, rfl⟩

-- A prompt in two chunks ends as it does in one, with the same logits and the same cache, whatever is in the rows from the
-- position of the cache on.
theorem forwardSequence_chunks (store : WeightStore) (φ : Type) [F32 φ] {kv : KvCache φ} (h : store.Reached kv)
    (a b : List TokenId) (hb : b ≠ []) :
    let chunked := (do let _ ← store.forwardSequence a; store.forwardSequence b : Eff (KvCache φ) LoadError (List φ))
    let whole := (store.forwardSequence (a ++ b) : Eff (KvCache φ) LoadError (List φ))
    (chunked kv).1 = (whole kv).1 ∧ (∀ logits, (whole kv).1 = .ok logits → (chunked kv).2 = (whole kv).2) ∧
      ∀ kv', kv'.Shaped store.modelMeta → AgreeBelow kv.pos kv kv' → (whole kv').1 = (whole kv).1 ∧
        ∀ logits, (whole kv).1 = .ok logits → AgreeBelow (kv.pos + (a ++ b).length) (whole kv).2 (whole kv').2 :=
  have ⟨hr, hs⟩ := forwardSequence_append h.shaped a hb
  ⟨hr, hs, fun _ h' ha => forwardSequence_agree h.shaped h' ha (a ++ b)⟩

theorem forwardSequence_chunks_f32 : ∃ store, (loadGguf ⟨2048, 8, 8, 16, by decide⟩ (.new (layerFile .f32))).1 = .ok store ∧
    ∃ (kv kv' : KvCache Float32) (logits : List Float32), store.Reached kv ∧
      (do let _ ← store.forwardSequence [0]; store.forwardSequence [1]) kv = (.ok logits, kv') ∧
      store.forwardSequence [0, 1] kv = (.ok logits, kv') := by
  have ⟨store, hr, hg, hw, hv, hc⟩ := exists_loadGguf_f32
  have ⟨he, hp⟩ := passable_iff.mpr ⟨.inr hg, hw⟩
  have hf : store.Forwards Float32 := (loadGguf_stored hr).forwards_iff_passable.mpr fun t ht _ _ =>
    ⟨embedded_iff.mpr he t ht, hp⟩
  have hnew : store.Reached (.new store.modelMeta.nLayer store.modelMeta.nHeadKv store.modelMeta.headDim
    store.modelMeta.nCtx : KvCache Float32) := .new
  have hvocab : ∀ t ∈ ([0] ++ [1] : List TokenId), t.toNat < store.modelMeta.nVocab := by rw [hv]; simp
  have ⟨logits, kv', hwhole⟩ := hf.forwardSequence hvocab (by simpa [KvCache.new] using hc) hnew.shaped
  have ⟨hres, hstate, _⟩ := forwardSequence_chunks store Float32 hnew [0] [1] (cons_ne_nil _ _)
  have hok := congrArg Prod.fst hwhole
  have hchunked := Prod.ext (hres.trans hok) ((hstate logits hok).trans (congrArg Prod.snd hwhole))
  exact ⟨store, hr, _, kv', logits, hnew, hchunked, hwhole⟩

end WeightStore
end ModelLoader
