import VeloCore.Objects.Metal.TreeAttention
import VeloCore.Objects.Metal.Theorems.KvLayers
import VeloCore.Objects.Speculative.Theorems.Tree
import VeloCore.Primitives.Parts

open List

namespace SpeculativeTree

variable {t : SpeculativeTree}

-- The tokens of a path are those of its nodes.
theorem pathFrom_eq (nodes : List TreeNode) (fuel i : Nat) :
    pathFrom nodes fuel i = (nodesFrom nodes fuel i).filterMap fun i => nodes[i]?.map TreeNode.token := by
  fun_induction nodesFrom nodes fuel i <;> simp_all [pathFrom]

theorem getPath_eq (i : Nat) : t.getPath i = (t.lineage i).filterMap fun i => t.nodes[i]?.map TreeNode.token := by
  rw [getPath, lineage, pathFrom_eq, filterMap_reverse]

-- A path goes up from its node through smaller ones.
theorem nodesFrom_eq {fuel i : Nat} (hi : i < t.nodes.length) (hf : i < fuel) :
    ∃ up, nodesFrom t.nodes fuel i = i :: up ∧ ∀ j ∈ up, j < i := by
  induction fuel generalizing i
  case zero => contradiction
  case succ fuel ih =>
    rw [nodesFrom, getElem?_eq_getElem hi]
    cases hp : t.nodes[i].parent
    case none => exact ⟨[], by simp [hp], by simp⟩
    case some p =>
      have hlt : p < i := by
        rcases Nat.eq_zero_or_pos i with rfl | hpos
        case inl =>
          obtain ⟨token, hroot⟩ := t.root
          rw [getElem?_eq_getElem hi] at hroot
          rw [Option.some.inj hroot] at hp
          cases hp
        case inr =>
          obtain ⟨q, hq, hq'⟩ := t.parent_lt hpos (getElem?_eq_getElem hi)
          exact Option.some.inj (hp.symm.trans hq') ▸ hq
      obtain ⟨up, hup, hall⟩ := ih (i := p) (by omega) (by omega)
      refine ⟨p :: up, by simp [hp, hup], forall_mem_cons.mpr ⟨hlt, fun j hj => (hall j hj).trans hlt⟩⟩

-- The number of ancestors of a node
def depth (t : SpeculativeTree) (i : Nat) : Nat :=
  (t.lineage i).length - 1

theorem lineage_eq (hi : i < t.nodes.length) : ∃ ancestors, t.lineage i = ancestors ++ [i] ∧ ancestors.length = t.depth i ∧
    ∀ j ∈ ancestors, j < i := by
  have ⟨up, hup, hall⟩ := nodesFrom_eq hi hi
  refine ⟨up.reverse, ?_, ?_, fun j hj => hall j (mem_reverse.mp hj)⟩
  case refine_1 => rw [lineage, hup, reverse_cons]
  case refine_2 => simp [depth, lineage, hup]

theorem length_ancestorsRow (i : Nat) : (t.ancestorsRow i).length = maxTreeDepth := by
  rw [ancestorsRow, length_map, length_range]

theorem ancestorsData_eq (hi : i < t.nodes.length) (hd : d < maxTreeDepth) : t.ancestorsData[i * maxTreeDepth + d]? =
    some (((t.lineage i)[d]?.map Int32.ofNat).getD (-1)) := by
  rw [ancestorsData, getElem?_flatMap_part length_ancestorsRow (getElem?_range hi) hd, ancestorsRow, getElem?_map,
    getElem?_range hd]
  rfl

end SpeculativeTree

namespace TreeAttention

open SpeculativeTree

variable {t : SpeculativeTree} {args : PagedArgs} {posBase nHead headIdx i : Nat}

theorem ofNat_facts (h : i < 2 ^ 28) : Int32.ofNat i ≠ -1 ∧ (Int32.ofNat i).toUInt32.toNat = i := by
  have hnat : (Int32.ofNat i).toUInt32.toNat = i := Nat.mod_eq_of_lt (h.trans (by norm_num))
  refine ⟨fun heq => ?_, hnat⟩
  rw [heq] at hnat
  have hone : (-1 : Int32).toUInt32.toNat = 4294967295 := by decide
  omega

-- A node of a tree that is not too large is looked at with one position for each of its ancestors, up to the depth that
-- there is room for, and never with one for itself.
theorem ancestorPositions_eq (hi : i < t.nodes.length) (hsize : i < 2 ^ 28) (nCtx rounds d : Nat) (hd : rounds + d = maxTreeDepth) :
    ancestorPositions t.ancestorsData i nCtx maxTreeDepth rounds d =
      (range' d (min maxTreeDepth (t.depth i) - d)).map fun d => uint (nCtx + d) := by
  have ⟨ancestors, hlineage, hlen, hall⟩ := lineage_eq hi
  induction rounds generalizing d
  case zero => simp [ancestorPositions, show min maxTreeDepth (t.depth i) - d = 0 by omega]
  case succ rounds ih =>
    have hdepth : maxTreeDepth = 16 := rfl
    have hindex : uint (i * maxTreeDepth + d) = i * maxTreeDepth + d := uint_eq (by rw [hdepth]; omega)
    rw [ancestorPositions, hindex, ancestorsData_eq hi (by omega), Option.getD_some, hlineage]
    rcases Nat.lt_trichotomy d ancestors.length with hlt | heq | hgt
    case inl =>
      have ⟨hne, hnat⟩ := ofNat_facts ((hall _ (getElem_mem hlt)).trans hsize)
      have hself : ancestors[d] ≠ i := (hall _ (getElem_mem hlt)).ne
      obtain ⟨k, hk⟩ := Nat.exists_eq_add_of_lt (show d < min maxTreeDepth (t.depth i) by omega)
      rw [getElem?_append_left hlt, getElem?_eq_getElem hlt]
      simp only [Option.map_some, Option.getD_some, if_neg hne, hnat, if_neg hself]
      rw [ih (d + 1) (by omega), show min maxTreeDepth (t.depth i) - d = (min maxTreeDepth (t.depth i) - (d + 1)) + 1 by omega,
        range'_succ, map_cons]
    case inr.inl =>
      have ⟨hne, hnat⟩ := ofNat_facts hsize
      rw [getElem?_append_right heq.ge, heq, Nat.sub_self]
      simp only [getElem?_cons_zero, Option.map_some, Option.getD_some, if_neg hne, hnat, if_true]
      rw [ih _ (by omega)]
      simp [show min maxTreeDepth (t.depth i) - (d + 1) = 0 by omega, show min maxTreeDepth (t.depth i) - d = 0 by omega, ← heq]
    case inr.inr =>
      rw [getElem?_eq_none (by simp; omega)]
      simp [show min maxTreeDepth (t.depth i) - d = 0 by omega]

-- All positions that are looked at
theorem positions_eq (hi : i < t.nodes.length) (hsize : t.nodes.length < 2 ^ 28) (hhead : headIdx < uint nHead) :
    positions t posBase nHead (uint i) headIdx =
      range (uint posBase) ++ (range (min maxTreeDepth (t.depth i))).map fun d => uint (uint posBase + d) := by
  have hdepth : uint maxTreeDepth = maxTreeDepth := rfl
  rw [positions, uint_eq (n := i) (by omega), uint_eq (n := t.nodes.length) (by omega), if_neg (by omega), hdepth,
    ancestorPositions_eq hi (by omega) _ _ _ (Nat.add_zero _), Nat.sub_zero]
  simp only [range_eq_range']

-- Nodes of one depth are looked at with the same keys.
theorem keysRead_congr {j : Nat} (hi : i < t.nodes.length) (hj : j < t.nodes.length) (hsize : t.nodes.length < 2 ^ 28)
    (hhead : headIdx < uint nHead) (h : t.depth i = t.depth j) :
    keysRead t args posBase nHead i headIdx = keysRead t args posBase nHead j headIdx := by
  rw [keysRead, positions_eq hi hsize hhead, h, ← positions_eq hj hsize hhead, keysRead]

theorem lineage_root : t.lineage 0 = [0] := by
  have ⟨ancestors, hlineage, _, hall⟩ := lineage_eq t.length_pos
  cases ancestors
  case nil           => exact hlineage
  case cons j rest _ => exact absurd (hall j mem_cons_self) (Nat.not_lt_zero j)

theorem keysRead_root {key : Nat} (h : key ∈ keysRead t args posBase nHead 0 headIdx) :
    ∃ pos < posBase, key = args.kvHead pos (headIdx / (uint nHead / args.nHeadKv)) := by
  have ⟨pos, hpos, hkey⟩ := mem_map.mp h
  unfold positions at hpos
  split at hpos
  case isTrue => contradiction
  case isFalse =>
    have hzero : uint 0 = 0 := rfl
    have hdepth : uint maxTreeDepth = maxTreeDepth := rfl
    have hroot : t.depth 0 = 0 := by rw [depth, lineage_root]; rfl
    rw [hzero, hdepth, ancestorPositions_eq t.length_pos (by norm_num) _ _ _ (Nat.add_zero _), hroot] at hpos
    have hpos : pos < uint posBase := by simpa using hpos
    exact ⟨pos, hpos.trans_le (Nat.mod_le ..), hkey.symm⟩

-- The root is never looked at with a key of its own.
theorem not_followsLineage (t : SpeculativeTree) (args : PagedArgs) (posBase nHead headIdx : Nat) :
    ¬FollowsLineage t args posBase nHead headIdx := by
  intro ⟨cell, happart, _, hread⟩
  have hown := (hread 0 t.length_pos (cell 0)).mpr (.inr ⟨0, lineage_root ▸ mem_cons_self, rfl⟩)
  exact happart 0 t.length_pos (keysRead_root hown)

-- Two children of the root have the keys of the root in common, and none of their own.
theorem exists_lineage_not_followed : ∃ (t : SpeculativeTree) (args : PagedArgs) (posBase nHead headIdx : Nat),
    headIdx < nHead ∧ ¬FollowsLineage t args posBase nHead headIdx := by
  refine ⟨((new 5).addChild 0 6 (by decide)).addChild 0 7 (by decide), ⟨fun _ => 0, 0, 4, 4, 1, 2⟩, 1, 1, 0, by decide, ?_⟩
  intro ⟨cell, happart, hinj, hread⟩
  have hkeys : keysRead (((new 5).addChild 0 6 (by decide)).addChild 0 7 (by decide)) ⟨fun _ => 0, 0, 4, 4, 1, 2⟩ 1 1 1 0 =
      [0, 2] := by decide
  have hpath : (((new 5).addChild 0 6 (by decide)).addChild 0 7 (by decide)).lineage 1 = [0, 1] := by decide
  have hown (i : Nat) (hi : i = 0 ∨ i = 1) : cell i = 2 := by
    have hmem := (hread 1 (by decide) (cell i)).mpr (.inr ⟨i, by rw [hpath]; simpa using hi, rfl⟩)
    rw [hkeys] at hmem
    have hcell : cell i = 0 ∨ cell i = 2 := by simpa using hmem
    refine hcell.resolve_left fun h0 => ?_
    exact happart i (Nat.lt_of_le_of_lt (show i ≤ 1 by omega) (by decide)) ⟨0, by decide, by rw [h0]; decide⟩
  exact absurd (hinj 0 (by decide) 1 (by decide) ((hown 0 (.inl rfl)).trans (hown 1 (.inr rfl)).symm)) (by decide)

end TreeAttention
