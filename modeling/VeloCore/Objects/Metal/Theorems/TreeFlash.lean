import Mathlib
import VeloCore.Objects.Metal.TreeFlash
import VeloCore.Objects.Metal.Theorems.TreeAttention
import VeloCore.Objects.Backend.Exact

open List F32

namespace TreeAttention

open SpeculativeTree

variable {φ : Type} [F32 φ] {t : SpeculativeTree} {posBase nHead headIdx i : Nat}

-- The positions of the context and, behind it, one for each ancestor, in their order
theorem positions_eq_range (hi : i < t.nodes.length) (hsize : t.nodes.length < 2 ^ 28) (hhead : headIdx < nHead)
    (hnHead : nHead < 2 ^ 32) (hpos : posBase + maxTreeDepth < 2 ^ 32) :
    positions t posBase nHead i headIdx = range (posBase + min maxTreeDepth (t.depth i)) := by
  have hnode : uint i = i := uint_eq (by omega)
  have hbase : uint posBase = posBase := uint_eq (by omega)
  have h : positions t posBase nHead (uint i) headIdx = _ := positions_eq hi hsize (by rwa [uint_eq hnHead])
  rw [hnode, hbase] at h
  rw [h, range_add]
  refine congrArg (range posBase ++ ·) (map_congr_left fun d hd => uint_eq ?_)
  have := mem_range.mp hd
  omega

-- The thread of a node computes, operation by operation, what the thread of `paged_attention_flash` does with the query of the
-- node at the last of these positions. It does not look at the node itself, and of the tree only the depth of the node counts.
theorem run_eq_flash (t : SpeculativeTree) (args : PagedArgs) (kCache vCache : Nat → φ) (q : List φ) (hi : i < t.nodes.length)
    (hsize : t.nodes.length < 2 ^ 28) (hhead : headIdx < nHead) (hnHead : nHead < 2 ^ 32)
    (hpos : posBase + maxTreeDepth < 2 ^ 32) (hctx : 0 < posBase + t.depth i) :
    run t args kCache vCache q posBase nHead i headIdx =
      FlashAttention.run args kCache vCache (q.drop (uint (i * nHead * args.headDim)))
        (posBase + min maxTreeDepth (t.depth i) - 1) nHead headIdx := by
  have hheads : uint nHead = nHead := uint_eq hnHead
  have hnodes : uint t.nodes.length = t.nodes.length := uint_eq (by omega)
  have hdepth : maxTreeDepth = 16 := rfl
  have htokens : uint (posBase + min maxTreeDepth (t.depth i) - 1 + 1) = posBase + min maxTreeDepth (t.depth i) := by
    rw [Nat.sub_add_cancel (by omega), uint_eq (by omega)]
  have hquery (d : Nat) : (q.drop (uint (i * nHead * args.headDim)))[uint (headIdx * args.headDim) + d]?.getD zero =
      q[uint (i * nHead * args.headDim) + uint (headIdx * args.headDim) + d]?.getD zero := by
    rw [getElem?_drop, Nat.add_assoc]
  rw [run, FlashAttention.run, hheads, hnodes, if_neg (by omega), positions_eq_range hi hsize hhead hnHead hpos]
  simp only [htokens, hquery]

-- Two children of the root, behind one token, read what a decode at the second position reads.
theorem run_eq_flash_siblings : ∃ _ : ExactFunctions, ∀ i ∈ [1, 2],
    run (((new 5).addChild 0 6 (by decide)).addChild 0 7 (by decide)) ⟨fun _ => 0, 0, 4, 4, 1, 2⟩ (fun _ => (zero : Exact))
      (fun _ => one) [zero, one, one, zero, one, one] 1 1 i 0 =
        FlashAttention.run ⟨fun _ => 0, 0, 4, 4, 1, 2⟩ (fun _ => (zero : Exact)) (fun _ => one)
          ([zero, one, one, zero, one, one].drop (uint (i * 1 * 2))) 1 1 0 := by
  have := realFunctions
  refine ⟨this, fun i hi => ?_⟩
  have hlt : i < 3 := by simp at hi; omega
  have hdepth : (((new 5).addChild 0 6 (by decide)).addChild 0 7 (by decide)).depth i = 1 := by
    simp only [mem_cons, not_mem_nil, or_false] at hi
    rcases hi with rfl | rfl <;> decide
  have h := run_eq_flash (((new 5).addChild 0 6 (by decide)).addChild 0 7 (by decide)) ⟨fun _ => 0, 0, 4, 4, 1, 2⟩
    (fun _ => (zero : Exact)) (fun _ => one) [zero, one, one, zero, one, one] hlt (by decide) (show 0 < 1 by decide) (by decide)
    (show 1 + maxTreeDepth < 2 ^ 32 by decide) (by omega)
  rwa [hdepth] at h

end TreeAttention
