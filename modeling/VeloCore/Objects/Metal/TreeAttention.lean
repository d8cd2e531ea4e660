import VeloCore.Objects.Metal.Paging
import VeloCore.Objects.Speculative.Tree

open List

namespace SpeculativeTree

-- `path` in `forward_tree` before it is reversed, that goes up from a node like `get_path`
def nodesFrom (nodes : List TreeNode) : Nat → Nat → List Nat
  | 0, _ => []
  | fuel + 1, curr =>
    match nodes[curr]? with
    | none => []
    | some node =>
      match node.parent with
      | some parent => curr :: nodesFrom nodes fuel parent
      | none        => [curr]

def lineage (t : SpeculativeTree) (i : Nat) : List Nat :=
  (nodesFrom t.nodes t.nodes.length i).reverse

def maxTreeDepth : Nat := 16

-- What a node has in `ancestors_data`
def ancestorsRow (t : SpeculativeTree) (i : Nat) : List Int32 :=
  (range maxTreeDepth).map fun d => ((t.lineage i)[d]?.map Int32.ofNat).getD (-1)

def ancestorsData (t : SpeculativeTree) : List Int32 :=
  (range t.nodes.length).flatMap t.ancestorsRow

end SpeculativeTree

namespace TreeAttention

-- The positions that the second loop of `paged_attention_tree` looks at, from a depth on
def ancestorPositions (ancestorsMap : List Int32) (nodeIdx nCtx maxTreeDepth : Nat) : Nat → Nat → List Nat
  | 0, _ => []
  | rounds + 1, depth =>
    let ancestorIdx := ancestorsMap[uint (nodeIdx * maxTreeDepth + depth)]?.getD (-1)
    if ancestorIdx = -1 then
      []
    else if ancestorIdx.toUInt32.toNat = nodeIdx then
      ancestorPositions ancestorsMap nodeIdx nCtx maxTreeDepth rounds (depth + 1)
    else
      uint (nCtx + depth) :: ancestorPositions ancestorsMap nodeIdx nCtx maxTreeDepth rounds (depth + 1)

-- All positions that the thread of a node and a head looks at
def positions (t : SpeculativeTree) (posBase nHead nodeIdx headIdx : Nat) : List Nat :=
  if nodeIdx ≥ uint t.nodes.length ∨ headIdx ≥ uint nHead then
    []
  else
    range (uint posBase) ++ ancestorPositions t.ancestorsData nodeIdx (uint posBase) (uint SpeculativeTree.maxTreeDepth)
      (uint SpeculativeTree.maxTreeDepth) 0

-- The keys that it reads, by where they begin in the pool
def keysRead (t : SpeculativeTree) (args : PagedArgs) (posBase nHead i headIdx : Nat) : List Nat :=
  (positions t posBase nHead (uint i) headIdx).map fun pos => args.kvHead pos (headIdx / (uint nHead / args.nHeadKv))

-- Each node has a key of its own, apart from those of the context, and is looked at with these and the keys of the nodes
-- from the root on.
def FollowsLineage (t : SpeculativeTree) (args : PagedArgs) (posBase nHead headIdx : Nat) : Prop :=
  let context (key : Nat) : Prop := ∃ pos < posBase, key = args.kvHead pos (headIdx / (uint nHead / args.nHeadKv))
  ∃ cell : Nat → Nat,
    (∀ i < t.nodes.length, ¬context (cell i)) ∧
    (∀ i < t.nodes.length, ∀ j < t.nodes.length, cell i = cell j → i = j) ∧
    ∀ i < t.nodes.length, ∀ key,
      key ∈ keysRead t args posBase nHead i headIdx ↔ context key ∨ ∃ j ∈ t.lineage i, key = cell j

end TreeAttention
