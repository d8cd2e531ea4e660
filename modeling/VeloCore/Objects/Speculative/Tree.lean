import VeloCore.Objects.Speculative.Model
import Mathlib.Tactic

open List

@[ext]
structure TreeNode where
  token : TokenId
  parent : Option Nat
deriving DecidableEq, Repr

structure TreeVerifyResult where
  expected : List TokenId
deriving DecidableEq, Repr

-- The trees that `new` and `add_child` build: the root comes first, and parents come before their children.
structure SpeculativeTree where
  nodes : List TreeNode
  root : ∃ token, nodes[0]? = some { token, parent := none }
  parent_lt : 0 < i → nodes[i]? = some node → ∃ p < i, node.parent = some p

namespace SpeculativeTree

def new (token : TokenId) : SpeculativeTree where
  nodes := [{ token, parent := none }]
  root := ⟨token, rfl⟩
  parent_lt {i _} hi h := by
    obtain ⟨i, rfl⟩ := Nat.exists_eq_add_one_of_ne_zero hi.ne'
    simp at h

def addChild (t : SpeculativeTree) (parentIdx : Nat) (token : TokenId) (h : parentIdx < t.nodes.length) : SpeculativeTree where
  nodes := t.nodes ++ [{ token, parent := some parentIdx }]
  root :=
    have ⟨token, h⟩ := t.root
    ⟨token, by rw [getElem?_append_left (List.getElem?_eq_some_iff.mp h).1, h]⟩
  parent_lt {i _} hi hn := by
    rcases Nat.lt_or_ge i t.nodes.length with hlt | hge
    case inl => exact t.parent_lt hi (by rwa [getElem?_append_left hlt] at hn)
    case inr =>
      rw [getElem?_append_right hge, getElem?_singleton] at hn
      split at hn <;> cases hn
      exact ⟨parentIdx, by omega, rfl⟩

-- `get_path` goes up from a node to the root, and its loop takes at most one round for each node.
def pathFrom (nodes : List TreeNode) : Nat → Nat → List TokenId
  | 0, _ => []
  | fuel + 1, i =>
    match nodes[i]? with
    | none => []
    | some node =>
      match node.parent with
      | some parent => node.token :: pathFrom nodes fuel parent
      | none        => [node.token]

def getPath (t : SpeculativeTree) (nodeIdx : Nat) : List TokenId :=
  (pathFrom t.nodes t.nodes.length nodeIdx).reverse

-- One round of the first loop of `find_best_path`; there is no result when an index is out of range.
def validate (t : SpeculativeTree) (expected : List TokenId) (valid : List Bool) (i : Nat) : Option (List Bool) := do
  let node ← t.nodes[i]?
  match node.parent with
  | none => pure valid
  | some parent =>
    if ← valid[parent]? then
      let e ← expected[parent]?
      pure (if node.token = e then valid.set i true else valid)
    else
      pure valid

structure BestPath where
  bestPath : List TokenId
  rejectedToken : Option TokenId
  maxLen : Nat

-- One round of the second loop.
def improve (t : SpeculativeTree) (expected : List TokenId) (valid : List Bool) (best : BestPath) (i : Nat) : BestPath :=
  if valid[i]? = some true then
    let path := t.getPath i
    if best.maxLen ≤ path.length then
      { bestPath := path, rejectedToken := expected[i]?, maxLen := path.length }
    else
      best
  else
    best

def valid (t : SpeculativeTree) (expected : List TokenId) : Option (List Bool) :=
  (range' 1 (t.nodes.length - 1)).foldlM (t.validate expected) ((replicate t.nodes.length false).set 0 true)

def findBestPath (t : SpeculativeTree) (verified : TreeVerifyResult) : Option (List TokenId × Option TokenId) := do
  let valid ← t.valid verified.expected
  let best := (range t.nodes.length).foldl (t.improve verified.expected valid) ⟨[], none, 0⟩
  pure (best.bestPath, best.rejectedToken)

-- The nodes that are reached from `curr` by going to the first child.
def leftmostFrom (nodes : List TreeNode) : Nat → Nat → List Nat
  | 0, _ => []
  | fuel + 1, curr =>
    match nodes.findIdx? (·.parent = some curr) with
    | some firstChild => curr :: leftmostFrom nodes fuel firstChild
    | none            => [curr]

def leftmost (t : SpeculativeTree) : List Nat :=
  leftmostFrom t.nodes t.nodes.length 0

-- A linear draft as a tree.
def ofLinear (first : TokenId) (rest : List TokenId) : SpeculativeTree :=
  rest.foldl (fun t token => t.addChild (t.nodes.length - 1) token (by
    have ⟨_, h⟩ := t.root
    have ⟨h, _⟩ := List.getElem?_eq_some_iff.mp h
    omega)) (new first)

end SpeculativeTree

variable {μ δ τ : Type}

-- The default `draft_tree`. The index of the last node is that of the node added last.
def DraftModel.draftTree [DraftModel μ δ] (context : List TokenId) (maxTokens : Nat) (matcher : Option μ) (d : δ) :
    Except SpeculativeError SpeculativeTree × Option μ × δ :=
  match DraftModel.draft context maxTokens matcher d with
  | (.error e, m, d) => (.error e, m, d)
  | (.ok linear, m, d) =>
    match linear.map (·.token) with
    | []            => (.error (.model "Draft model returned no tokens"), m, d)
    | first :: rest => (.ok (.ofLinear first rest), m, d)

-- The default `verify_tree`: only the leftmost branch is verified, and the other nodes get a 0.
def TargetModel.verifyTree [TargetModel μ τ] (context : List TokenId) (tree : SpeculativeTree) (matcher : Option μ) (t : τ) :
    Except SpeculativeError TreeVerifyResult × Option μ × τ :=
  let pathIndices := tree.leftmost
  let path := pathIndices.filterMap fun idx => tree.nodes[idx]?.map (·.token)
  match TargetModel.verify context path matcher t with
  | (.error e, m, t) => (.error e, m, t)
  | (.ok verified, m, t) =>
    let expected := (pathIndices.zip verified).foldl (fun expected (i, step) => expected.set i step.expected)
      (replicate tree.nodes.length 0)
    (.ok { expected }, m, t)
