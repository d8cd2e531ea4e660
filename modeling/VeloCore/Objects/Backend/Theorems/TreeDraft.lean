import VeloCore.Objects.Backend.TreeDraft
import VeloCore.Objects.Speculative.Theorems.Batch
import VeloCore.Objects.Speculative.Theorems.Tree
import VeloCore.Primitives.Continuation

open List

namespace SpeculativeTree

variable {t : SpeculativeTree} {token : TokenId} {p i : Nat}

theorem addChild_getElem? (h : p < t.nodes.length) (hi : i < t.nodes.length) :
    (t.addChild p token h).nodes[i]? = t.nodes[i]? :=
  getElem?_append_left hi

theorem addChild_last (h : p < t.nodes.length) :
    (t.addChild p token h).nodes[t.nodes.length]? = some { token, parent := some p } :=
  getElem?_concat_length

-- The paths of the nodes that were there stay as they are.
theorem addChild_getPath (h : p < t.nodes.length) (hi : i < t.nodes.length) :
    (t.addChild p token h).getPath i = t.getPath i := by
  induction i using Nat.strong_induction_on
  case h i hind =>
    have hnode := getElem?_eq_getElem hi
    have hnode' := (@addChild_getElem? t token p i h hi).trans hnode
    rcases Nat.eq_zero_or_pos i with rfl | hpos
    case inl =>
      obtain ⟨root, hroot⟩ := t.root
      rw [getPath_root hroot, getPath_root ((addChild_getElem? h hi).trans hroot)]
    case inr =>
      obtain ⟨q, hq, hparent⟩ := t.parent_lt hpos hnode
      generalize t.nodes[i] = node at hnode hnode' hparent
      obtain ⟨_, _⟩ := node
      cases hparent
      rw [getPath_child hnode, getPath_child hnode', hind q hq (hq.trans hi)]

theorem addChild_getPath_last (h : p < t.nodes.length) :
    (t.addChild p token h).getPath t.nodes.length = t.getPath p ++ [token] := by
  rw [getPath_child (addChild_last h), addChild_getPath h h]

end SpeculativeTree

namespace TreeDraftModel

variable {φ μ : Type} [Logit φ] [CfgMatcher μ]

section Borrowing

variable {β : Type} [CausalLmBackend φ β]

theorem draftLoop_borrowed (n : Nat) (row : DraftRow μ) (b : β) :
    GreedyDraftModel.draftLoop n row (⟨b⟩ : Borrowed β) =
      match GreedyDraftModel.draftLoop n row b with
      | (res, row, b) => (res, row, ⟨b⟩) := by
  induction n generalizing row b
  case zero => rfl
  case succ n hi =>
    have hnext : CausalLmBackend.nextLogits row.context (⟨b⟩ : Borrowed β) =
        Borrowed.forward (CausalLmBackend.nextLogits row.context) ⟨b⟩ := rfl
    rw [GreedyDraftModel.draftLoop, GreedyDraftModel.draftLoop, hnext, Borrowed.forward]
    match CausalLmBackend.nextLogits row.context b with
    | (.error e, b)   => rfl
    | (.ok logits, b) => exact hi _ _

-- For a linear draft, the model that borrows the backend does what one that owns it does.
theorem draft_eq_greedy (context : List TokenId) (maxTokens : Nat) (matcher : Option μ) (b : β) :
    DraftModel.draft context maxTokens matcher (⟨b⟩ : TreeDraftModel μ β) =
      match DraftModel.draft context maxTokens matcher (⟨b⟩ : GreedyDraftModel μ β) with
      | (res, m, d) => (res, m, ⟨d.backend⟩) := by
  simp only [DraftModel.draft, draftLoop_borrowed]

end Borrowing

-- The matcher after it has followed some tokens, masking and advancing in turn as `draft` does
def follow (m : μ) (path : List TokenId) : μ :=
  path.foldl (fun m token => CfgMatcher.advance token (CfgMatcher.nextMask m).2) m

def maskAfter (matcher : Option μ) (path : List TokenId) : Option LogitMask :=
  matcher.map fun m => (CfgMatcher.nextMask (follow m path)).1

variable (b : StatelessBackend φ) (width : Nat) (matcher : Option μ) (context : List TokenId)

-- The token is one of the best `width` ones that may follow the path.
def Among (path : List TokenId) (token : TokenId) : Prop :=
  ∃ logits, b.nextLogits (context ++ path) = .ok logits ∧
    ⟨token⟩ ∈ TopKSampler.sampleTopK ⟨width⟩ logits.values (maskAfter matcher path)

-- Every node of the tree may follow the path of its parent, and the root the context.
def Continues (t : SpeculativeTree) : Prop :=
  ∀ (i : Nat) node, t.nodes[i]? = some node →
    Among b width matcher context (node.parent.elim [] t.getPath) node.token

-- The best token after some tokens, whatever a matcher allows
def bestToken (path : List TokenId) : TokenId :=
  match b.nextLogits path with
  | .ok logits => (TopKSampler.sample ⟨width⟩ logits.values none).token
  | .error _   => 0

-- The best tokens for the first position
def firstTokens : List TokenId :=
  match b.nextLogits context with
  | .ok logits => (TopKSampler.sampleTopK ⟨width⟩ logits.values (maskAfter matcher [])).map (·.token)
  | .error _   => []

-- The alternatives for the first position may follow the first of them as well, and the matcher allows the tokens
-- that are best without it.
def Allowed (maxTokens : Nat) : Prop :=
  ∀ first ∈ (firstTokens b width matcher context).head?,
    (∀ other ∈ (firstTokens b width matcher context).tail, Among b width matcher context [first] other) ∧
    ∀ n < maxTokens - 1,
      let path := first :: greedy (bestToken b width) (context ++ [first]) n
      Among b width matcher context path (bestToken b width (context ++ path))

variable {b width matcher context} {t t' : SpeculativeTree} {token first : TokenId} {p : Nat}

theorem continues_addChild_iff (h : p < t.nodes.length) :
    Continues b width matcher context (t.addChild p token h) ↔
      Continues b width matcher context t ∧ Among b width matcher context (t.getPath p) token := by
  have hparent {i : Nat} {node} (hi : t.nodes[i]? = some node) :
      node.parent.elim [] (t.addChild p token h).getPath = node.parent.elim [] t.getPath := by
    obtain ⟨a, parent⟩ := node
    cases parent
    case none   => rfl
    case some q =>
      have hq := SpeculativeTree.parent_lt_of_getElem? hi
      exact SpeculativeTree.addChild_getPath h (hq.trans (List.getElem?_eq_some_iff.mp hi).1)
  constructor
  case mp =>
    refine fun hc => ⟨fun i node hi => ?_, ?_⟩
    case refine_1 =>
      have hlt := (List.getElem?_eq_some_iff.mp hi).1
      rw [← hparent hi]
      exact hc i node ((SpeculativeTree.addChild_getElem? h hlt).trans hi)
    case refine_2 =>
      have hlast := hc _ _ (SpeculativeTree.addChild_last h)
      rwa [Option.elim_some, SpeculativeTree.addChild_getPath h h] at hlast
  case mpr =>
    rintro ⟨hc, hp⟩ i node hi
    rcases Nat.lt_or_ge i t.nodes.length with hlt | hge
    case inl =>
      rw [SpeculativeTree.addChild_getElem? h hlt] at hi
      rw [hparent hi]
      exact hc i node hi
    case inr =>
      have hlt := (List.getElem?_eq_some_iff.mp hi).1
      obtain rfl : i = t.nodes.length := by simp [SpeculativeTree.addChild] at hlt; omega
      cases (SpeculativeTree.addChild_last h).symm.trans hi
      rwa [Option.elim_some, SpeculativeTree.addChild_getPath h h]

theorem continues_new_iff :
    Continues b width matcher context (.new token) ↔ Among b width matcher context [] token := by
  constructor
  case mp  => exact fun h => h 0 _ rfl
  case mpr =>
    intro h i node hi
    obtain ⟨rfl, rfl⟩ : i = 0 ∧ node = { token, parent := none } := by
      cases i <;> simp_all [SpeculativeTree.new]
    exact h

theorem branch_spec (hroot : t.getPath 0 = [first]) (others : List NextTokenPrediction) :
    (branch t others).getPath 0 = [first] ∧ (Continues b width matcher context (branch t others) ↔
      Continues b width matcher context t ∧ ∀ other ∈ others, Among b width matcher context [first] other.token) := by
  induction others generalizing t
  case nil => simp [branch, hroot]
  case cons other others hi =>
    have hpos := t.length_pos
    have hroot' : (t.addChild 0 other.token hpos).getPath 0 = [first] :=
      (SpeculativeTree.addChild_getPath hpos hpos).trans hroot
    have ⟨hpath, hiff⟩ := hi hroot'
    refine ⟨hpath, hiff.trans ?_⟩
    rw [continues_addChild_iff hpos, hroot, forall_mem_cons, and_assoc]

-- Each round adds the best token after the path so far.
theorem expand_spec {n : Nat} {curr : Fin t.nodes.length} {b' : StatelessBackend φ}
    (h : expand ⟨width⟩ context n t curr b = (.ok t', b')) :
    Continues b width matcher context t' ↔ Continues b width matcher context t ∧ ∀ k < n,
      let path := t.getPath curr ++ greedy (bestToken b width) (context ++ t.getPath curr) k
      Among b width matcher context path (bestToken b width (context ++ path)) := by
  induction n generalizing t
  case zero =>
    cases h
    simp
  case succ n hi =>
    rw [expand] at h
    split at h
    case h_1 => cases h
    case h_2 logits b₁ hnext =>
      obtain ⟨hlogits, rfl⟩ : b.nextLogits (context ++ t.getPath curr) = .ok logits ∧ b = b₁ := Prod.mk.inj hnext
      have hbest : (TopKSampler.sample ⟨width⟩ logits.values none).token = bestToken b width (context ++ t.getPath curr) := by
        rw [bestToken, hlogits]
      rw [hi h, continues_addChild_iff, and_assoc, Nat.forall_lt_succ_left]
      refine and_congr_right fun _ => and_congr (by rw [greedy, append_nil, hbest]) (forall₂_congr fun k _ => ?_)
      dsimp only
      rw [SpeculativeTree.addChild_getPath_last, hbest, greedy, append_assoc, append_assoc, singleton_append]

-- The tree is one of continuations if and only if the alternatives are allowed where they stand.
theorem continues_iff_allowed {maxTokens : Nat} {d : TreeDraftModel μ (StatelessBackend φ)} {m : Option μ}
    (h : draftTree context maxTokens width matcher (⟨b⟩ : TreeDraftModel μ (StatelessBackend φ)) = (.ok t, m, d)) :
    Continues b width matcher context t ↔ Allowed b width matcher context maxTokens := by
  unfold draftTree at h
  dsimp only at h
  split at h
  case h_1 => cases h
  case h_2 logits b₁ hnext =>
    obtain ⟨hlogits, rfl⟩ : b.nextLogits context = .ok logits ∧ b = b₁ := Prod.mk.inj hnext
    have hmask : (nextMask matcher).1 = maskAfter matcher [] := rfl
    rw [hmask] at h
    split at h
    case h_1 => cases h
    case h_2 first others hfirst =>
      have hfirsts : firstTokens b width matcher context = first.token :: others.map (·.token) := by
        rw [firstTokens, hlogits]
        dsimp only
        rw [hfirst, map_cons]
      have hamong : Among b width matcher context [] first.token :=
        ⟨logits, by rw [append_nil, hlogits], by rw [hfirst]; exact mem_cons_self⟩
      have ⟨hpath, hbranch⟩ : (branch (.new first.token) others).getPath 0 = [first.token] ∧
          (Continues b width matcher context (branch (.new first.token) others) ↔
            Continues b width matcher context (.new first.token) ∧
              ∀ other ∈ others, Among b width matcher context [first.token] other.token) := branch_spec rfl others
      have hexpand := (Prod.mk.inj h).1
      rw [expand_spec (Prod.ext hexpand rfl), hbranch, continues_new_iff, and_iff_right hamong, Allowed, hfirsts]
      simp [hpath]

-- Logits that can be evaluated
instance : Logit UInt8 where
  negInfinity := 0
  ge a b      := b ≤ a

-- The best two tokens are the same after every context.
theorem continues_iff_allowed_constant :
    let b : StatelessBackend UInt8 := ⟨fun _ => .ok ⟨[0, 5, 9], by decide⟩, fun _ _ => .ok []⟩
    ∃ t, draftTree [7] 3 2 none (⟨b⟩ : TreeDraftModel Empty (StatelessBackend UInt8)) = (.ok t, none, ⟨b⟩) ∧
      (Continues b 2 (none : Option Empty) [7] t ↔ Allowed b 2 (none : Option Empty) [7] 3) :=
  ⟨_, rfl, continues_iff_allowed rfl⟩

-- The second best token comes to stand after the best one, where it is the last.
theorem exists_not_continues :
    let b : StatelessBackend UInt8 :=
      ⟨fun context => .ok ⟨if context = [] then [9, 5, 0] else [9, 0, 5], by split <;> simp⟩, fun _ _ => .ok []⟩
    ∃ t, draftTree [] 1 2 none (⟨b⟩ : TreeDraftModel Empty (StatelessBackend UInt8)) = (.ok t, none, ⟨b⟩) ∧
      ¬Continues b 2 (none : Option Empty) [] t := by
  refine ⟨_, rfl, fun h => ?_⟩
  have ⟨logits, hlogits, hmem⟩ := h 1 ⟨1, some 0⟩ rfl
  cases hlogits
  exact absurd hmem (by decide)

end TreeDraftModel
