import VeloCore.Objects.Speculative.Tree
import VeloCore.Objects.Speculative.Theorems.Session
import VeloCore.Objects.Speculative.Theorems.Batch

open List

namespace SpeculativeTree

variable {t : SpeculativeTree} {i k p v : Nat} {token first : TokenId}

theorem length_pos : 0 < t.nodes.length := by
  obtain ⟨_, h⟩ := t.root
  exact (List.getElem?_eq_some_iff.mp h).1

theorem parent_lt_of_getElem? (h : t.nodes[i]? = some { token, parent := some p }) : p < i := by
  have hi : 0 < i := by
    refine Nat.pos_of_ne_zero ?_
    rintro rfl
    obtain ⟨_, hr⟩ := t.root
    simp [hr] at h
  obtain ⟨_, hp, heq⟩ := t.parent_lt hi h
  cases heq
  exact hp

-- Where the path of a node ends does not depend on the fuel.
theorem pathFrom_congr {n m : Nat} (hn : i < n) (hm : i < m) : pathFrom t.nodes n i = pathFrom t.nodes m i := by
  induction i using Nat.strong_induction_on generalizing n m
  case h i hi =>
    obtain ⟨n, rfl⟩ := Nat.exists_eq_add_one_of_ne_zero (Nat.ne_zero_of_lt hn)
    obtain ⟨m, rfl⟩ := Nat.exists_eq_add_one_of_ne_zero (Nat.ne_zero_of_lt hm)
    rw [pathFrom, pathFrom]
    cases hnode : t.nodes[i]?
    case none => rfl
    case some node =>
      obtain ⟨token, parent⟩ := node
      cases parent
      case none => rfl
      case some p =>
        have hp := parent_lt_of_getElem? hnode
        dsimp only
        rw [hi p hp (show p < n by omega) (show p < m by omega)]

theorem getPath_root (h : t.nodes[0]? = some { token, parent := none }) : t.getPath 0 = [token] := by
  obtain ⟨n, hn⟩ := Nat.exists_eq_add_one_of_ne_zero t.length_pos.ne'
  rw [getPath, hn, pathFrom, h]
  rfl

theorem getPath_child (h : t.nodes[i]? = some { token, parent := some p }) : t.getPath i = t.getPath p ++ [token] := by
  have hp := parent_lt_of_getElem? h
  have ⟨hi, _⟩ := List.getElem?_eq_some_iff.mp h
  obtain ⟨n, hn⟩ := Nat.exists_eq_add_one_of_ne_zero t.length_pos.ne'
  rw [getPath, getPath, pathFrom_congr (n := t.nodes.length) (m := n + 2) hi (by omega), pathFrom, h]
  dsimp only
  rw [reverse_cons, pathFrom_congr (n := n + 1) (m := t.nodes.length) (by omega) (by omega)]

theorem getPath_concat (h : t.nodes[i]? = some node) : t.getPath i = (t.getPath i).dropLast ++ [node.token] := by
  obtain ⟨token, parent⟩ := node
  cases parent
  case some p => rw [getPath_child h, dropLast_concat]
  case none =>
    rcases Nat.eq_zero_or_pos i with rfl | hi
    case inl => rw [getPath_root h]; rfl
    case inr =>
      have ⟨_, _, hp⟩ := t.parent_lt hi h
      contradiction

section Leftmost

variable {fuel curr child : Nat}

theorem firstChild_spec (h : t.nodes.findIdx? (·.parent = some curr) = some child) :
    ∃ token, t.nodes[child]? = some { token, parent := some curr } := by
  have ⟨hlt, hp, _⟩ := findIdx?_eq_some_iff_getElem.mp h
  refine ⟨t.nodes[child].token, ?_⟩
  rw [getElem?_eq_getElem hlt]
  simpa [TreeNode.ext_iff] using hp

theorem leftmostFrom_mem (hc : curr < t.nodes.length) (h : v ∈ leftmostFrom t.nodes fuel curr) :
    curr ≤ v ∧ v < t.nodes.length := by
  induction fuel generalizing curr
  case zero => simp [leftmostFrom] at h
  case succ fuel hi =>
    rw [leftmostFrom] at h
    split at h
    case h_2 =>
      rw [mem_singleton.mp h]
      exact ⟨le_rfl, hc⟩
    case h_1 child hchild =>
      have ⟨_, hnode⟩ := firstChild_spec hchild
      have hlt := parent_lt_of_getElem? hnode
      rcases mem_cons.mp h with rfl | h
      case inl => exact ⟨le_rfl, hc⟩
      case inr =>
        have ⟨hle, hv⟩ := hi (List.getElem?_eq_some_iff.mp hnode).1 h
        exact ⟨by omega, hv⟩

theorem leftmostFrom_sorted (hc : curr < t.nodes.length) : (leftmostFrom t.nodes fuel curr).Pairwise (· < ·) := by
  induction fuel generalizing curr
  case zero => exact .nil
  case succ fuel hi =>
    rw [leftmostFrom]
    split
    case h_2 => exact pairwise_singleton ..
    case h_1 child hchild =>
      have ⟨_, hnode⟩ := firstChild_spec hchild
      have hlt := parent_lt_of_getElem? hnode
      have hlen := (List.getElem?_eq_some_iff.mp hnode).1
      refine .cons (fun v hv => ?_) (hi hlen)
      have ⟨hle, _⟩ := leftmostFrom_mem hlen hv
      omega

-- The loop ends at a node without a child.
theorem leftmostFrom_closed (hc : curr < t.nodes.length) (hf : t.nodes.length ≤ curr + fuel)
    (h : v ∈ leftmostFrom t.nodes fuel curr) (hv : t.nodes.findIdx? (·.parent = some v) = some child) :
    child ∈ leftmostFrom t.nodes fuel curr := by
  induction fuel generalizing curr
  case zero => omega
  case succ fuel hi =>
    have ⟨_, hnode⟩ := firstChild_spec hv
    have hlen := (List.getElem?_eq_some_iff.mp hnode).1
    rw [leftmostFrom] at h ⊢
    split at h
    case h_2 hnone =>
      cases mem_singleton.mp h
      rw [hnone] at hv
      contradiction
    case h_1 first hfirst =>
      have ⟨_, hnode'⟩ := firstChild_spec hfirst
      have hlt := parent_lt_of_getElem? hnode'
      have hlen' := (List.getElem?_eq_some_iff.mp hnode').1
      refine mem_cons_of_mem _ ?_
      rcases mem_cons.mp h with rfl | h
      case inl =>
        cases hfirst.symm.trans hv
        obtain ⟨fuel, rfl⟩ := Nat.exists_eq_add_one_of_ne_zero (show fuel ≠ 0 by omega)
        rw [leftmostFrom]
        split <;> exact mem_cons_self
      case inr => exact hi hlen' (by omega) h

-- The nodes on the way to one on the branch are on the branch.
theorem leftmostFrom_parent (h : v ∈ leftmostFrom t.nodes fuel curr) (hne : v ≠ curr)
    (hv : t.nodes[v]? = some { token, parent := some p }) : p ∈ leftmostFrom t.nodes fuel curr := by
  induction fuel generalizing curr
  case zero => simp [leftmostFrom] at h
  case succ fuel hi =>
    rw [leftmostFrom] at h ⊢
    split at h
    case h_2 => exact absurd (mem_singleton.mp h) hne
    case h_1 child hchild =>
      have h := (mem_cons.mp h).resolve_left hne
      by_cases heq : v = child
      case pos =>
        have ⟨_, hnode⟩ := firstChild_spec hchild
        cases hv.symm.trans (heq ▸ hnode)
        exact mem_cons_self
      case neg => exact mem_cons_of_mem _ (hi h heq)

-- The tokens of some nodes.
def tokens (t : SpeculativeTree) (indices : List Nat) : List TokenId :=
  indices.filterMap fun idx => t.nodes[idx]?.map (·.token)

theorem tokens_cons (h : t.nodes[i]? = some node) : t.tokens (i :: l) = node.token :: t.tokens l := by
  rw [tokens, filterMap_cons, h]
  rfl

theorem leftmostFrom_path (hc : curr < t.nodes.length) (h : (leftmostFrom t.nodes fuel curr)[k]? = some v) :
    t.getPath v = (t.getPath curr).dropLast ++ t.tokens ((leftmostFrom t.nodes fuel curr).take (k + 1)) := by
  induction fuel generalizing curr k
  case zero => simp [leftmostFrom] at h
  case succ fuel hi =>
    have hcurr := getPath_concat (getElem?_eq_getElem hc)
    rw [leftmostFrom] at h ⊢
    split at h
    case h_2 =>
      have ⟨hk, hv⟩ := List.getElem?_eq_some_iff.mp h
      obtain rfl : k = 0 := by simpa using hk
      cases h
      rw [take_succ_cons, tokens_cons (getElem?_eq_getElem hc)]
      exact hcurr
    case h_1 child hchild =>
      have ⟨_, hnode⟩ := firstChild_spec hchild
      rw [take_succ_cons, tokens_cons (getElem?_eq_getElem hc)]
      cases k
      case zero => cases h; exact hcurr
      case succ k =>
        rw [hi (List.getElem?_eq_some_iff.mp hnode).1 (by simpa using h), getPath_child hnode, dropLast_concat,
          append_cons, ← hcurr]

end Leftmost

theorem zero_mem_leftmost : 0 ∈ t.leftmost := by
  obtain ⟨n, hn⟩ := Nat.exists_eq_add_one_of_ne_zero t.length_pos.ne'
  rw [leftmost, hn, leftmostFrom]
  split <;> exact mem_cons_self

theorem leftmost_path (h : t.leftmost[k]? = some v) : t.getPath v = t.tokens (t.leftmost.take (k + 1)) := by
  obtain ⟨_, hroot⟩ := t.root
  rw [leftmostFrom_path t.length_pos h, getPath_root hroot]
  rfl

theorem tokens_length (h : ∀ i ∈ l, i < t.nodes.length) : (t.tokens l).length = l.length := by
  induction l
  case nil => rfl
  case cons i l hi =>
    have ⟨hlt, hl⟩ := forall_mem_cons.mp h
    rw [tokens_cons (getElem?_eq_getElem hlt), length_cons, length_cons, hi hl]

theorem leftmost_lt (h : v ∈ t.leftmost) : v < t.nodes.length :=
  (leftmostFrom_mem t.length_pos h).right

-- What the target is asked for at a node of the branch comes after the path to it.
theorem leftmost_dropLast (h : t.leftmost[k]? = some v) : (t.tokens t.leftmost).take k = (t.getPath v).dropLast := by
  have ⟨hk, hv⟩ := List.getElem?_eq_some_iff.mp h
  have hlt := leftmost_lt (mem_of_getElem? h)
  have hsplit := leftmost_path h
  rw [take_succ_eq_append_getElem hk, tokens, filterMap_append] at hsplit
  have htaken : (t.tokens t.leftmost).take k = t.tokens (t.leftmost.take k) := by
    conv_lhs => rw [← take_append_drop k t.leftmost, tokens, filterMap_append]
    refine take_left' ?_
    have hlen : (t.tokens (t.leftmost.take k)).length = (t.leftmost.take k).length :=
      tokens_length fun i hi => leftmost_lt (mem_of_mem_take hi)
    rw [tokens] at hlen
    rw [hlen, length_take, min_eq_left hk.le]
  rw [htaken, hsplit, hv]
  simp [getElem?_eq_getElem hlt, tokens]

section Verify

variable {indices : List Nat} {steps : List VerifyStep} {base : List TokenId}

-- The loop of `verify_tree` that sets the expected tokens.
def setExpected (indices : List Nat) (steps : List VerifyStep) (base : List TokenId) : List TokenId :=
  (indices.zip steps).foldl (fun expected (i, step) => expected.set i step.expected) base

theorem setExpected_spec (hn : indices.Nodup) (hlen : indices.length = steps.length) (hlt : ∀ i ∈ indices, i < base.length) :
    (setExpected indices steps base).length = base.length ∧
      (∀ i ∉ indices, (setExpected indices steps base)[i]? = base[i]?) ∧
      ∀ (k i : Nat), indices[k]? = some i → (setExpected indices steps base)[i]? = steps[k]?.map (·.expected) := by
  induction indices generalizing steps base
  case nil => simp [setExpected]
  case cons i indices hi =>
    obtain ⟨step, steps, rfl⟩ := exists_cons_of_length_eq_add_one hlen.symm
    rw [nodup_cons] at hn
    have ⟨hlti, hlt⟩ := forall_mem_cons.mp hlt
    have ⟨hl, hout, hin⟩ := @hi steps (base.set i step.expected) hn.right (by simpa using hlen) (by simpa using hlt)
    refine ⟨hl.trans (by simp), fun j hj => ?_, fun k j hk => ?_⟩
    case refine_1 =>
      have hj := not_or.mp (mem_cons.not.mp hj)
      exact (hout j hj.right).trans (getElem?_set_ne (Ne.symm hj.left))
    case refine_2 =>
      cases k
      case zero =>
        cases hk
        exact (hout i hn.left).trans (getElem?_set_self hlti)
      case succ k => exact hin k j hk

-- What the target is really asked for at a node. The nodes beside the branch get the placeholder.
def expectedAt (t : SpeculativeTree) (f : List TokenId → TokenId) (ctx : List TokenId) (i : Nat) : TokenId :=
  if i ∈ t.leftmost then f (ctx ++ (t.getPath i).dropLast) else 0

variable {μ τ : Type} [TargetModel μ τ] {f : List TokenId → TokenId}

theorem verifyTree_returns (hτ : TargetModel.VerifiesBy τ f) (ctx : List TokenId) (t : SpeculativeTree) (model : τ) :
    ∃ verified m model', TargetModel.verifyTree ctx t none model = (.ok verified, m, model') ∧
      ∀ i < t.nodes.length, verified.expected[i]? = some (t.expectedAt f ctx i) := by
  have ⟨steps, m, model', hv, hsteps⟩ := hτ model ctx (t.tokens t.leftmost)
  have hn : t.leftmost.Nodup := (leftmostFrom_sorted t.length_pos).imp Nat.ne_of_lt
  have hlt : ∀ i ∈ t.leftmost, i < t.nodes.length := fun i hi => leftmost_lt hi
  have hlen : t.leftmost.length = steps.length := by
    have h := congrArg length hsteps
    rw [length_map, expectedAfter_length, tokens_length hlt] at h
    exact h.symm
  have hlt' : ∀ i ∈ t.leftmost, i < (replicate t.nodes.length 0 : List TokenId).length := by simpa using hlt
  have ⟨_, hout, hin⟩ := setExpected_spec hn hlen hlt'
  refine ⟨⟨setExpected t.leftmost steps (replicate t.nodes.length 0)⟩, m, model', ?_, fun i hi => ?_⟩
  case refine_1 =>
    rw [tokens] at hv
    simp only [TargetModel.verifyTree, hv]
    rfl
  case refine_2 =>
    unfold expectedAt
    split
    case isFalse hmem => simpa [hi] using hout i hmem
    case isTrue hmem =>
      have ⟨k, hk⟩ := List.getElem?_of_mem hmem
      have ⟨hk', _⟩ := List.getElem?_eq_some_iff.mp hk
      have hstep := congrArg (·[k]?) hsteps
      simp only [getElem?_map] at hstep
      rw [hin k i hk, hstep, expectedAfter_getElem? (by rwa [tokens_length hlt]), leftmost_dropLast hk]

end Verify
end SpeculativeTree
