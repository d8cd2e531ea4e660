import VeloCore.Objects.Speculative.Theorems.LongestPath

open List

section Shifted

variable {α : Type*} {f : List α → α} {ctx l : List α} {a z : α} {n q : Nat}

-- The first `q` elements after the first one are chosen by `f` one place too early, and the rest is `z`.
structure Shifted (f : List α → α) (ctx : List α) (a z : α) (n q : Nat) (l : List α) : Prop where
  length : l.length = n + 1
  le     : q ≤ n
  first  : l[0]? = some a
  next   : ∀ k < n, l[k + 1]? = some (if k < q then f (ctx ++ l.take k) else z)

-- What `f` has to write for a shifted list to be its own.
def constantThen (c z : α) (n q : Nat) : List α :=
  replicate (q + 1) c ++ replicate (n - q) z

theorem constantThen_getElem? (hq : q ≤ n) (hk : k ≤ n) :
    (constantThen c z n q)[k]? = some (if k ≤ q then c else z) := by
  rw [constantThen]
  split
  case isTrue h => rw [getElem?_append_left (by simp; omega), getElem?_replicate_of_lt (by omega)]
  case isFalse h => rw [getElem?_append_right (by simp; omega), getElem?_replicate_of_lt (by simp; omega)]

theorem constantThen_length (hq : q ≤ n) : (constantThen c z n q).length = n + 1 := by
  simp [constantThen]
  omega

namespace Shifted

-- A list that `f` chooses both in time and one place too early does not change.
theorem getElem?_of_follows (h : Shifted f ctx a z n q l) (hf : Follows f ctx l) (hk : k ≤ n) :
    l[k]? = some (if k ≤ q then f ctx else z) := by
  have hlen := h.length
  have hfk : ∀ k ≤ n, l[k]? = some (f (ctx ++ l.take k)) := fun k hk => by
    rw [getElem?_eq_getElem (by omega), follows_iff_getElem.mp hf k (by omega)]
  induction k
  case zero => simpa using hfk 0 (Nat.zero_le n)
  case succ k hi =>
    rw [h.next k (by omega)]
    by_cases hlt : k < q
    case neg => rw [if_neg hlt, if_neg (by omega)]
    case pos =>
      rw [if_pos hlt, if_pos (by omega), ← hfk k (by omega), hi (by omega), if_pos hlt.le]

theorem follows_iff (h : Shifted f ctx a z n q l) :
    Follows f ctx l ↔ a = f ctx ∧ greedy f ctx (n + 1) = constantThen (f ctx) z n q := by
  constructor
  case mp =>
    intro hf
    have hget : ∀ k ≤ n, l[k]? = (constantThen (f ctx) z n q)[k]? := fun k hk => by
      rw [h.getElem?_of_follows hf hk, constantThen_getElem? h.le hk]
    have hfirst := h.getElem?_of_follows hf (Nat.zero_le n)
    rw [h.first, if_pos (Nat.zero_le q)] at hfirst
    refine ⟨Option.some.inj hfirst, ?_⟩
    rw [← h.length, ← hf]
    refine ext_getElem? fun k => ?_
    rcases Nat.lt_or_ge n k with hk | hk
    case inr => exact hget k hk
    case inl =>
      rw [getElem?_eq_none (by rw [h.length]; omega), getElem?_eq_none (by rw [constantThen_length h.le]; omega)]
  case mpr =>
    rintro ⟨rfl, hg⟩
    -- The list is `f`'s up to `k`, so the choice that is one place too early is `f`'s previous one.
    have htake : ∀ k ≤ n, l.take (k + 1) = (greedy f ctx (n + 1)).take (k + 1) := by
      intro k hk
      induction k
      case zero =>
        rw [take_add_one, take_add_one, h.first, hg, constantThen_getElem? h.le hk]
        simp
      case succ k hi =>
        have hi := hi (by omega)
        rw [take_add_one, hi, h.next k (by omega), take_add_one (i := k + 1), hg, constantThen_getElem? h.le hk, ← hg]
        by_cases hlt : k < q
        case neg => rw [if_neg hlt, if_neg (by omega)]
        case pos =>
          have htk : l.take k = (greedy f ctx (n + 1)).take k := by
            simpa [take_take] using congrArg (take k) hi
          have hg' : Follows f ctx (greedy f ctx (n + 1)) := follows_greedy
          have hchoice := follows_iff_getElem.mp hg' k (by simp; omega)
          have hconst := constantThen_getElem? (c := f ctx) (z := z) h.le (show k ≤ n by omega)
          rw [if_pos hlt.le, ← hg, getElem?_eq_getElem (by simp; omega), hchoice] at hconst
          rw [if_pos hlt, if_pos (show k + 1 ≤ q from hlt), htk, Option.some.inj hconst]
    have hall := htake n le_rfl
    rw [take_of_length_le h.length.le, take_of_length_le greedy_length.le] at hall
    rw [hall]
    exact follows_greedy

end Shifted
end Shifted

namespace SpeculativeTree

variable {t : SpeculativeTree} {f : List TokenId → TokenId} {ctx expected : List TokenId}

-- The nodes of which every token below the root is what the target is expected to say at the parent:
-- not after the parent, but in the parent's own place. The last number counts the nodes on the way
-- that the target really verifies.
inductive Agreed (t : SpeculativeTree) (f : List TokenId → TokenId) (ctx : List TokenId) : Nat → Nat → Prop
  | root : Agreed t f ctx 0 1
  | verified : Agreed t f ctx p q → t.nodes[i]? = some { token := t.expectedAt f ctx p, parent := some p } →
      i ∈ t.leftmost → Agreed t f ctx i (q + 1)
  | beside : Agreed t f ctx p q → t.nodes[i]? = some { token := t.expectedAt f ctx p, parent := some p } →
      i ∉ t.leftmost → Agreed t f ctx i q

namespace Agreed

theorem lt (h : Agreed t f ctx i q) : i < t.nodes.length := by
  cases h
  case root          => exact t.length_pos
  case verified h _  => exact (List.getElem?_eq_some_iff.mp h).1
  case beside h _ _ => exact (List.getElem?_eq_some_iff.mp h).1

theorem child (h : Agreed t f ctx p q)
    (hi : t.nodes[i]? = some { token := t.expectedAt f ctx p, parent := some p }) : ∃ q, Agreed t f ctx i q := by
  by_cases hl : i ∈ t.leftmost
  case pos => exact ⟨_, h.verified hi hl⟩
  case neg => exact ⟨_, h.beside hi hl⟩

-- A node with a parent is only agreed on through its parent.
theorem of_child (h : Agreed t f ctx i q) (hi : t.nodes[i]? = some { token, parent := some p }) :
    (∃ q, Agreed t f ctx p q) ∧ token = t.expectedAt f ctx p := by
  cases h
  case root =>
    obtain ⟨_, hr⟩ := t.root
    cases hr.symm.trans hi
  case verified h hn _ => cases hn.symm.trans hi; exact ⟨⟨_, h⟩, rfl⟩
  case beside hn _ h   => cases hn.symm.trans hi; exact ⟨⟨_, h⟩, rfl⟩

theorem le_and_mem_iff (h : Agreed t f ctx i q) :
    q ≤ (t.getPath i).length ∧ (i ∈ t.leftmost ↔ q = (t.getPath i).length) := by
  induction h
  case root =>
    obtain ⟨_, hr⟩ := t.root
    simp [getPath_root hr, zero_mem_leftmost]
  case verified p q i _ hn hl hi =>
    have hp := leftmostFrom_parent hl (by rintro rfl; exact absurd (parent_lt_of_getElem? hn) (by omega)) hn
    have hq := hi.right.mp hp
    simp [getPath_child hn, hl, hq]
  case beside p q i _ hn hl hi =>
    simp only [getPath_child hn, length_append, length_singleton, hl, false_iff]
    omega

-- The path of an agreed node and what is expected there: the choices of the target, one place too early.
theorem shifted (h : Agreed t f ctx i q) (hr : t.nodes[0]? = some { token := first, parent := none }) :
    Shifted f ctx first 0 (t.getPath i).length q (t.getPath i ++ [t.expectedAt f ctx i]) := by
  refine ⟨by simp, h.le_and_mem_iff.left, ?_, fun k hk => ?_⟩
  case refine_1 =>
    induction h
    case root => simp [getPath_root hr]
    case verified hn _ hi => rw [getPath_child hn, getElem?_append_left (by simp), hi]
    case beside hn _ hi => rw [getPath_child hn, getElem?_append_left (by simp), hi]
  case refine_2 =>
    induction h
    case root =>
      simp only [getPath_root hr, length_singleton, Nat.lt_one_iff] at hk
      subst hk
      simp [getPath_root hr, expectedAt, zero_mem_leftmost]
    case verified p q i hp hn hl hi =>
      have hmem := (hp.verified hn hl).le_and_mem_iff.right.mp hl
      have hle := hp.le_and_mem_iff.left
      have hpath := getPath_child hn
      rw [hpath, length_append, length_singleton] at hk hmem
      rw [if_pos (by omega)]
      rcases Nat.lt_succ_iff_lt_or_eq.mp hk with hk | rfl
      case inl =>
        have hi := hi hk
        rw [if_pos (by omega)] at hi
        rw [hpath, getElem?_append_left (by simp; omega), hi, append_assoc,
          take_append_of_le_length hk.le, take_append_of_le_length hk.le]
      case inr =>
        rw [hpath, getElem?_append_right (by simp)]
        simp [expectedAt, hl, hpath]
    case beside p q i hp hn hl hi =>
      have hle := hp.le_and_mem_iff.left
      have hpath := getPath_child hn
      rw [hpath, length_append, length_singleton] at hk
      rcases Nat.lt_succ_iff_lt_or_eq.mp hk with hk | rfl
      case inl =>
        rw [hpath, getElem?_append_left (by simp; omega), hi hk, append_assoc,
          take_append_of_le_length hk.le, take_append_of_le_length hk.le]
      case inr =>
        rw [hpath, getElem?_append_right (by simp), if_neg (by omega)]
        simp [expectedAt, hl]

end Agreed

-- The last one of the agreed nodes below `m` that have the longest path.
structure Best (t : SpeculativeTree) (f : List TokenId → TokenId) (ctx : List TokenId) (m b q : Nat) : Prop where
  lt      : b < m
  agreed  : Agreed t f ctx b q
  longest : i < m → Agreed t f ctx i r → (t.getPath i).length ≤ (t.getPath b).length
  last    : i < m → Agreed t f ctx i r → (t.getPath i).length = (t.getPath b).length → i ≤ b

section Loops

variable (he : ∀ i < t.nodes.length, expected[i]? = some (t.expectedAt f ctx i))

include he in
theorem confirmed_iff_agreed : Confirmed t expected i ↔ ∃ q, Agreed t f ctx i q := by
  constructor
  case mp =>
    intro h
    induction h
    case root => exact ⟨1, .root⟩
    case child p i token h hnode hexp hi =>
      have ⟨_, ha⟩ := hi
      rw [he p h.lt] at hexp
      cases hexp
      exact ha.child hnode
  case mpr =>
    rintro ⟨_, h⟩
    induction h
    case root => exact .root
    case verified h hnode _ hi => exact hi.child hnode (he _ h.lt)
    case beside h hnode _ hi   => exact hi.child hnode (he _ h.lt)

include he in
theorem findBestPath_spec : ∃ b q, t.findBestPath ⟨expected⟩ = some (t.getPath b, some (t.expectedAt f ctx b)) ∧
    Best t f ctx t.nodes.length b q := by
  have hlen : t.nodes.length ≤ expected.length := by
    by_contra hlt
    have h := he expected.length (not_le.mp hlt)
    rw [getElem?_eq_none le_rfl] at h
    contradiction
  have ⟨b, hb, hbest⟩ := findBestPath_last hlen
  have ⟨q, ha⟩ := (confirmed_iff_agreed he).mp hbest.confirmed
  refine ⟨b, q, by rw [hb, he b ha.lt], ha.lt, ha, fun hi h => ?_, fun hi h hl => ?_⟩
  case refine_1 => exact hbest.longest hi ((confirmed_iff_agreed he).mpr ⟨_, h⟩)
  case refine_2 => exact hbest.last hi ((confirmed_iff_agreed he).mpr ⟨_, h⟩) hl

end Loops

theorem Best.eq (h : Best t f ctx m b q) (h' : Best t f ctx m b' q') : b = b' := by
  have hl := (h.longest h'.lt h'.agreed).antisymm (h'.longest h.lt h.agreed)
  exact (h'.last h.lt h.agreed hl.symm).antisymm (h.last h'.lt h'.agreed hl)

section Linear

variable {rest : List TokenId}

theorem ofLinear_concat : (ofLinear first (rest ++ [token])).nodes =
    (ofLinear first rest).nodes ++ [{ token, parent := some ((ofLinear first rest).nodes.length - 1) }] := by
  simp [ofLinear, foldl_append, addChild]

theorem ofLinear_length : (ofLinear first rest).nodes.length = rest.length + 1 := by
  induction rest using reverseRecOn
  case nil => rfl
  case append_singleton rest token hi => rw [ofLinear_concat, length_append, hi]; simp

theorem ofLinear_root : (ofLinear first rest).nodes[0]? = some { token := first, parent := none } := by
  induction rest using reverseRecOn
  case nil => rfl
  case append_singleton rest token hi =>
    rw [ofLinear_concat, getElem?_append_left (by rw [ofLinear_length]; omega), hi]

theorem ofLinear_child : (ofLinear first rest).nodes[i + 1]? = rest[i]?.map ({ token := ·, parent := some i }) := by
  induction rest using reverseRecOn
  case nil => simp [ofLinear, new]
  case append_singleton rest token hi =>
    rw [ofLinear_concat]
    rcases Nat.lt_trichotomy i rest.length with h | rfl | h
    case inl => rw [getElem?_append_left (by rw [ofLinear_length]; omega), hi, getElem?_append_left h]
    case inr.inl => simp [ofLinear_length]
    case inr.inr => rw [getElem?_eq_none (by simp [ofLinear_length]; omega), getElem?_eq_none (by simp; omega)]; rfl

theorem ofLinear_parent_iff (h : (ofLinear first rest).nodes[j]? = some node) : node.parent = some i ↔ j = i + 1 := by
  cases j
  case zero =>
    cases ofLinear_root.symm.trans h
    simp
  case succ j =>
    rw [ofLinear_child, Option.map_eq_some_iff] at h
    have ⟨_, _, hn⟩ := h
    simp [← hn]

-- The leftmost branch of a linear draft is all of it.
theorem ofLinear_leftmost (h : i ≤ rest.length) : i ∈ (ofLinear first rest).leftmost := by
  induction i
  case zero => exact zero_mem_leftmost
  case succ i hi =>
    refine leftmostFrom_closed length_pos (by omega) (hi (by omega)) ?_
    rw [findIdx?_eq_some_iff_getElem]
    have hlt : i + 1 < (ofLinear first rest).nodes.length := by rw [ofLinear_length]; omega
    refine ⟨hlt, ?_, fun j hj => ?_⟩
    case refine_1 => simpa using (ofLinear_parent_iff (getElem?_eq_getElem hlt)).mpr rfl
    case refine_2 => simpa [ofLinear_parent_iff (getElem?_eq_getElem (hj.trans hlt))] using hj.ne

theorem ofLinear_path (h : i ≤ rest.length) : (ofLinear first rest).getPath i = (first :: rest).take (i + 1) := by
  induction i
  case zero => simp [getPath_root ofLinear_root]
  case succ i hi =>
    rw [getPath_child (by rw [ofLinear_child, getElem?_eq_getElem h]; rfl), hi (by omega), take_succ_cons, take_succ_cons,
      take_add_one (i := i), getElem?_eq_getElem h]
    rfl

theorem ofLinear_expectedAt (h : i ≤ rest.length) :
    (ofLinear first rest).expectedAt f ctx i = f (ctx ++ (first :: rest).take i) := by
  rw [expectedAt, if_pos (ofLinear_leftmost h), ofLinear_path h, dropLast_eq_take, length_take, take_take]
  congr 3
  simp only [length_cons]
  omega

-- A node of a linear draft is agreed on as long as the draft is what the target says one place too early.
theorem ofLinear_agreed_iff : (∃ q, Agreed (ofLinear first rest) f ctx i q) ↔
    i ≤ commonPrefixLen rest (expectedAfter f ctx (first :: rest)) := by
  induction i
  case zero => simpa using ⟨1, Agreed.root⟩
  case succ i hi =>
    rw [succ_le_commonPrefixLen_iff, ← hi]
    constructor
    case mp =>
      rintro ⟨_, h⟩
      have hlt := h.lt
      rw [ofLinear_length] at hlt
      have hnode : (ofLinear first rest).nodes[i + 1]? = some { token := rest[i], parent := some i } := by
        rw [ofLinear_child, getElem?_eq_getElem (by omega), Option.map_some]
      obtain ⟨hp, he⟩ := h.of_child hnode
      refine ⟨hp, _, getElem?_eq_getElem (by omega), ?_⟩
      rw [he, ofLinear_expectedAt (by omega), expectedAfter_getElem? (by simp; omega)]
    case mpr =>
      rintro ⟨⟨_, h⟩, a, ha, he⟩
      obtain ⟨hlt, _⟩ := List.getElem?_eq_some_iff.mp ha
      rw [expectedAfter_getElem? (by simp; omega), Option.some.injEq] at he
      refine h.child ?_
      rw [ofLinear_child, ha, ofLinear_expectedAt hlt.le, he]
      rfl

theorem ofLinear_best (h : Best (ofLinear first rest) f ctx (ofLinear first rest).nodes.length b q) :
    b = commonPrefixLen rest (expectedAfter f ctx (first :: rest)) := by
  have hle := ofLinear_agreed_iff.mp ⟨q, h.agreed⟩
  have hrest := commonPrefixLen_le_left (l := rest) (r := expectedAfter f ctx (first :: rest))
  have ⟨_, ha⟩ := ofLinear_agreed_iff.mpr (Nat.le_refl (commonPrefixLen rest (expectedAfter f ctx (first :: rest))))
  have hlen := h.longest ha.lt ha
  rw [ofLinear_path hrest, ofLinear_path (hle.trans hrest), length_take, length_take, length_cons] at hlen
  omega

end Linear

section Lossless

variable {μ δ τ : Type} [DraftModel μ δ] [TargetModel μ τ]

-- `find_best_path` returns `out` for what the default `verify_tree` does.
def Speculates (ctx : List TokenId) (t : SpeculativeTree) (model : τ) (out : List TokenId) : Prop :=
  ∃ verified m model' path rejected, TargetModel.verifyTree ctx t none model = (.ok verified, m, model') ∧
    t.findBestPath verified = some (path, rejected) ∧ out = path ++ rejected.toList

-- `commit` hands on `out` for what `verify` does.
def Commits (s : SpeculativeSession) (predictions : List NextTokenPrediction) (model : τ) (out : List TokenId) : Prop :=
  ∃ verified m model' accepted s',
    TargetModel.verify s.context (predictions.map (·.token)) none model = (.ok verified, m, model') ∧
      s.commit predictions verified = (.ok accepted, s') ∧ out = s'.emitted accepted

-- The root is the target's next token, and the target goes on with that same token for each node of the best
-- path that it verifies, and then with the placeholder.
def Repeats (f : List TokenId → TokenId) (ctx : List TokenId) (t : SpeculativeTree) : Prop :=
  ∃ b q, Best t f ctx t.nodes.length b q ∧ t.nodes[0]?.map (·.token) = some (f ctx) ∧
    greedy f ctx ((t.getPath b).length + 1) = constantThen (f ctx) 0 (t.getPath b).length q

-- The draft starts with a run of the target's next token that ends within the draft, and the target goes on
-- with that token even after the run.
def RunEnds (f : List TokenId → TokenId) (ctx drafted : List TokenId) : Prop :=
  ∃ n, 0 < n ∧ n < drafted.length ∧ drafted.take n = replicate n (f ctx) ∧ drafted[n]? ≠ some (f ctx) ∧
    greedy f ctx (n + 1) = replicate (n + 1) (f ctx)

theorem speculates (hτ : TargetModel.VerifiesBy τ f) (ctx : List TokenId) (t : SpeculativeTree) (model : τ) :
    ∃ b q, Best t f ctx t.nodes.length b q ∧ Speculates ctx t model (t.getPath b ++ [t.expectedAt f ctx b]) := by
  have ⟨verified, m, model', hv, he⟩ := verifyTree_returns hτ ctx t model
  have ⟨b, q, hb, hbest⟩ := findBestPath_spec he
  exact ⟨b, q, hbest, verified, m, model', _, _, hv, hb, rfl⟩

theorem Best.follows_iff (h : Best t f ctx t.nodes.length b q) :
    Follows f ctx (t.getPath b ++ [t.expectedAt f ctx b]) ↔ Repeats f ctx t := by
  obtain ⟨_, hr⟩ := t.root
  constructor
  case mp =>
    intro hf
    obtain ⟨hfirst, hg⟩ := (h.agreed.shifted hr).follows_iff.mp hf
    exact ⟨b, q, h, by rw [hr, hfirst]; rfl, hg⟩
  case mpr =>
    rintro ⟨b', q', h', hfirst, hg⟩
    rw [hr] at hfirst
    rw [h.eq h']
    exact (h'.agreed.shifted hr).follows_iff.mpr ⟨Option.some.inj hfirst, hg⟩

theorem commits (hτ : TargetModel.VerifiesBy τ f) (s : SpeculativeSession) (predictions : List NextTokenPrediction)
    (model : τ) :
    let drafted := predictions.map (·.token)
    let k := commonPrefixLen drafted (expectedAfter f s.context drafted)
    Commits s predictions model
      (drafted.take k ++ (if k < drafted.length then [f (s.context ++ drafted.take k)] else [])) := by
  have ⟨verified, m, model', hv, hmap⟩ := hτ model s.context (predictions.map (·.token))
  have hlen : verified.length = predictions.length := by simpa using congrArg length hmap
  refine ⟨verified, m, model', _, _, hv, SpeculativeSession.commit_eq hlen, ?_⟩
  exact (SpeculativeSession.resolve_emitted (s := s.recordDrafted predictions.length) hmap).symm

section Run

variable {drafted : List TokenId} {n : Nat}

-- The target says the same token after every part of the run.
theorem run_choice (htake : drafted.take n = replicate n (f ctx)) (hg : greedy f ctx (n + 1) = replicate (n + 1) (f ctx))
    (hi : i ≤ n) : f (ctx ++ drafted.take i) = f ctx := by
  have hsplit : greedy f ctx (i + 1) = greedy f ctx i ++ greedy f (ctx ++ greedy f ctx i) 1 := greedy_add
  have htaken : drafted.take i = greedy f ctx i := by
    rw [← take_greedy (show i ≤ n + 1 by omega), hg, take_replicate, min_eq_left (by omega),
      ← min_eq_left hi, ← take_take, htake, take_replicate]
  rw [← take_greedy (show i + 1 ≤ n + 1 by omega), hg, take_replicate, min_eq_left (by omega), replicate_succ',
    greedy_one] at hsplit
  rw [htaken]
  exact (cons_eq_cons.mp (append_inj' hsplit rfl).right).left.symm

theorem run_expected (htake : drafted.take n = replicate n (f ctx)) (hlt : n < drafted.length)
    (hg : greedy f ctx (n + 1) = replicate (n + 1) (f ctx)) (hi : i ≤ n) :
    (expectedAfter f ctx drafted)[i]? = some (f ctx) := by
  rw [expectedAfter_getElem? (by omega), run_choice htake hg hi]

theorem run_take (htake : drafted.take n = replicate n (f ctx)) (hlt : n < drafted.length)
    (hg : greedy f ctx (n + 1) = replicate (n + 1) (f ctx)) (hi : i ≤ n) :
    (expectedAfter f ctx drafted).take i = replicate i (f ctx) := by
  refine ext_getElem? fun j => ?_
  rw [getElem?_take, getElem?_replicate]
  split
  case isTrue hj => exact run_expected htake hlt hg (by omega)
  case isFalse => rfl

end Run

-- For a linear draft, both ways of speculating emit the same tokens only after a run of one token.
theorem ofLinear_emits_iff (h : Best (ofLinear first rest) f ctx (ofLinear first rest).nodes.length b q) :
    let drafted := first :: rest
    let k := commonPrefixLen drafted (expectedAfter f ctx drafted)
    (ofLinear first rest).getPath b ++ [(ofLinear first rest).expectedAt f ctx b] =
        drafted.take k ++ (if k < drafted.length then [f (ctx ++ drafted.take k)] else []) ↔
      RunEnds f ctx drafted := by
  have hb := ofLinear_best h
  have hrest := commonPrefixLen_le_left (l := rest) (r := expectedAfter f ctx (first :: rest))
  have hd := commonPrefixLen_le_left (l := first :: rest) (r := expectedAfter f ctx (first :: rest))
  have hpath : (ofLinear first rest).getPath b = (first :: rest).take (b + 1) := ofLinear_path (hb ▸ hrest)
  have hexp : (ofLinear first rest).expectedAt f ctx b = f (ctx ++ (first :: rest).take b) := ofLinear_expectedAt (hb ▸ hrest)
  have hlen : ((ofLinear first rest).getPath b).length = b + 1 := by
    rw [hpath, length_take, length_cons]
    omega
  simp only
  constructor
  case mp =>
    intro heq
    have hl := congrArg length heq
    rw [length_append, hlen, length_singleton, length_append, length_take, min_eq_left hd] at hl
    -- If the target agreed with the whole draft, the tree would have gone on to the last node.
    have hlt : commonPrefixLen (first :: rest) (expectedAfter f ctx (first :: rest)) < (first :: rest).length := by
      refine Nat.lt_of_le_of_ne hd fun hall => ?_
      rw [hall, if_neg (by omega), append_nil, take_length] at heq
      rw [hall, if_neg (by omega), length_nil, length_cons] at hl
      have hlast := congrArg (·[b + 1]?) heq
      simp only [getElem?_append_right hlen.le, hlen, Nat.sub_self, getElem?_cons_zero, getElem?_cons_succ] at hlast
      refine getElem?_commonPrefixLen_ne (by omega) (by simp; omega) ((congrArg (rest[·]?) hb.symm).trans ?_)
      rw [← hlast, hexp, expectedAfter_getElem? (by simp; omega), hb]
    rw [if_pos hlt, length_singleton] at hl
    rw [if_pos hlt] at heq
    have hfollows : Follows f ctx ((first :: rest).take (commonPrefixLen (first :: rest) (expectedAfter f ctx (first :: rest)))) :=
      follows_take_commonPrefixLen
    have hq := h.agreed.le_and_mem_iff.right.mp (ofLinear_leftmost (hb ▸ hrest))
    have hg := ((h.agreed.shifted ofLinear_root).follows_iff.mp (heq ▸ hfollows.append .single)).right
    rw [hq, constantThen, Nat.sub_self, replicate_zero, append_nil, hlen, Nat.add_right_cancel hl] at hg
    rw [Follows, length_take, min_eq_left hd] at hfollows
    have hsplit := hg
    rw [greedy_add, ← hfollows, greedy_one, replicate_succ'] at hsplit
    obtain ⟨hrun, hnext⟩ := append_inj' hsplit rfl
    refine ⟨_, by omega, hlt, hrun, ?_, hg⟩
    rw [← (cons_eq_cons.mp hnext).left, ← expectedAfter_getElem? hlt]
    exact getElem?_commonPrefixLen_ne hlt (by simpa using hlt)
  case mpr =>
    rintro ⟨n, hn, hlt, htake, hne, hg⟩
    have hk : commonPrefixLen (first :: rest) (expectedAfter f ctx (first :: rest)) = n :=
      commonPrefixLen_eq_of_take_eq hlt.le (htake.trans (run_take htake hlt hg le_rfl).symm)
        (run_expected htake hlt hg le_rfl ▸ hne)
    obtain ⟨m, rfl⟩ := Nat.exists_eq_add_one_of_ne_zero hn.ne'
    have hj : commonPrefixLen rest (expectedAfter f ctx (first :: rest)) = m := by
      have hrun := run_take htake hlt hg (Nat.le_succ m)
      have hnext := run_expected htake hlt hg (Nat.le_succ m)
      rw [take_succ_cons, replicate_succ] at htake
      rw [length_cons] at hlt
      refine commonPrefixLen_eq_of_take_eq (by omega) ((cons_eq_cons.mp htake).right.trans hrun.symm) ?_
      rw [hnext]
      simpa using hne
    rw [hk, if_pos hlt, hpath, hexp, hb, hj, run_choice htake hg (Nat.le_succ m), run_choice htake hg le_rfl]

-- The tree drafts its own way: what it returns is a continuation of the target's only where the target repeats
-- itself, since every node is compared with what the target says one place too early.
theorem speculates_follows_iff (hτ : TargetModel.VerifiesBy τ f) :
    (∀ (ctx : List TokenId) (t : SpeculativeTree) (model : τ),
      ∃ out, Speculates ctx t model out ∧ (Follows f ctx out ↔ Repeats f ctx t)) ∧
    ∀ (s : SpeculativeSession) (maxTokens : Nat) (draft draft' : δ) (model : τ) (m : Option μ)
      (predictions : List NextTokenPrediction), predictions ≠ [] →
      DraftModel.draft s.context maxTokens none draft = (.ok predictions, m, draft') →
      ∃ t out out', DraftModel.draftTree s.context maxTokens none draft = (.ok t, m, draft') ∧
        Speculates s.context t model out ∧ Commits s predictions model out' ∧
        (out = out' ↔ RunEnds f s.context (predictions.map (·.token))) := by
  constructor
  case left =>
    intro ctx t model
    have ⟨b, q, hbest, hout⟩ := speculates hτ ctx t model
    exact ⟨_, hout, hbest.follows_iff⟩
  case right =>
    intro s maxTokens draft draft' model m predictions hne hdraft
    obtain ⟨p, ps, rfl⟩ := exists_cons_of_ne_nil hne
    have ⟨b, q, hbest, hout⟩ := speculates hτ s.context (.ofLinear p.token (ps.map (·.token))) model
    exact ⟨_, _, _, by simp [DraftModel.draftTree, hdraft], hout, commits hτ s _ model, ofLinear_emits_iff hbest⟩

theorem speculates_seven :
    let g : List TokenId → TokenId := fun context => if context.length < 4 then 7 else 8
    let s : SpeculativeSession := ⟨4, 8, [1, 2], [1, 2], {}, none⟩
    ∃ t out, DraftModel.draftTree [1, 2] 3 none (⟨⟩ : Guesser g) = (.ok t, none, ⟨⟩) ∧
      Speculates [1, 2] t (⟨0⟩ : Oracle fun _ => 7) out ∧
      Commits s [⟨7⟩, ⟨7⟩, ⟨8⟩] (⟨0⟩ : Oracle fun _ => 7) out := by
  have ⟨t, out, out', ht, hout, hcommits, hiff⟩ := (speculates_follows_iff Oracle.verifiesBy).right
    ⟨4, 8, [1, 2], [1, 2], {}, none⟩ 3 (⟨⟩ : Guesser fun context => if context.length < 4 then 7 else 8) ⟨⟩
    (⟨0⟩ : Oracle fun _ => 7) none [⟨7⟩, ⟨7⟩, ⟨8⟩] (by decide) rfl
  have hrun : RunEnds (fun _ => 7) [1, 2] [7, 7, 8] := ⟨2, by decide, by decide, rfl, by decide, rfl⟩
  exact ⟨t, out, ht, hout, hiff.mpr hrun ▸ hcommits⟩

-- The target goes on counting. The draft is what the target itself writes, and the tree stops at its root.
theorem exists_speculates_not_follows :
    let f : List TokenId → TokenId := fun context => .ofNat context.length
    let s : SpeculativeSession := ⟨4, 8, [0], [0], {}, none⟩
    (greedy f s.context 2 = [1, 2]) ∧
      ∃ t out out', DraftModel.draftTree s.context 2 none (⟨⟩ : Guesser f) = (.ok t, none, ⟨⟩) ∧
        Speculates s.context t (⟨0⟩ : Oracle f) out ∧ ¬ Follows f s.context out ∧
        Commits s [⟨1⟩, ⟨2⟩] (⟨0⟩ : Oracle f) out' ∧ Follows f s.context out' ∧ out ≠ out' := by
  refine ⟨rfl, .ofLinear 1 [2], [1, 1], [1, 2], rfl, ?_, by unfold Follows; decide, ?_,
    by unfold Follows; decide, by decide⟩
  case refine_1 => exact ⟨⟨[1, 2]⟩, none, ⟨1⟩, [1], some 1, rfl, by decide, rfl⟩
  case refine_2 => exact ⟨[⟨1⟩, ⟨2⟩], none, ⟨1⟩, [1, 2], _, rfl, rfl, rfl⟩

end Lossless
end SpeculativeTree
