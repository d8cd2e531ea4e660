import VeloCore.Objects.Speculative.Theorems.Tree

open List

namespace SpeculativeTree

-- The nodes whose tokens, and those of the nodes above them but for the root, are the expected tokens of the parents.
inductive Confirmed (t : SpeculativeTree) (expected : List TokenId) : Nat → Prop
  | root : Confirmed t expected 0
  | child : Confirmed t expected p → t.nodes[i]? = some { token, parent := some p } → expected[p]? = some token →
    Confirmed t expected i

-- The tokens on the way from the root down to a node.
inductive TokenPath (t : SpeculativeTree) : Nat → List TokenId → Prop
  | root : t.nodes[0]? = some { token, parent := none } → TokenPath t 0 [token]
  | child : TokenPath t p path → t.nodes[i]? = some { token, parent := some p } → TokenPath t i (path ++ [token])

variable {t : SpeculativeTree} {expected : List TokenId} {flags : List Bool} {path : List TokenId}

namespace TokenPath

theorem getPath (hi : i < t.nodes.length) : TokenPath t i (t.getPath i) := by
  induction i using Nat.strongRecOn
  case ind i hind =>
    have hnode := getElem?_eq_getElem hi
    rcases Nat.eq_zero_or_pos i with rfl | hpos
    case inl =>
      obtain ⟨_, hroot⟩ := t.root
      exact getPath_root hroot ▸ .root hroot
    case inr =>
      obtain ⟨p, hp, hparent⟩ := t.parent_lt hpos hnode
      have hchild : t.nodes[i]? = some { token := t.nodes[i].token, parent := some p } := by rw [hnode, ← hparent]
      exact getPath_child hchild ▸ .child (hind p hp (hp.trans hi)) hchild

theorem eq_getPath (h : TokenPath t i path) : path = t.getPath i := by
  induction h
  case root hroot       => exact (getPath_root hroot).symm
  case child hchild hi  => rw [getPath_child hchild, hi]

end TokenPath

namespace Confirmed

theorem lt (h : Confirmed t expected i) : i < t.nodes.length := by
  cases h
  case root         => exact t.length_pos
  case child h      => exact (List.getElem?_eq_some_iff.mp h).1

theorem child_iff (h : t.nodes[i]? = some { token, parent := some p }) :
    Confirmed t expected i ↔ Confirmed t expected p ∧ expected[p]? = some token := by
  refine ⟨fun hi => ?_, fun h' => h'.left.child h h'.right⟩
  cases hi
  case root =>
    obtain ⟨_, hr⟩ := t.root
    cases hr.symm.trans h
  case child hp he hi => cases hi.symm.trans h; exact ⟨hp, he⟩

end Confirmed

section Loops

variable (he : t.nodes.length ≤ expected.length)

include he in
-- One round of the first loop settles one node.
theorem validate_spec (hlen : flags.length = t.nodes.length) (hi : 0 < i) (hlt : i < t.nodes.length)
    (hflags : ∀ j < i, flags[j]? = some true ↔ Confirmed t expected j)
    (hrest : ∀ j, i ≤ j → j < t.nodes.length → flags[j]? = some false) :
    ∃ flags', t.validate expected flags i = some flags' ∧ flags'.length = t.nodes.length ∧
      (∀ j < i + 1, flags'[j]? = some true ↔ Confirmed t expected j) ∧
      ∀ j, i + 1 ≤ j → j < t.nodes.length → flags'[j]? = some false := by
  have hnode := getElem?_eq_getElem hlt
  set node := t.nodes[i] with hnd
  clear_value node
  obtain ⟨p, hp, hparent⟩ := t.parent_lt hi hnode
  obtain ⟨token, parent⟩ := node
  cases hparent
  have hflag := getElem?_eq_getElem (show p < flags.length by omega)
  have hexp := getElem?_eq_getElem (show p < expected.length by omega)
  have hsame : ∀ {j : Nat}, i + 1 ≤ j → j < t.nodes.length → (flags.set i true)[j]? = some false := fun hij hj => by
    rw [getElem?_set_ne (by omega), hrest _ (by omega) hj]
  simp only [validate, hnode, hflag, hexp, Option.bind_eq_bind, Option.bind_some, Option.pure_def]
  have hiff : Confirmed t expected i ↔ flags[p] = true ∧ token = expected[p] := by
    rw [Confirmed.child_iff hnode, ← hflags p hp, hflag, hexp, Option.some.injEq, Option.some.injEq, eq_comm (a := token)]
  by_cases hconfirmed : flags[p] = true ∧ token = expected[p]
  case pos =>
    rw [if_pos hconfirmed.left, if_pos hconfirmed.right]
    refine ⟨_, rfl, by simpa using hlen, fun j hj => ?_, fun j => hsame⟩
    rcases Nat.lt_succ_iff_lt_or_eq.mp hj with hj | rfl
    case inl => rw [getElem?_set_ne (by omega), hflags j hj]
    case inr => simpa [hiff, hlen, hlt] using hconfirmed
  case neg =>
    have hstay : (if flags[p] = true then (if token = expected[p] then some (flags.set i true) else some flags)
        else some flags) = some flags := by
      split
      case isFalse => rfl
      case isTrue h => rw [if_neg fun ht => hconfirmed ⟨h, ht⟩]
    refine ⟨flags, ?_, hlen, fun j hj => ?_, fun j hij hj => hrest j (by omega) hj⟩
    case refine_1 => rw [← hstay]; congr 1; split <;> rfl
    case refine_2 =>
      rcases Nat.lt_succ_iff_lt_or_eq.mp hj with hj | rfl
      case inl => exact hflags j hj
      case inr => simp [hiff, hconfirmed, hrest j le_rfl hlt]

include he in
theorem valid_spec : ∃ flags, t.valid expected = some flags ∧ ∀ i, flags[i]? = some true ↔ Confirmed t expected i := by
  have hpos := t.length_pos
  have hrounds : ∀ m ≤ t.nodes.length - 1, ∃ flags,
      (range' 1 m).foldlM (t.validate expected) ((replicate t.nodes.length false).set 0 true) = some flags ∧
        flags.length = t.nodes.length ∧ (∀ j < m + 1, flags[j]? = some true ↔ Confirmed t expected j) ∧
        ∀ j, m + 1 ≤ j → j < t.nodes.length → flags[j]? = some false := by
    intro m hm
    induction m
    case zero =>
      refine ⟨_, rfl, by simp, fun j hj => ?_, fun j hj hlt => ?_⟩
      case refine_1 =>
        obtain rfl : j = 0 := by omega
        simpa [hpos] using Confirmed.root
      case refine_2 => rw [getElem?_set_ne (by omega), getElem?_replicate_of_lt hlt]
    case succ m hi =>
      have ⟨flags, hf, hlen, hflags, hrest⟩ := hi (by omega)
      have ⟨flags', hv, h⟩ := validate_spec he hlen (Nat.succ_pos m) (by omega) hflags hrest
      refine ⟨flags', ?_, h⟩
      rw [range'_concat, foldlM_append, hf]
      simpa [Nat.add_comm 1] using hv
  have ⟨flags, hf, hlen, hflags, _⟩ := hrounds _ le_rfl
  refine ⟨flags, hf, fun i => ?_⟩
  rcases Nat.lt_or_ge i t.nodes.length with hi | hi
  case inl => exact hflags i (by omega)
  case inr =>
    rw [getElem?_eq_none (by omega)]
    simp only [reduceCtorEq, false_iff]
    exact fun h => absurd h.lt (by omega)

-- The last one of the confirmed nodes below `m` that have the longest path.
structure Longest (t : SpeculativeTree) (expected : List TokenId) (m b : Nat) : Prop where
  lt        : b < m
  confirmed : Confirmed t expected b
  longest   : i < m → Confirmed t expected i → (t.getPath i).length ≤ (t.getPath b).length
  last      : i < m → Confirmed t expected i → (t.getPath i).length = (t.getPath b).length → i ≤ b

-- The second loop compares with `>=`, so of two paths of one length it keeps the later one.
theorem improve_spec (hflags : ∀ i, flags[i]? = some true ↔ Confirmed t expected i) (hm : m < t.nodes.length) :
    ∃ b, (range (m + 1)).foldl (t.improve expected flags) ⟨[], none, 0⟩ =
      ⟨t.getPath b, expected[b]?, (t.getPath b).length⟩ ∧ Longest t expected (m + 1) b := by
  induction m
  case zero =>
    have h : flags[0]? = some true := (hflags 0).mpr .root
    refine ⟨0, ?_, ⟨Nat.one_pos, .root, fun hi _ => ?_, fun hi _ _ => by omega⟩⟩
    case refine_1 => simp [range_succ, improve, h]
    case refine_2 => rw [Nat.lt_one_iff.mp hi]
  case succ m hi =>
    have ⟨b, heq, hb⟩ := hi (by omega)
    have hkeep : (Confirmed t expected (m + 1) → (t.getPath (m + 1)).length < (t.getPath b).length) →
        Longest t expected (m + 1 + 1) b := fun hlt => by
      refine ⟨hb.lt.trans (Nat.lt_succ_self _), hb.confirmed, fun hi h => ?_, fun hi h hl => ?_⟩
      all_goals rcases Nat.lt_succ_iff_lt_or_eq.mp hi with hi | rfl
      case refine_1.inl => exact hb.longest hi h
      case refine_1.inr => exact (hlt h).le
      case refine_2.inl => exact hb.last hi h hl
      case refine_2.inr => exact absurd (hlt h) (by omega)
    rw [range_succ, foldl_append, heq, foldl_cons, foldl_nil, improve]
    split
    case isFalse hno => exact ⟨b, rfl, hkeep fun h => absurd ((hflags _).mpr h) hno⟩
    case isTrue hyes =>
      have h := (hflags _).mp hyes
      dsimp only
      split
      case isFalse hlt => exact ⟨b, rfl, hkeep fun _ => by omega⟩
      case isTrue hle =>
        refine ⟨m + 1, rfl, ⟨Nat.lt_succ_self _, h, fun hi h' => ?_, fun hi _ _ => by omega⟩⟩
        rcases Nat.lt_succ_iff_lt_or_eq.mp hi with hi | rfl
        case inl => exact (hb.longest hi h').trans hle
        case inr => exact le_rfl

include he in
theorem findBestPath_last : ∃ b, t.findBestPath ⟨expected⟩ = some (t.getPath b, expected[b]?) ∧
    Longest t expected t.nodes.length b := by
  have ⟨flags, hv, hflags⟩ := valid_spec he
  obtain ⟨n, hn⟩ := Nat.exists_eq_add_one_of_ne_zero t.length_pos.ne'
  have ⟨b, hfold, hb⟩ := improve_spec hflags (show n < t.nodes.length by omega)
  refine ⟨b, ?_, hn ▸ hb⟩
  simp [findBestPath, hv, hn, hfold]

end Loops

-- The path that is returned leads to a confirmed node, no confirmed node has a longer one, and with it comes what is
-- expected at that node.
theorem findBestPath_longest (t : SpeculativeTree) (verified : TreeVerifyResult)
    (h : verified.expected.length = t.nodes.length) :
    ∃ b path token, t.findBestPath verified = some (path, some token) ∧ verified.expected[b]? = some token ∧
      Confirmed t verified.expected b ∧ TokenPath t b path ∧
      ∀ i path', Confirmed t verified.expected i → TokenPath t i path' → path'.length ≤ path.length := by
  have ⟨b, hb, hlongest⟩ := findBestPath_last h.ge
  have hexp := getElem?_eq_getElem (show b < verified.expected.length from h ▸ hlongest.lt)
  refine ⟨b, _, _, hb.trans (by rw [hexp]), hexp, hlongest.confirmed, .getPath hlongest.lt, fun i path' hi hpath => ?_⟩
  rw [hpath.eq_getPath]
  exact hlongest.longest hi.lt hi

-- The second child of the root is the expected one.
theorem findBestPath_longest_fork :
    let t := ((new 10).addChild 0 20 (by decide)).addChild 0 30 (by decide)
    t.findBestPath ⟨[30, 5, 7]⟩ = some ([10, 30], some 7) ∧
    ∃ b path token, t.findBestPath ⟨[30, 5, 7]⟩ = some (path, some token) ∧ ([30, 5, 7] : List TokenId)[b]? = some token ∧
      Confirmed t [30, 5, 7] b ∧ TokenPath t b path ∧
      ∀ i path', Confirmed t [30, 5, 7] i → TokenPath t i path' → path'.length ≤ path.length :=
  ⟨by decide, findBestPath_longest _ ⟨[30, 5, 7]⟩ (by decide)⟩

end SpeculativeTree
