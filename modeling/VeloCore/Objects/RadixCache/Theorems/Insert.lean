import VeloCore.Objects.RadixCache.Theorems.Rep

open List

namespace RadixCache

variable {c c' c'' : RadixCache} {path path' path'' : NodeId → List TokenId}

-- The arena has grown: no node got another path, another handle or another time of access, or lost a child, and the new
-- nodes have no handles.
structure Grown (c : RadixCache) (path : NodeId → List TokenId) (c' : RadixCache)
    (path' : NodeId → List TokenId) : Prop where
  rep       : Rep c' path'
  isSome    : (c.edge? i).isSome → (c'.edge? i).isSome
  path      : (c.edge? i).isSome → path' i = path i
  children  : (c.child? i t).isSome → (c'.child? i t).isSome
  handle    : c'.handle? = c.handle?
  tick      : (c.edge? i).isSome → c'.tick? i = c.tick? i
  capacity  : c'.capacityTokens = c.capacityTokens
  resident  : c'.residentTokens = c.residentTokens
  clock     : c'.clock = c.clock

namespace Grown

theorem refl (r : Rep c path) : Grown c path c path :=
  ⟨r, id, fun _ => rfl, id, rfl, fun _ => rfl, rfl, rfl, rfl⟩

theorem trans (g : Grown c path c' path') (g' : Grown c' path' c'' path'') :
    Grown c path c'' path'' where
  rep      := g'.rep
  isSome   := g'.isSome ∘ g.isSome
  path h   := (g'.path (g.isSome h)).trans (g.path h)
  children := g'.children ∘ g.children
  handle   := g'.handle.trans g.handle
  tick h   := (g'.tick (g.isSome h)).trans (g.tick h)
  capacity := g'.capacity.trans g.capacity
  resident := g'.resident.trans g.resident
  clock    := g'.clock.trans g.clock

theorem entries_eq (r : Rep c path) (g : Grown c path c' path') : c'.entries = c.entries := by
  refine funext fun key => Option.ext fun hd => ?_
  rw [r.entries_eq_some_iff, g.rep.entries_eq_some_iff, r.live_iff, g.rep.live_iff, g.handle]
  refine exists_congr fun i => and_congr_right fun h => ?_
  rw [g.path (edge?_isSome_of_handle? h)]

end Grown

variable {i j : NodeId} {t u : TokenId} {key rest rest' : List TokenId} {clock : Nat}

-- The arena with one node more, at a path that no node had before.
theorem Grown.of_fresh (r : Rep c path) (hfresh : ∀ k, (c.edge? k).isSome → path k ≠ key)
    (hsome : ∀ k, k ≠ c.nodes.length → ((c'.edge? k).isSome ↔ (c.edge? k).isSome))
    (hchild : ∀ {k u j}, c'.child? k u = some j → ∃ rest, c'.edge? j = some (u :: rest) ∧
      Function.update path c.nodes.length key j = Function.update path c.nodes.length key k ++ u :: rest)
    (hparent : ∀ {j}, 0 < j → (c'.edge? j).isSome → ∃ k u, c'.child? k u = some j)
    (hkeep : ∀ {k u}, (c.child? k u).isSome → (c'.child? k u).isSome)
    (hh : c'.handle? = c.handle?) (ht : ∀ {k}, k ≠ c.nodes.length → c'.tick? k = c.tick? k)
    (hc : c'.capacityTokens = c.capacityTokens) (hr : c'.residentTokens = c.residentTokens) (hk : c'.clock = c.clock) :
    Grown c path c' (Function.update path c.nodes.length key) := by
  have hn : ∀ {k}, (c.edge? k).isSome → k ≠ c.nodes.length := fun hk => (edge?_isSome_iff.mp hk).ne
  refine ⟨⟨?_, ?_, hchild, hparent, ?_, ?_⟩, ?_, ?_, hkeep, hh, fun h => ht (hn h), hc, hr, hk⟩
  case refine_1 => rw [Function.update_of_ne (hn r.nonempty), r.root]
  case refine_2 => exact (hsome 0 (hn r.nonempty)).mpr r.nonempty
  case refine_3 =>
    intro k j hk hj hkj
    rcases eq_or_ne k c.nodes.length with rfl | hkn <;> rcases eq_or_ne j c.nodes.length with rfl | hjn
    · rfl
    · rw [Function.update_of_ne hjn, Function.update_self] at hkj
      exact absurd hkj.symm (hfresh j ((hsome j hjn).mp hj))
    · rw [Function.update_of_ne hkn, Function.update_self] at hkj
      exact absurd hkj (hfresh k ((hsome k hkn).mp hk))
    · rw [Function.update_of_ne hkn, Function.update_of_ne hjn] at hkj
      exact r.injective ((hsome k hkn).mp hk) ((hsome j hjn).mp hj) hkj
  case refine_4 =>
    intro k hd hk
    rw [hh] at hk
    rw [Function.update_of_ne (hn (edge?_isSome_of_handle? hk))]
    exact r.handle hk
  case refine_5 => exact fun hk => (hsome _ (hn hk)).mpr hk
  case refine_6 => exact fun hk => Function.update_of_ne (hn hk) ..

section Leaf

-- The arena after a node was attached below `i` for the first time.
def leaf (c : RadixCache) (i : NodeId) (t : TokenId) (rest : List TokenId) (clock : Nat) :
    RadixCache :=
  setChild i t c.nodes.length (c.pushNode { edge := t :: rest, lastAccessTick := clock })

theorem leaf_edge? :
    (leaf c i t rest clock).edge? = Function.update c.edge? c.nodes.length (some (t :: rest)) := by
  simp [leaf, edge?_pushNode]

theorem leaf_child? (hi : (c.edge? i).isSome) (k : NodeId) (u : TokenId) :
    (leaf c i t rest clock).child? k u =
      if k = i ∧ u = t then some c.nodes.length else c.child? k u := by
  have hn := (edge?_isSome_iff.mp hi).ne
  rw [leaf, child?_setChild (by simp [edge?_pushNode, Function.update_of_ne hn, hi]), child?_pushNode]
  split
  case isTrue => rfl
  case isFalse =>
    split
    case isTrue h => simp [h, child?_length]
    case isFalse => rfl

theorem leaf_grown (r : Rep c path) (hi : (c.edge? i).isSome) (ht : c.child? i t = none) :
    Grown c path (leaf c i t rest clock)
      (Function.update path c.nodes.length (path i ++ t :: rest)) := by
  have hn : ∀ {k}, (c.edge? k).isSome → k ≠ c.nodes.length := fun hk => (edge?_isSome_iff.mp hk).ne
  refine .of_fresh r ?_ ?_ ?_ ?_ ?_ (by simp [leaf, handle?_pushNode]) (fun hk => ?_) rfl rfl rfl
  case refine_1 =>
    -- A node with that path would lie below a child of `i`.
    intro k hk hp
    obtain ⟨j, hj, -⟩ := r.exists_child hi hk hp
    simp [ht] at hj
  case refine_2 =>
    intro k hk
    rw [leaf_edge?, Function.update_of_ne hk]
  case refine_3 =>
    intro k u j hj
    rw [leaf_child? hi] at hj
    split at hj
    case isTrue h =>
      obtain ⟨rfl, rfl⟩ := h
      cases hj
      exact ⟨rest, by simp [leaf_edge?], by simp [Function.update_of_ne (hn hi)]⟩
    case isFalse =>
      have hk := hn (edge?_isSome_of_child? hj)
      have hj' := hn (r.edge?_isSome hj)
      rw [leaf_edge?, Function.update_of_ne hk, Function.update_of_ne hj', Function.update_of_ne hj']
      exact r.child hj
  case refine_4 =>
    intro j hpos hj
    rcases eq_or_ne j c.nodes.length with rfl | hjn
    case inl => exact ⟨i, t, by simp [leaf_child? hi]⟩
    case inr =>
      rw [leaf_edge?, Function.update_of_ne hjn] at hj
      obtain ⟨p, u, hu⟩ := r.parent hpos hj
      refine ⟨p, u, ?_⟩
      rw [leaf_child? hi, if_neg, hu]
      rintro ⟨rfl, rfl⟩
      simp [ht] at hu
  case refine_5 =>
    intro k u hk
    rw [leaf_child? hi]
    split
    case isTrue  => rfl
    case isFalse => exact hk
  case refine_6 => simp [leaf, tick?_pushNode, Function.update_of_ne hk]

end Leaf

section Split

-- The arena after the edge `t :: rest ++ u :: rest'` from `i` to `j` was split before `u`.
def split (c : RadixCache) (i j : NodeId) (t : TokenId) (rest : List TokenId) (u : TokenId)
    (rest' : List TokenId) (clock : Nat) : RadixCache :=
  setChild i t c.nodes.length <| pushNode
    { edge := t :: rest, children := Finmap.singleton u j, lastAccessTick := clock }
    (c.setEdge j (u :: rest'))

variable (hi : c.child? i t = some j) (hj : c.edge? j = some (t :: rest ++ u :: rest'))

theorem setEdge_length : (c.setEdge j e).nodes.length = c.nodes.length := by
  simp [setEdge, modifyNode]

include hj in
theorem split_edge? (k : NodeId) :
    (split c i j t rest u rest' clock).edge? k =
      if k = c.nodes.length then some (t :: rest)
      else if k = j then some (u :: rest') else c.edge? k := by
  rw [split, edge?_setChild, edge?_pushNode, edge?_setEdge (by simp [hj]), setEdge_length]
  simp only [Function.update_apply]

include hi hj in
theorem split_child? (k : NodeId) (v : TokenId) :
    (split c i j t rest u rest' clock).child? k v =
      if k = i ∧ v = t then some c.nodes.length
      else if k = c.nodes.length then (if v = u then some j else none) else c.child? k v := by
  have hi' := edge?_isSome_of_child? hi
  have hn := (edge?_isSome_iff.mp hi').ne
  have hs : ((pushNode { edge := t :: rest, children := Finmap.singleton u j, lastAccessTick := clock }
      (c.setEdge j (u :: rest'))).edge? i).isSome := by
    rw [edge?_pushNode, edge?_setEdge (by simp [hj]), setEdge_length, Function.update_of_ne hn]
    simp only [Function.update_apply]
    split
    case isTrue => rfl
    case isFalse => exact hi'
  rw [split, child?_setChild hs, child?_pushNode, child?_setEdge, setEdge_length]
  split
  case isTrue => rfl
  case isFalse =>
    split
    case isFalse => rfl
    case isTrue =>
      split
      case isTrue h  => exact h ▸ Finmap.lookup_singleton_eq
      case isFalse h => simp [Finmap.lookup_eq_none, h]

include hi hj in
theorem split_grown {n : Nat} (r : Rep c path) :
    Grown c path (split c i j t rest u rest' n)
      (Function.update path c.nodes.length (path i ++ t :: rest)) := by
  have hn : ∀ {k}, (c.edge? k).isSome → k ≠ c.nodes.length := fun hk => (edge?_isSome_iff.mp hk).ne
  have hisome := edge?_isSome_of_child? hi
  have hjsome := r.edge?_isSome hi
  obtain ⟨_, he, hpj⟩ := r.child hi
  obtain rfl : _ = rest ++ u :: rest' := by simpa [he] using hj
  refine .of_fresh r ?_ ?_ ?_ ?_ ?_ (by simp [split, handle?_pushNode]) (fun hk => ?_) rfl rfl rfl
  case refine_1 =>
    -- A node with that path would lie below `j`, whose path is longer.
    intro k hk hp
    obtain ⟨j', hj', hpre⟩ := r.exists_child hisome hk hp
    rw [hi] at hj'
    cases hj'
    have := hpre.length_le
    simp [hp, hpj] at this
  case refine_2 =>
    intro k hk
    rw [split_edge? hj, if_neg hk]
    split
    case isTrue h => simp [h, hjsome]
    case isFalse => rfl
  case refine_3 =>
    intro k v l hl
    rw [split_child? hi hj] at hl
    split at hl
    case isTrue h =>
      obtain ⟨rfl, rfl⟩ := h
      cases hl
      exact ⟨rest, by simp [split_edge? hj], by simp [Function.update_of_ne (hn hisome)]⟩
    case isFalse hki =>
      split at hl
      case isTrue hk =>
        split at hl
        case isTrue hv =>
          cases hl
          subst hk hv
          exact ⟨rest', by simp [split_edge? hj, hn hjsome], by simp [hn hjsome, hpj]⟩
        case isFalse => contradiction
      case isFalse hk =>
        have hl' := r.edge?_isSome hl
        obtain ⟨rest'', hr, hpl⟩ := r.child hl
        refine ⟨rest'', ?_, by rw [Function.update_of_ne (hn hl'), Function.update_of_ne hk, hpl]⟩
        rw [split_edge? hj, if_neg (hn hl'), if_neg, hr]
        -- The node `j` has no other parent.
        rintro rfl
        rw [he] at hr
        obtain ⟨rfl, rfl⟩ : t = v ∧ rest ++ u :: rest' = rest'' := by simpa using hr
        have hpk := append_cancel_right (hpl.symm.trans hpj)
        exact hki ⟨r.injective (edge?_isSome_of_child? hl) hisome hpk, rfl⟩
  case refine_4 =>
    intro l hpos hl
    rcases eq_or_ne l c.nodes.length with rfl | hln
    case inl => exact ⟨i, t, by simp [split_child? hi hj]⟩
    case inr =>
      rcases eq_or_ne l j with rfl | hlj
      case inl =>
        refine ⟨c.nodes.length, u, ?_⟩
        rw [split_child? hi hj, if_neg (fun h => hn hisome h.left.symm)]
        simp
      case inr =>
        rw [split_edge? hj, if_neg hln, if_neg hlj] at hl
        obtain ⟨p, v, hv⟩ := r.parent hpos hl
        refine ⟨p, v, ?_⟩
        rw [split_child? hi hj, if_neg, if_neg (hn (edge?_isSome_of_child? hv)), hv]
        rintro ⟨rfl, rfl⟩
        rw [hi] at hv
        exact hlj (Option.some.inj hv).symm
  case refine_5 =>
    intro k v hk
    rw [split_child? hi hj, if_neg (hn (edge?_isSome_of_child? (Option.isSome_iff_exists.mp hk).choose_spec))]
    split
    case isTrue  => rfl
    case isFalse => exact hk
  case refine_6 => simp [split, tick?_pushNode, setEdge_length, Function.update_of_ne hk]

end Split

section Returns

variable {ε : Type} {tokens : List TokenId} {fuel : Nat}

theorem nodeAt_returns {Q : Node → RadixCache → Prop} (hi : (c.edge? i).isSome)
    (h : ∀ node, c.edge? i = some node.edge → (∀ t, c.child? i t = node.children.lookup t) →
      c.handle? i = node.handle → Q node c) :
    Eff.Returns (nodeAt i : Eff _ ε _) c Q := by
  obtain ⟨_, he⟩ := Option.isSome_iff_exists.mp hi
  obtain ⟨node, hnode, -⟩ := Option.map_eq_some_iff.mp he
  exact .bind <| .get <| .index hnode <|
    h node (by simp [edge?, hnode]) (by simp [child?, hnode]) (by simp [handle?, hnode])

theorem splitChild_returns {Q : NodeId → RadixCache → Prop} (hj : c.edge? j = some (t :: rest ++ u :: rest'))
    (h : Q c.nodes.length (split c i j t rest u rest' c.clock)) :
    Eff.Returns (splitChild i j (t :: rest).length : Eff _ ε _) c Q := by
  refine .bind <| nodeAt_returns (by simp [hj]) fun ⟨edge, _, _, _⟩ he _ _ => ?_
  obtain rfl : _ = edge := Option.some.inj (hj.symm.trans he)
  have hs : (t :: rest ++ u :: rest').drop (t :: rest).length = u :: rest' := drop_left
  have hp : (t :: rest ++ u :: rest').take (t :: rest).length = t :: rest := take_left
  refine .bind <| .index (a := t) rfl <| .bind <| .modify <| .bind <| .index (a := u) (by rw [hs]; rfl) <|
    .bind <| .get <| .bind <| .get <| .bind <| .modify <| .bind <| .modify <| .pure ?_
  rw [hs, hp, setEdge_length]
  exact h

-- What `insert_from` has done when it ends in a node: that node has the wanted path, and every other new node is there
-- because paths part at it.
structure Planted (c : RadixCache) (path : NodeId → List TokenId) (i : NodeId) (tokens : List TokenId) (leaf : NodeId)
    (c' : RadixCache) (path' : NodeId → List TokenId) : Prop where
  grown  : Grown c path c' path'
  isSome : (c'.edge? leaf).isSome
  path   : path' leaf = path i ++ tokens
  child  : ∀ first ∈ tokens.head?, (c'.child? i first).isSome
  fresh  : (c'.edge? k).isSome → c.edge? k = none → k ≠ leaf → c'.Branching k

theorem insertFrom_returns (r : Rep c path) (hi : (c.edge? i).isSome) (hf : tokens.length < fuel) :
    Eff.Returns (insertFrom fuel i tokens : Eff _ ε _) c fun leaf c' =>
      ∃ path', Planted c path i tokens leaf c' path' := by
  induction fuel generalizing c path i tokens
  case zero => omega
  case succ fuel hind =>
    cases tokens
    case nil => exact .pure ⟨path, .refl r, hi, by simp, nofun, fun h hn => by simp [hn] at h⟩
    case cons first rest =>
      rw [insertFrom]
      refine .bind <| nodeAt_returns hi fun parent _ hc _ => ?_
      rw [← hc]
      cases hj : c.child? i first
      case none =>
        refine .bind <| .get <| .bind <| .get <| .bind <| .modify <| .bind <| .modify <| .pure ?_
        change ∃ path', Planted c path i (first :: rest) c.nodes.length (leaf c i first rest c.clock) path'
        refine ⟨_, leaf_grown r hi hj, by simp [leaf_edge?], by simp, fun _ ht => ?_, fun hk hn hne => ?_⟩
        case refine_1 => cases ht; simp [leaf_child? hi]
        case refine_2 => rw [leaf_edge?, Function.update_of_ne hne, hn] at hk; contradiction
      case some j =>
        obtain ⟨edge, he, hpj⟩ := r.child hj
        refine .bind <| nodeAt_returns (r.edge?_isSome hj) fun child hce _ _ => ?_
        dsimp only
        rw [← Option.some.inj (he.symm.trans hce)]
        have htake := take_commonPrefixLen (l := first :: rest) (r := first :: edge)
        have hpos : 0 < commonPrefixLen (first :: rest) (first :: edge) := commonPrefixLen_pos rfl
        have hle := commonPrefixLen_le_right (l := first :: rest) (r := first :: edge)
        have hle' := commonPrefixLen_le_left (l := first :: rest) (r := first :: edge)
        have hpart := getElem?_commonPrefixLen_ne (l := first :: rest) (r := first :: edge)
        have hdrop : (first :: edge).take (commonPrefixLen (first :: rest) (first :: edge)) ++
            (first :: rest).drop (commonPrefixLen (first :: rest) (first :: edge)) = first :: rest := by
          rw [← htake, take_append_drop]
        generalize commonPrefixLen (first :: rest) (first :: edge) = common at *
        have hstay {k} (hk : k ∈ (first :: rest).head?) : (c.child? i k).isSome := by cases hk; simp [hj]
        split
        case isTrue hcommon =>
          refine (hind r (r.edge?_isSome hj) (by simp at hf hpos ⊢; omega)).mono ?_
          rintro leaf c' ⟨path', g⟩
          have hp := g.path
          rw [hcommon, take_length] at hdrop
          rw [hpj, append_assoc, hcommon, hdrop] at hp
          exact ⟨path', g.grown, g.isSome, hp, fun _ ht => g.grown.children (hstay ht), g.fresh⟩
        case isFalse hcommon =>
          obtain ⟨common, rfl⟩ := Nat.exists_eq_add_one_of_ne_zero hpos.ne'
          obtain ⟨u, rest', hu⟩ := exists_cons_of_length_pos
            (l := (first :: edge).drop (common + 1)) (by simp at hle hcommon ⊢; omega)
          have hsplit : first :: edge.take common ++ u :: rest' = first :: edge := by
            rw [← hu, ← take_succ_cons, take_append_drop]
          have hlen : (first :: edge.take common).length = common + 1 := by
            simp at hle ⊢; omega
          rw [← hsplit] at he
          refine .bind ?_
          rw [← hlen]
          refine splitChild_returns he ?_
          have g := split_grown hj he r (n := c.clock)
          have hnew : ((split c i j first (edge.take common) u rest' c.clock).edge? c.nodes.length).isSome := by
            simp [split_edge? he]
          have hfirst {t} (ht : t ∈ (first :: rest).head?) :
              ((split c i j first (edge.take common) u rest' c.clock).child? i t).isSome := g.children (hstay ht)
          have hback : ((split c i j first (edge.take common) u rest' c.clock).child? c.nodes.length u).isSome := by
            rw [split_child? hj he, if_neg (fun h => (edge?_isSome_iff.mp hi).ne h.left.symm)]
            simp
          have hold {k} (hk : ((split c i j first (edge.take common) u rest' c.clock).edge? k).isSome)
              (hn : c.edge? k = none) : k = c.nodes.length := by
            rw [split_edge? he] at hk
            by_contra hne
            rw [if_neg hne] at hk
            split at hk
            case isTrue hkj  => rw [hkj, he] at hn; contradiction
            case isFalse     => rw [hn] at hk; contradiction
          rw [hlen]
          split
          case isTrue hall =>
            refine .pure ⟨_, g, hnew, ?_, fun _ ht => hfirst ht, fun hk hn hne => absurd (hold hk hn) hne⟩
            have hnil : (first :: rest).drop (common + 1) = [] := by rw [hall, drop_length]
            rw [hnil, append_nil, take_succ_cons] at hdrop
            rw [Function.update_self, hdrop]
          case isFalse hall =>
            refine (hind g.rep hnew (by simp at hf ⊢; omega)).mono ?_
            rintro leaf c' ⟨path', g'⟩
            refine ⟨path', g.trans g'.grown, g'.isSome, ?_, fun _ ht => g'.grown.children (hfirst ht), fun {k} hk hn hne => ?_⟩
            case refine_1 => rw [g'.path, Function.update_self, append_assoc, ← take_succ_cons, hdrop]
            case refine_2 =>
              by_cases hks : ((split c i j first (edge.take common) u rest' c.clock).edge? k).isSome
              case neg => exact g'.fresh hk (Option.not_isSome_iff_eq_none.mp hks) hne
              case pos =>
                -- The paths part at the node that was split off.
                obtain rfl := hold hks hn
                have hlt : common + 1 < (first :: rest).length := lt_of_le_of_ne hle' hall
                have hlt' : common + 1 < (first :: edge).length := lt_of_le_of_ne hle hcommon
                refine ⟨_, u, ?_, g'.child (first :: rest)[common + 1] ?_, g'.grown.children hback⟩
                case refine_1 =>
                  have hgo : (first :: edge)[common + 1]? = some u := by
                    rw [← head?_drop, hu]
                    rfl
                  have hpart := hpart hlt hlt'
                  rw [hgo, getElem?_eq_getElem hlt] at hpart
                  exact fun h => hpart (congrArg some h)
                case refine_2 => rw [head?_drop, getElem?_eq_getElem hlt]; rfl

-- The state of an insertion before its eviction step: the arena has grown for the key, and the node of the key has
-- been given the handle and the time of access.
theorem place_planted {hd : KvCacheHandle} (r : Rep c path) (hlen : tokens.length = hd.tokenLen) :
    Eff.Returns (place tokens hd : Eff _ ε _) c fun replaced c' => ∃ leaf c₁ path',
      Planted (touch 0 c.tick.clock c.tick) path 0 tokens leaf c₁ path' ∧ replaced = c.entries tokens ∧
      c₁.handle? leaf = replaced ∧
      c' = account replaced hd (touch leaf c.tick.clock (c₁.setHandle leaf (some hd))) ∧ Rep c' path' ∧
      c'.entries = Function.update c.entries tokens (some hd) := by
  refine .bind <| .modify <| .bind <| .get <| .bind <| .modify <| .bind ?_
  obtain ⟨r₁, he₁⟩ := r.same (d := touch 0 c.tick.clock c.tick) (by simp) (by simp) (by simp)
  refine (insertFrom_returns r₁ r₁.nonempty (Nat.lt_succ_self _)).mono fun leaf c₂ => ?_
  rintro ⟨path₂, g⟩
  have hp := g.path
  have hleaf := g.isSome
  rw [r.root, nil_append] at hp
  have he₂ : c₂.entries = c.entries := (g.grown.entries_eq r₁).trans he₁
  refine .bind <| nodeAt_returns hleaf fun node _ _ hh => ?_
  have hreplaced : c₂.handle? leaf = c.entries tokens := by rw [← g.grown.rep.entries_path hleaf, hp, he₂]
  rw [← hh, hreplaced]
  refine .bind <| .modify <| .bind <| .modify <| .bind <| .modify <| .pure ?_
  obtain ⟨r₃, he₃⟩ := g.grown.rep.setHandle hleaf (o := some hd) (by rintro _ ⟨⟩; rw [hp, hlen])
  obtain ⟨r₄, he₄⟩ := r₃.same
    (d := account (c.entries tokens) hd (touch leaf c.tick.clock (c₂.setHandle leaf (some hd))))
    edge?_touch child?_touch handle?_touch
  exact ⟨leaf, c₂, path₂, g, rfl, hreplaced, rfl, r₄, by rw [he₄, he₃, hp, he₂]⟩

-- Before its eviction step, `insert` sets one key and returns what it held before.
theorem place_returns {hd : KvCacheHandle} (r : Rep c path) (hlen : tokens.length = hd.tokenLen) :
    Eff.Returns (place tokens hd : Eff _ ε _) c fun replaced c' =>
      (∃ path', Rep c' path') ∧ replaced = c.entries tokens ∧
      c'.entries = Function.update c.entries tokens (some hd) ∧
      c'.capacityTokens = c.capacityTokens ∧
      c'.residentTokens =
        c.residentTokens - (replaced.map (·.tokenLen)).getD 0 + hd.tokenLen := by
  refine (place_planted r hlen).mono fun replaced c' => ?_
  rintro ⟨leaf, c₁, path', g, hr, _, rfl, r', he⟩
  refine ⟨⟨path', r'⟩, hr, he, g.grown.capacity, ?_⟩
  change c₁.residentTokens - _ + _ = _
  rw [g.grown.resident]
  rfl

end Returns
end RadixCache
