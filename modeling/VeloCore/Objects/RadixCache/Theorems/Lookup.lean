import VeloCore.Objects.RadixCache.Theorems.Insert

open List

namespace RadixCache

variable {c c' : RadixCache} {path : NodeId → List TokenId} {tokens rest edge : List TokenId}

-- Beyond the node where the walk stands there are nodes below the next child only.
theorem Rep.take_ne (r : Rep c path) (hi : (c.edge? i).isSome)
    (hp : path i = tokens.take m) (ht : tokens.drop m = first :: rest) (hmk : m < k)
    (h : ∀ j, c.child? i first = some j → ¬path j <+: tokens.take k) (hl : (c.edge? l).isSome) :
    path l ≠ tokens.take k := by
  intro hpl
  obtain ⟨k, rfl⟩ := Nat.exists_eq_add_of_lt hmk
  have hpath : path l = path i ++ first :: rest.take k := by
    rw [hpl, hp, Nat.add_assoc, take_add, ht, take_succ_cons]
  obtain ⟨j, hj, hpre⟩ := r.exists_child hi hl hpath
  exact h j hj (hpl ▸ hpre)

-- What the walk of `lookup` has found and touched when it has come to a cursor.
structure Walk (c : RadixCache) (path : NodeId → List TokenId) (tokens : List TokenId) (n : Nat) (v : Cursor)
    (c' : RadixCache) : Prop where
  edge      : c'.edge? = c.edge?
  child     : c'.child? = c.child?
  handle    : c'.handle? = c.handle?
  tick      : (c.edge? l).isSome → c'.tick? l = if path l <+: tokens.take v.matched then some n else c.tick? l
  capacity  : c'.capacityTokens = c.capacityTokens
  resident  : c'.residentTokens = c.residentTokens
  clock     : c'.clock = n
  isSome    : (c.edge? v.node).isSome
  matched   : v.matched ≤ tokens.length
  path      : path v.node = tokens.take v.matched
  best      : v.best = longestPrefixUpTo c.entries tokens v.matched

-- The walk is over: no node lies further on.
structure Walked (c : RadixCache) (path : NodeId → List TokenId) (tokens : List TokenId) (n : Nat)
    (best : Option (Nat × KvCacheHandle)) (c' : RadixCache) : Prop where
  edge      : c'.edge? = c.edge?
  child     : c'.child? = c.child?
  handle    : c'.handle? = c.handle?
  tick      : (c.edge? l).isSome → c'.tick? l = if path l <+: tokens then some n else c.tick? l
  capacity  : c'.capacityTokens = c.capacityTokens
  resident  : c'.residentTokens = c.residentTokens
  clock     : c'.clock = n
  best      : best = longestPrefix c.entries tokens

variable {n : Nat}

theorem Walk.walked (r : Rep c path) (w : Walk c path tokens n v c')
    (h : ∀ {l}, (c.edge? l).isSome → ∀ k, v.matched < k → k ≤ tokens.length → path l ≠ tokens.take k) :
    Walked c path tokens n v.best c' := by
  refine ⟨w.edge, w.child, w.handle, fun {l} hl => ?_, w.capacity, w.resident, w.clock, ?_⟩
  case refine_1 =>
    have hiff : path l <+: tokens ↔ path l <+: tokens.take v.matched := by
      refine ⟨fun hp => ?_, fun hp => hp.trans <| take_prefix ..⟩
      have htake := prefix_iff_eq_take.mp hp
      have hle : (path l).length ≤ v.matched := by
        by_contra hlt
        exact h hl _ (not_le.mp hlt) hp.length_le htake
      rw [htake]
      exact take_prefix_take_left hle
    rw [w.tick hl]
    simp only [hiff]
  case refine_2 =>
    refine w.best.trans (longestPrefixUpTo_skip w.matched fun k hlt hle => ?_).symm
    exact r.entries_eq_none fun l hl => h hl k hlt hle

-- The child that the walk goes on to.
theorem Walk.next (r : Rep c path) (w : Walk c path tokens n v c')
    (ht : tokens.drop v.matched = first :: rest) (hj : c.child? v.node first = some j)
    (he : c.edge? j = some edge) (hpre : edge <+: first :: rest) :
    Walk c path tokens n
      { node := j, matched := v.matched + edge.length,
        best := ((c.handle? j).map (v.matched + edge.length, ·)).or v.best }
      (touch j n c') := by
  obtain ⟨edge, he', hp⟩ := r.child hj
  obtain rfl := Option.some.inj (he.symm.trans he')
  have hjsome := r.edge?_isSome hj
  have htake : path j = tokens.take (v.matched + (first :: edge).length) := by
    rw [hp, w.path, take_add, ht]
    congr 1
    exact prefix_iff_eq_take.mp hpre
  have hreach : v.matched + (first :: edge).length ≤ tokens.length := by
    have hle := hpre.length_le
    rw [← ht, length_drop] at hle
    have := w.matched
    omega
  have hbeyond {l} (hl : (c.edge? l).isSome) (k : Nat) (hlt : v.matched < k)
      (hle : k < v.matched + (first :: edge).length) : path l ≠ tokens.take k := by
    refine r.take_ne w.isSome w.path ht hlt (fun j' hj' hpre' => ?_) hl
    cases hj.symm.trans hj'
    have := hpre'.length_le
    rw [htake, length_take, length_take] at this
    omega
  refine ⟨edge?_touch.trans w.edge, child?_touch.trans w.child, handle?_touch.trans w.handle, fun {l} hl => ?_,
    w.capacity, w.resident, w.clock, hjsome, hreach, htake, ?_⟩
  case refine_1 =>
    rw [tick?_touch (w.edge ▸ hjsome)]
    dsimp only
    rcases eq_or_ne l j with rfl | hlj
    case inl => rw [Function.update_self, if_pos (by rw [htake])]
    case inr =>
      have hiff : path l <+: tokens.take (v.matched + (first :: edge).length) ↔ path l <+: tokens.take v.matched := by
        refine ⟨fun hp => ?_, fun hp => hp.trans (take_prefix_take_left (Nat.le_add_right ..))⟩
        have hall := prefix_iff_eq_take.mp (hp.trans <| take_prefix ..)
        have hlen := hp.length_le
        rw [length_take, min_eq_left hreach] at hlen
        have hle : (path l).length ≤ v.matched := by
          by_contra hlt
          rcases Nat.lt_or_eq_of_le hlen with hshort | heq
          case inl => exact hbeyond hl _ (not_le.mp hlt) hshort hall
          case inr => exact hlj (r.injective hl hjsome (by rw [hall, heq, htake]))
        rw [hall]
        exact take_prefix_take_left hle
      rw [Function.update_of_ne hlj, w.tick hl]
      simp only [hiff]
  case refine_2 =>
    dsimp only
    rw [longestPrefixUpTo_jump (k := v.matched) (by simp), ← htake, r.entries_path hjsome, w.best]
    exact fun k hlt hle => r.entries_eq_none fun l hl => hbeyond hl k hlt hle

section Returns

variable {ε : Type}

theorem lookupStep_returns (r : Rep c path) (w : Walk c path tokens n v c') :
    Eff.Returns (lookupStep tokens n v : Eff _ ε _) c' fun res c'' =>
      Sum.elim
        (fun v' => Walk c path tokens n v' c'' ∧ tokens.length - v'.matched < tokens.length - v.matched)
        (fun best => Walked c path tokens n best c'') res := by
  rw [lookupStep]
  cases ht : tokens.drop v.matched
  case nil =>
    refine .pure (w.walked r fun _ k hlt hle => ?_)
    rw [drop_eq_nil_iff] at ht
    omega
  case cons first rest =>
    refine .bind <| nodeAt_returns (w.edge ▸ w.isSome) fun _ _ hc _ => ?_
    rw [← hc, w.child]
    cases hj : c.child? v.node first
    case none =>
      refine .pure (w.walked r fun hl k hlt _ => ?_)
      exact r.take_ne w.isSome w.path ht hlt (by simp [hj]) hl
    case some j =>
      refine .bind <| nodeAt_returns (w.edge ▸ r.edge?_isSome hj) fun child he _ hh => ?_
      rw [w.edge] at he
      rw [w.handle] at hh
      dsimp only
      split
      case isTrue hlt =>
        refine .pure (w.walked r fun hl k hmk hk => ?_)
        refine r.take_ne w.isSome w.path ht hmk (fun j' hj' hpre => ?_) hl
        obtain rfl := Option.some.inj (hj.symm.trans hj')
        obtain ⟨edge, he', hp⟩ := r.child hj
        rw [Option.some.inj (he.symm.trans he')] at hlt
        refine hlt.ne (commonPrefixLen_eq_length_iff.mpr ?_)
        have hpre := hpre.trans <| take_prefix ..
        rw [hp, w.path] at hpre
        conv at hpre => rhs; rw [← take_append_drop v.matched tokens, ht]
        exact (prefix_append_right_inj _).mp hpre
      case isFalse hlt =>
        have hall := le_antisymm commonPrefixLen_le_right (not_lt.mp hlt)
        refine .bind <| .modify <| .pure ?_
        rw [hall, ← hh]
        refine ⟨w.next r ht hj he (commonPrefixLen_eq_length_iff.mp hall), ?_⟩
        have hpos : 0 < child.edge.length := by
          obtain ⟨edge, he', -⟩ := r.child hj
          simp [Option.some.inj (he.symm.trans he')]
        have := congrArg length ht
        simp only [length_drop, length_cons] at this
        dsimp only
        omega

theorem lookup_walked (tokens : List TokenId) (r : Rep c path) :
    Eff.Returns (lookup tokens : Eff _ ε _) c fun res c' => ∃ best,
      Walked c path tokens c.tick.clock best c' ∧ res = ⟨(best.map (·.1)).getD 0, best.map (·.2)⟩ := by
  refine .bind <| .modify <| .bind <| .get <| .bind <| nodeAt_returns r.nonempty fun root _ _ hh => ?_
  refine .bind <| .modify <| .bind ?_
  have hwalk : Walk c path tokens c.tick.clock { node := 0, matched := 0, best := root.handle.map (0, ·) }
      (touch 0 c.tick.clock c.tick) := by
    refine ⟨by simp, by simp, by simp, fun {l} hl => ?_, rfl, rfl, rfl, r.nonempty, by simp, by simp [r.root], ?_⟩
    case refine_1 =>
      have hroot : path l <+: tokens.take 0 ↔ l = 0 := by
        rw [take_zero, prefix_nil]
        exact ⟨fun hp => r.injective hl r.nonempty (hp.trans r.root.symm), fun hl => hl ▸ r.root⟩
      rw [tick?_touch (show (c.tick.edge? 0).isSome from r.nonempty)]
      simp only [hroot, Function.update_apply]
      rfl
    case refine_2 =>
      rw [longestPrefixUpTo, ← r.root, r.entries_path r.nonempty, ← hh]
      rfl
  have hstep v c' (w : Walk c path tokens c.tick.clock v c') := lookupStep_returns (ε := ε) r w
  have hloop := Eff.Returns.loop (P := Walked c path tokens c.tick.clock) (V := fun v _ => tokens.length - v.matched)
    hstep hwalk (Nat.lt_succ_self _)
  exact hloop.mono fun best c' w => .pure ⟨best, w, rfl⟩

theorem lookup_returns (tokens : List TokenId) (r : Rep c path) :
    Eff.Returns (lookup tokens : Eff _ ε _) c fun res c' =>
      Rep c' path ∧ c'.entries = c.entries ∧ c'.capacityTokens = c.capacityTokens ∧
      c'.residentTokens = c.residentTokens ∧
      res.matchedTokens = ((longestPrefix c.entries tokens).map (·.1)).getD 0 ∧
      res.handle = (longestPrefix c.entries tokens).map (·.2) := by
  refine (lookup_walked tokens r).mono fun res c' => ?_
  rintro ⟨best, w, rfl⟩
  obtain ⟨r', he⟩ := r.same w.edge w.child w.handle
  exact ⟨r', he, w.capacity, w.resident, by rw [w.best], by rw [w.best]⟩

end Returns
end RadixCache
