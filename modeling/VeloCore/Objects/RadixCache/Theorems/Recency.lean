import VeloCore.Objects.RadixCache.Theorems.Accounts

open List

namespace RadixCache

namespace Op

-- The call inserts the key, or looks up tokens on whose way the node of the key lies.
def Uses (key : List TokenId) : Op → Bool
  | insert tokens _ _ => tokens = key
  | lookup tokens     => key <+: tokens
  | evictColdest _ | setCapacityTokens _ => false

-- Every insertion touches the root as well.
def Touches (key : List TokenId) : Op → Bool
  | insert tokens _ _ => tokens = key ∨ key = []
  | op                => op.Uses key

def ticks : Op → Bool
  | insert _ _ _ | lookup _ => true
  | evictColdest _ | setCapacityTokens _ => false

theorem ticks_of_touches {op : Op} (h : op.Touches key) : op.ticks := by
  cases op
  case insert            => rfl
  case lookup            => rfl
  case evictColdest      => contradiction
  case setCapacityTokens => contradiction

end Op

-- The number of the last call that used the key, counted from one
def lastUse (uses : List TokenId → Op → Bool) (ops : List Op) (key : List TokenId) : Nat :=
  match ops.reverse.findIdx? (uses key) with
  | some i => ops.length - i
  | none   => 0

-- The clock after some calls
def time (ops : List Op) : Nat :=
  1 + ops.countP Op.ticks

-- The clock when the entry of the key was touched last
def stamp (ops : List Op) (key : List TokenId) : Nat :=
  time (ops.take (lastUse Op.Touches ops key))

section Uses

variable {uses : List TokenId → Op → Bool} {ops : List Op} {op : Op} {key a b : List TokenId}

theorem lastUse_concat : lastUse uses (ops ++ [op]) key = if uses key op then ops.length + 1 else lastUse uses ops key := by
  rw [lastUse, lastUse, reverse_append, reverse_singleton, singleton_append, findIdx?_cons, length_append, length_singleton]
  split
  case h_1 i h =>
    split at h
    case isTrue hu => cases h; rw [if_pos hu]; rfl
    case isFalse hu =>
      rw [if_neg hu]
      have ⟨k, hk, hi⟩ := Option.map_eq_some_iff.mp h
      rw [hk, ← hi]
      dsimp only
      omega
  case h_2 h =>
    split at h
    case isTrue        => contradiction
    case isFalse hu    => rw [if_neg hu, Option.map_eq_none_iff.mp h]

theorem lastUse_le : lastUse uses ops key ≤ ops.length := by
  unfold lastUse
  split <;> omega

theorem time_concat : time (ops ++ [op]) = time ops + if op.ticks then 1 else 0 := by
  rw [time, time, countP_append, countP_singleton, Nat.add_assoc]

theorem time_le : time ops ≤ 1 + ops.length :=
  Nat.add_le_add_left countP_le_length 1

theorem stamp_concat : stamp (ops ++ [op]) key = if op.Touches key then time (ops ++ [op]) else stamp ops key := by
  rw [stamp, lastUse_concat]
  split
  case isTrue  => rw [take_of_length_le (by simp)]
  case isFalse => rw [take_append_of_le_length lastUse_le, stamp]

theorem stamp_le : stamp ops key ≤ time ops :=
  Nat.add_le_add_left ((take_sublist _ ops).countP_le) 1

-- What was used later was touched later.
theorem stamp_lt (h : lastUse Op.Touches ops a < lastUse Op.Touches ops b) : stamp ops a < stamp ops b := by
  induction ops using reverseRecOn
  case nil => simp [lastUse] at h
  case append_singleton ops op hi =>
    rw [lastUse_concat, lastUse_concat] at h
    rw [stamp_concat, stamp_concat]
    have hle : lastUse Op.Touches ops b ≤ ops.length := lastUse_le
    by_cases ha : op.Touches a
    case pos => rw [if_pos ha] at h; split at h <;> omega
    case neg =>
      rw [if_neg ha] at h ⊢
      by_cases hb : op.Touches b
      case neg => rw [if_neg hb] at h ⊢; exact hi h
      case pos =>
        have hstamp : stamp ops a ≤ time ops := stamp_le
        rw [if_pos hb, time_concat, if_pos (Op.ticks_of_touches hb)]
        omega

end Uses

variable {c c' : RadixCache} {path : NodeId → List TokenId} {ops : List Op}

-- The entries carry the times of their last uses.
structure Timed (ops : List Op) (c : RadixCache) (path : NodeId → List TokenId) : Prop where
  clock : c.clock = time ops
  tick  : c.handle? i = some hd → c.tick? i = some (stamp ops (path i))

theorem start_timed (capacity : Option Nat) : Timed [] (start capacity) path := by
  have hnone {i} : (start capacity).handle? i = none := by cases capacity <;> exact handle?_new
  refine ⟨?_, fun h => ?_⟩
  case refine_1 => cases capacity <;> rfl
  case refine_2 => rw [hnone] at h; contradiction

namespace Timed

theorem tick_clock (h : Timed ops c path) (hlen : ops.length + 1 < 2 ^ 64 - 2) (hop : op.ticks) :
    c.tick.clock = time (ops ++ [op]) := by
  have hle : time ops ≤ 1 + ops.length := time_le
  rw [time_concat, if_pos hop, RadixCache.tick, h.clock]
  dsimp only
  omega

theorem still (h : Timed ops c path) (hop : ¬op.ticks) (hc : c'.clock = c.clock) (hh : c'.handle? = c.handle?)
    (ht : c'.tick? = c.tick?) : Timed (ops ++ [op]) c' path where
  clock := by rw [hc, h.clock, time_concat, if_neg hop, Nat.add_zero]
  tick hi := by
    rw [ht, stamp_concat, if_neg fun htouch => hop (Op.ticks_of_touches htouch)]
    exact h.tick (hh ▸ hi)

theorem lookup {n : Nat} (h : Timed ops c path) {tokens : List TokenId} (w : Walked c path tokens n best c')
    (hn : n = time (ops ++ [.lookup tokens])) : Timed (ops ++ [.lookup tokens]) c' path where
  clock := w.clock.trans hn
  tick {i hd} hi := by
    rw [w.handle] at hi
    have htouch : (Op.lookup tokens).Touches (path i) = decide (path i <+: tokens) := rfl
    rw [w.tick (edge?_isSome_of_handle? hi), stamp_concat, hn, htouch, h.tick hi]
    by_cases hpre : path i <+: tokens <;> simp [hpre]

theorem insert (h : Timed ops c path) (r : Rep c path) {tokens : List TokenId} {hd : KvCacheHandle} {leaf : NodeId}
    {hl : tokens.length = hd.tokenLen} (hn : c.tick.clock = time (ops ++ [.insert tokens hd hl]))
    (g : Planted (touch 0 c.tick.clock c.tick) path 0 tokens leaf c₁ path') :
    Timed (ops ++ [.insert tokens hd hl]) (account o hd (touch leaf c.tick.clock (c₁.setHandle leaf (some hd)))) path' where
  clock := g.grown.clock.trans hn
  tick {i hd'} hi := by
    have hleaf : ((c₁.setHandle leaf (some hd)).edge? leaf).isSome := by simpa using g.isSome
    have hi : Function.update c₁.handle? leaf (some hd) i = some hd' := by
      rw [← handle?_setHandle g.isSome]
      exact (congrFun handle?_touch i).symm.trans hi
    have ht : (account o hd (touch leaf c.tick.clock (c₁.setHandle leaf (some hd)))).tick? i =
        Function.update c₁.tick? leaf (some c.tick.clock) i := by
      have hset : (c₁.setHandle leaf (some hd)).tick? = c₁.tick? := tick?_setHandle
      rw [← hset, ← tick?_touch hleaf]
      rfl
    have hroot : path' leaf = tokens := by rw [g.path, r.root, nil_append]
    have htouch : (Op.insert tokens hd hl).Touches (path' i) = decide (tokens = path' i ∨ path' i = []) := rfl
    rw [ht, stamp_concat, ← hn, htouch]
    rcases eq_or_ne i leaf with rfl | hne
    case inl => simp [hroot]
    case inr =>
      rw [Function.update_of_ne hne, g.grown.handle, handle?_touch] at hi
      have hsome : (c.edge? i).isSome := edge?_isSome_of_handle? hi
      have hsome' : ((touch 0 c.tick.clock c.tick).edge? i).isSome := by simpa using hsome
      have hother : path' i ≠ tokens := fun heq =>
        hne (g.grown.rep.injective (g.grown.isSome hsome') g.isSome (heq.trans hroot.symm))
      rw [Function.update_of_ne hne, g.grown.tick hsome', tick?_touch (show (c.tick.edge? 0).isSome from r.nonempty)]
      rw [g.grown.path hsome'] at hother ⊢
      rcases eq_or_ne i 0 with rfl | hi0
      case inl => simp [r.root]
      case inr =>
        have hnil : path i ≠ [] := fun hp => hi0 (r.injective hsome r.nonempty (hp.trans r.root.symm))
        simp only [Function.update_of_ne hi0, hnil, or_false, Ne.symm hother, decide_false, Bool.false_eq_true, if_false]
        exact h.tick hi

theorem prepare (h : Timed ops c path) (r : Rep c path) (op : Op) (hlen : ops.length + 1 < 2 ^ 64 - 2) :
    ∃ path', Rep (op.prepare c) path' ∧ Timed (ops ++ [op]) (op.prepare c) path' := by
  cases op
  case insert tokens hd hl =>
    have ⟨leaf, c₁, path', g, _, hprepare, r', _⟩ := Op.prepare_insert r hl
    exact ⟨path', r', hprepare ▸ h.insert r (h.tick_clock hlen rfl) g⟩
  case lookup tokens =>
    have ⟨_, w⟩ := Op.prepare_lookup r tokens
    exact ⟨path, (r.same w.edge w.child w.handle).left, h.lookup w (h.tick_clock hlen rfl)⟩
  case evictColdest => exact ⟨path, r, h.still nofun rfl rfl rfl⟩
  case setCapacityTokens n =>
    exact ⟨path, (r.same (d := { c with capacityTokens := n }) rfl rfl rfl).left, h.still nofun rfl rfl rfl⟩

theorem dropHandle (h : Timed ops c path) (hi : c.handle? i = some hd) : Timed ops (c.dropHandle i hd) path where
  clock := h.clock
  tick {k hd'} hk := by
    have ht : (c.dropHandle i hd).tick? = c.tick? := tick?_setHandle
    rw [ht]
    have hk : Function.update c.handle? i none k = some hd' :=
      (congrFun (handle?_setHandle (edge?_isSome_of_handle? hi)) k).symm.trans hk
    rcases eq_or_ne k i with rfl | hne
    case inl => simp at hk
    case inr => exact h.tick (by rwa [Function.update_of_ne hne] at hk)

theorem dropHandles {es : List (Nat × NodeId × KvCacheHandle)} (h : Timed ops c path) (hh : Held c es) :
    Timed ops (es.foldl (fun c e => c.dropHandle e.2.1 e.2.2) c) path := by
  induction es generalizing c
  case nil          => exact h
  case cons e es hi => exact hi (h.dropHandle hh.head) hh.tail

theorem evictColdest (h : Timed ops c path) (n : Nat) : Timed ops (c.evictColdest n).2 path := by
  rw [evictColdest_eq]
  exact h.dropHandles victims_held

end Timed

theorem run_timed (capacity : Option Nat) (ops : List Op) (h : ops.length < 2 ^ 64 - 2) :
    ∃ path, Rep (run capacity ops) path ∧ Timed ops (run capacity ops) path := by
  induction ops using reverseRecOn
  case nil =>
    have ⟨path, r⟩ := start_rep capacity
    exact ⟨path, r, start_timed capacity⟩
  case append_singleton ops op hi =>
    rw [length_append, length_singleton] at h
    have ⟨path, r, ht⟩ := hi (by omega)
    have ⟨path', r', ht'⟩ := ht.prepare r op h
    rw [run_concat, op.next_eq r]
    exact ⟨path', (evictColdest_victims r').left, ht'.evictColdest _⟩

-- An eviction of `n` tokens: it goes by the last use, and it stops as soon as it can.
structure EvictsOldest (lastUse : List TokenId → Nat) (n : Nat) (c c' : RadixCache) (keys : List (List TokenId))
    (handles : List KvCacheHandle) : Prop where
  removed : Removed c c' keys handles
  sorted  : keys.Pairwise (lastUse · ≤ lastUse ·)
  oldest  : a ∈ keys → (c'.entries b).isSome → lastUse a ≤ lastUse b
  minimal : k < keys.length → ((keys.take k).map length).sum < n
  enough  : n ≤ (keys.map length).sum ∨ ∀ key, c'.entries key = none

section Eviction

variable {e e' : Nat × NodeId × KvCacheHandle}

theorem coldest_sorted : c.coldest.Pairwise (·.1 ≤ ·.1) :=
  pairwise_insertionSort ..

theorem Timed.lastUse_le (h : Timed ops c path) (he : e ∈ c.coldest) (he' : e' ∈ c.coldest) (hle : e.1 ≤ e'.1) :
    lastUse Op.Touches ops (path e.2.1) ≤ lastUse Op.Touches ops (path e'.2.1) := by
  have ⟨ht, hh⟩ := mem_coldest_iff.mp he
  have ⟨ht', hh'⟩ := mem_coldest_iff.mp he'
  have hstamp : e.1 = stamp ops (path e.2.1) := Option.some.inj (ht.symm.trans (h.tick hh))
  have hstamp' : e'.1 = stamp ops (path e'.2.1) := Option.some.inj (ht'.symm.trans (h.tick hh'))
  by_contra hlt
  have := stamp_lt (not_le.mp hlt)
  omega

theorem lengths_eq (r : Rep c path) {es : List (Nat × NodeId × KvCacheHandle)} (h : ∀ e ∈ es, e ∈ c.coldest) :
    ((es.map (path ·.2.1)).map length).sum = tokenSum es := by
  rw [map_map, tokenSum]
  exact congrArg sum (map_congr_left fun e he => (r.handle (mem_coldest (h e he))).symm)

theorem evictsOldest (r : Rep c path) (h : Timed ops c path) (n : Nat) :
    EvictsOldest (lastUse Op.Touches ops) n c (c.evictColdest n).2 ((victims n c.coldest 0).map (path ·.2.1))
      (c.evictColdest n).1.evicted := by
  have hpre : victims n c.coldest 0 <+: c.coldest := victims_prefix
  have ⟨rest, hrest⟩ := hpre
  have hsorted : (victims n c.coldest 0 ++ rest).Pairwise (·.1 ≤ ·.1) := by
    rw [hrest]
    exact coldest_sorted
  have hmem {e} (he : e ∈ victims n c.coldest 0) : e ∈ c.coldest := hpre.mem he
  have hremoved := (evictColdest_victims (n := n) r).right
  refine ⟨hremoved, ?_, fun {a b} ha hb => ?_, fun {k} hk => ?_, ?_⟩
  case refine_1 =>
    rw [pairwise_map]
    exact (pairwise_append.mp hsorted).left.imp_of_mem fun he he' hle => h.lastUse_le (hmem he) (hmem he') hle
  case refine_2 =>
    have ⟨e, he, hea⟩ := mem_map.mp ha
    rw [hremoved.entries] at hb
    split at hb
    case isTrue => contradiction
    case isFalse hnot =>
      have ⟨e', he', heb⟩ := mem_map.mp ((coldest_lists r).live.mpr hb)
      rw [← hrest, mem_append] at he'
      rcases he' with hv | hr
      case inl => exact absurd (heb ▸ mem_map_of_mem hv) hnot
      case inr =>
        have hle := (pairwise_append.mp hsorted).right.right e he e' hr
        exact hea ▸ heb ▸ h.lastUse_le (hmem he) (hrest ▸ mem_append_right _ hr) hle
  case refine_3 =>
    rw [length_map] at hk
    have hlt := victims_lt hk
    rw [← map_take, lengths_eq r fun e he => hmem (mem_of_mem_take he)]
    omega
  case refine_4 =>
    rcases @victims_enough c.coldest n 0 with hall | henough
    case inl =>
      refine .inr fun key => ?_
      rw [hremoved.entries, hall]
      split
      case isTrue => rfl
      case isFalse hnot =>
        rw [(coldest_lists r).live] at hnot
        exact Option.not_isSome_iff_eq_none.mp hnot
    case inr =>
      rw [lengths_eq r fun e he => hmem he]
      exact .inl (by omega)

theorem tokenSum_append {es es' : List (Nat × NodeId × KvCacheHandle)} : tokenSum (es ++ es') = tokenSum es + tokenSum es' := by
  rw [tokenSum, map_append, sum_append, ← tokenSum, ← tokenSum]

-- What comes after the key that was just inserted in the order of eviction is at most the entry of the empty key. So all
-- the tokens before it are enough to evict.
theorem insert_kept {op : Op} {tokens : List TokenId} (r : Rep c path) (h : Timed (ops ++ [op]) c path) (hb : Balanced c)
    (htouch : ∀ key, op.Touches key → key = tokens ∨ key = []) (hop : op.Touches tokens)
    (hfits : ∀ limit ∈ c.capacityTokens, tokens.length ≤ limit) :
    tokens ∉ (victims c.overflow c.coldest 0).map (path ·.2.1) := by
  intro hmem
  obtain ⟨e, he, hpath⟩ := mem_map.mp hmem
  obtain ⟨rest, hrest⟩ : victims c.overflow c.coldest 0 <+: c.coldest := victims_prefix
  obtain ⟨before, after, hsplit⟩ := append_of_mem he
  have hcold : c.coldest = before ++ e :: (after ++ rest) := by rw [← hrest, hsplit, append_assoc, cons_append]
  have hsorted : (before ++ e :: (after ++ rest)).Pairwise (·.1 ≤ ·.1) := by
    rw [← hcold]
    exact coldest_sorted
  have hnodup : ((before ++ e :: (after ++ rest)).map (·.2.1)).Nodup := hcold ▸ coldest_nodup
  have hin {e'} (he' : e' ∈ after ++ rest) : e' ∈ c.coldest := hcold ▸ mem_append_right _ (mem_cons_of_mem _ he')
  have hein : e ∈ c.coldest := hcold ▸ mem_append_right _ mem_cons_self
  have hzero {e'} (he' : e' ∈ after ++ rest) : e'.2.2.tokenLen = 0 := by
    have hle := h.lastUse_le hein (hin he') ((pairwise_cons.mp (pairwise_append.mp hsorted).right.left).left e' he')
    rw [hpath, lastUse_concat, lastUse_concat, if_pos hop] at hle
    have hbound : lastUse Op.Touches ops (path e'.2.1) ≤ ops.length := RadixCache.lastUse_le
    split at hle
    case isFalse => omega
    case isTrue ht =>
      have hh := mem_coldest (hin he')
      rcases htouch _ ht with heq | hnil
      case inr => rw [r.handle hh, hnil, length_nil]
      case inl =>
        have hid := r.injective (edge?_isSome_of_handle? hh) (edge?_isSome_of_handle? (mem_coldest hein)) (heq.trans hpath.symm)
        rw [map_append, map_cons] at hnodup
        have hnot := (nodup_cons.mp (nodup_append.mp hnodup).right.left).left
        exact absurd (hid ▸ mem_map_of_mem he') hnot
  have hafter : tokenSum (after ++ rest) = 0 := by
    rw [tokenSum, sum_eq_zero]
    intro n hn
    obtain ⟨e', he', hlen⟩ := mem_map.mp hn
    exact hlen ▸ hzero he'
  have hlen : e.2.2.tokenLen = tokens.length := hpath ▸ r.handle (mem_coldest hein)
  have htotal : c.residentTokens = tokenSum before + tokens.length := by
    rw [hb, ← coldest_tokenSum, hcold, tokenSum_append, ← hlen, tokenSum, tokenSum, map_cons, sum_cons, ← tokenSum,
      ← tokenSum, hafter, Nat.add_zero]
  have hlt : tokenSum before < c.overflow := by
    have hk : before.length < (victims c.overflow c.coldest 0).length := by rw [hsplit]; simp
    have hvictims := victims_lt hk
    rwa [hsplit, take_left, Nat.zero_add] at hvictims
  rw [overflow] at hlt
  cases hc : c.capacityTokens
  case none       => simp [hc] at hlt
  case some limit =>
    rw [hc, Option.elim_some] at hlt
    have := hfits limit hc
    omega

end Eviction

-- Evictions go by the last use, where an insertion uses the entry of the empty key as well, and an insertion does not
-- evict its own key if that fits the capacity.
theorem run_evictsOldest (capacity : Option Nat) (ops : List Op) (op : Op) (h : (ops ++ [op]).length < 2 ^ 64 - 2) :
    let c := run capacity ops
    (∃ keys handles, EvictsOldest (lastUse Op.Touches (ops ++ [op])) (op.due c) (op.prepare c) (op.next c) keys handles) ∧
    (∀ n, op = .evictColdest n → ∃ keys,
      EvictsOldest (lastUse Op.Touches ops) n c (c.evictColdest n).2 keys (c.evictColdest n).1.evicted) ∧
    ∀ tokens hd hlen, op = .insert tokens hd hlen → (∀ limit ∈ c.capacityTokens, tokens.length ≤ limit) →
      (op.next c).entries tokens = some hd := by
  have hops : ops.length + 1 < 2 ^ 64 - 2 := by rwa [length_append, length_singleton] at h
  have ⟨path, r, ht⟩ := run_timed capacity ops (by omega)
  have hb := run_balanced capacity ops
  generalize run capacity ops = c at r ht hb ⊢
  have ⟨path', r', ht'⟩ := ht.prepare r op hops
  refine ⟨?_, fun n _ => ⟨_, evictsOldest r ht n⟩, fun tokens hd hlen hop hfits => ?_⟩
  case refine_1 => rw [op.next_eq r]; exact ⟨_, _, evictsOldest r' ht' _⟩
  case refine_2 =>
    subst hop
    have ⟨_, c₁, _, g, _, hprepare, _, he⟩ := Op.prepare_insert r hlen
    have hcap : ((Op.insert tokens hd hlen).prepare c).capacityTokens = c.capacityTokens := by
      rw [hprepare]
      exact g.grown.capacity
    have htouch (key : List TokenId) (hk : (Op.insert tokens hd hlen).Touches key) : key = tokens ∨ key = [] :=
      (of_decide_eq_true hk).imp Eq.symm id
    have hkept := insert_kept r' ht' (hb.prepare r _) htouch (decide_eq_true (.inl rfl)) (hcap ▸ hfits)
    rw [Op.next_eq r, Op.due, (evictColdest_victims r').right.entries, if_neg hkept, he, Function.update_self]

theorem run_evictsOldest_twice :
    let ops := [Op.insert [1, 2] ⟨7, 2⟩ rfl]
    let op := Op.insert [3] ⟨8, 1⟩ rfl
    let c := run (some 2) ops
    (∃ keys handles, EvictsOldest (lastUse Op.Touches (ops ++ [op])) (op.due c) (op.prepare c) (op.next c) keys handles) ∧
      (op.next c).entries [3] = some ⟨8, 1⟩ := by
  have h := run_evictsOldest (some 2) [.insert [1, 2] ⟨7, 2⟩ rfl] (.insert [3] ⟨8, 1⟩ rfl) (by decide)
  exact ⟨h.left, h.right.right [3] ⟨8, 1⟩ rfl rfl (by decide)⟩

-- The entry of the empty key is the oldest one, but the insertions after it have touched the root.
theorem not_evictsOldest_uses :
    ¬∀ (capacity : Option Nat) (ops : List Op) (n : Nat), ops.length < 2 ^ 64 - 2 → ∃ keys,
      EvictsOldest (lastUse Op.Uses ops) n (run capacity ops) ((run capacity ops).evictColdest n).2 keys
        ((run capacity ops).evictColdest n).1.evicted := by
  intro h
  let ops : List Op := [.insert [] ⟨0, 0⟩ rfl, .insert [1] ⟨1, 1⟩ rfl, .insert [2] ⟨2, 1⟩ rfl]
  obtain ⟨keys, hkeys⟩ := h none ops 1 (by decide)
  obtain ⟨path, r⟩ := run_rep none ops
  have hhandles : (run none ops).nodes.map (·.handle) = [some ⟨0, 0⟩, some ⟨1, 1⟩, some ⟨2, 1⟩] := by decide +kernel
  have hevicted : ((run none ops).evictColdest 1).1.evicted = [⟨1, 1⟩] := by decide +kernel
  have hsome : ((run none ops).edge? 0).isSome := by decide +kernel
  have hchild : (run none ops).child? 0 1 = some 1 := by decide +kernel
  have hedge : (run none ops).edge? 1 = some [1] := by decide +kernel
  have huses : lastUse Op.Uses ops [] < lastUse Op.Uses ops [1] := by decide +kernel
  have hroot : (run none ops).RootPath 0 [] := .root hsome
  have hone : (run none ops).RootPath 1 [1] := .child hroot hchild hedge
  generalize run none ops = c at *
  have hhandle (i : NodeId) : c.handle? i = ([some ⟨0, 0⟩, some ⟨1, 1⟩, some ⟨2, 1⟩] : List (Option KvCacheHandle))[i]?.join := by
    rw [← hhandles, getElem?_map, handle?]
    cases c.nodes[i]? <;> rfl
  have hempty : c.entries [] = some ⟨0, 0⟩ := r.entries_eq_some_iff.mpr ⟨0, hroot, hhandle 0⟩
  have hremoved := hkeys.removed.evicted
  rw [hevicted, map_singleton] at hremoved
  obtain ⟨key, rfl, hkey⟩ := map_eq_singleton_iff.mp hremoved
  obtain ⟨i, hi, hp⟩ := r.live_iff.mp (r.entries_eq_some_iff.mp hkey)
  have hi1 : i = 1 := by
    rw [hhandle] at hi
    rcases i with _ | _ | _ | n
    case succ.zero => rfl
    all_goals cases hi
  obtain rfl : key = [1] := by rw [← hp, hi1, (r.rootPath_iff.mp hone).right]
  have hlive : ((c.evictColdest 1).2.entries []).isSome := by
    rw [hkeys.removed.entries, if_neg (by simp), hempty]
    rfl
  exact absurd (hkeys.oldest mem_cons_self hlive) huses.not_ge

end RadixCache
