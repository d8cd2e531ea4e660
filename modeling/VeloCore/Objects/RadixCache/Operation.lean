import VeloCore.Objects.RadixCache.Theorems.Refinement

open List

namespace RadixCache

-- A call to a cache. An insertion under a handle of another length panics.
inductive Op
  | insert (tokens : List TokenId) (handle : KvCacheHandle) (h : tokens.length = handle.tokenLen)
  | lookup (tokens : List TokenId)
  | evictColdest (tokensToEvict : Nat)
  | setCapacityTokens (capacityTokens : Option Nat)

-- What the resident tokens are over the capacity
def overflow (c : RadixCache) : Nat :=
  c.capacityTokens.elim 0 (c.residentTokens - ·)

namespace Op

def next (c : RadixCache) : Op → RadixCache
  | insert tokens handle _           => ((RadixCache.insert tokens handle : Eff _ Empty _) c).2
  | lookup tokens                    => ((RadixCache.lookup tokens : Eff _ Empty _) c).2
  | evictColdest tokensToEvict       => (c.evictColdest tokensToEvict).2
  | setCapacityTokens capacityTokens => c.setCapacityTokens capacityTokens

-- The state that the eviction step of a call starts from
def prepare (c : RadixCache) : Op → RadixCache
  | insert tokens handle _           => ((place tokens handle : Eff _ Empty _) c).2
  | lookup tokens                    => ((RadixCache.lookup tokens : Eff _ Empty _) c).2
  | evictColdest _                   => c
  | setCapacityTokens capacityTokens => { c with capacityTokens }

-- The number of tokens that it has to evict
def due (c : RadixCache) : Op → Nat
  | insert tokens handle h           => ((insert tokens handle h).prepare c).overflow
  | lookup _                         => 0
  | evictColdest tokensToEvict       => tokensToEvict
  | setCapacityTokens capacityTokens => ((setCapacityTokens capacityTokens).prepare c).overflow

end Op

-- `new` and `with_capacity_tokens`
def start : Option Nat → RadixCache
  | none                => new
  | some capacityTokens => withCapacityTokens capacityTokens

def run (capacity : Option Nat) (ops : List Op) : RadixCache :=
  ops.foldl Op.next (start capacity)

variable {c : RadixCache} {path : NodeId → List TokenId} {tokens : List TokenId} {hd : KvCacheHandle}

theorem run_concat (capacity : Option Nat) (ops : List Op) (op : Op) :
    run capacity (ops ++ [op]) = op.next (run capacity ops) := by
  rw [run, foldl_append]
  rfl

theorem evictToCapacity_eq (c : RadixCache) : c.evictToCapacity = (c.evictColdest c.overflow).2 := by
  rw [evictToCapacity, overflow]
  split
  case h_1 h => rw [h, Option.elim_none, evictColdest_zero]
  case h_2 capacity h =>
    rw [h, Option.elim_some]
    split
    case isTrue hle => rw [Nat.sub_eq_zero_of_le hle, evictColdest_zero]
    case isFalse    => rfl

namespace Op

theorem prepare_insert (r : Rep c path) (h : tokens.length = hd.tokenLen) : ∃ leaf c₁ path',
    Planted (touch 0 c.tick.clock c.tick) path 0 tokens leaf c₁ path' ∧ c₁.handle? leaf = c.entries tokens ∧
    (insert tokens hd h).prepare c =
      account (c.entries tokens) hd (touch leaf c.tick.clock (c₁.setHandle leaf (some hd))) ∧
    Rep ((insert tokens hd h).prepare c) path' ∧
    ((insert tokens hd h).prepare c).entries = Function.update c.entries tokens (some hd) := by
  obtain ⟨replaced, c', hp, leaf, c₁, path', g, rfl, hleaf, rfl, r', he⟩ := place_planted (ε := Empty) r h
  have hprepare : (insert tokens hd h).prepare c = _ := congrArg Prod.snd hp
  rw [hprepare]
  exact ⟨leaf, c₁, path', g, hleaf, rfl, r', he⟩

theorem prepare_lookup (r : Rep c path) (tokens : List TokenId) :
    ∃ best, Walked c path tokens c.tick.clock best ((lookup tokens).prepare c) := by
  obtain ⟨res, c', hl, best, w, -⟩ := lookup_walked (ε := Empty) tokens r
  have hprepare : (lookup tokens).prepare c = c' := congrArg Prod.snd hl
  exact ⟨best, hprepare ▸ w⟩

theorem prepare_rep (r : Rep c path) (op : Op) : ∃ path', Rep (op.prepare c) path' := by
  cases op
  case insert tokens handle h =>
    have ⟨_, _, path', _, _, _, r', _⟩ := prepare_insert r h
    exact ⟨path', r'⟩
  case lookup tokens =>
    have ⟨_, w⟩ := prepare_lookup r tokens
    exact ⟨path, (r.same w.edge w.child w.handle).left⟩
  case evictColdest => exact ⟨path, r⟩
  case setCapacityTokens n => exact ⟨path, (r.same (d := { c with capacityTokens := n }) rfl rfl rfl).left⟩

-- Every call ends with an eviction step, which has nothing to evict in a lookup.
theorem next_eq (r : Rep c path) (op : Op) : op.next c = ((op.prepare c).evictColdest (op.due c)).2 := by
  cases op
  case insert tokens handle h =>
    obtain ⟨replaced, c₁, hp, -⟩ := place_planted (ε := Empty) r h
    have hprepare : (insert tokens handle h).prepare c = c₁ := congrArg Prod.snd hp
    rw [next, RadixCache.insert, if_neg (not_not.mpr h), Eff.bind_ok hp, due, hprepare, ← evictToCapacity_eq]
    rfl
  case lookup            => exact evictColdest_zero.symm
  case evictColdest      => rfl
  case setCapacityTokens => exact evictToCapacity_eq _

end Op

theorem start_rep (capacity : Option Nat) : ∃ path, Rep (start capacity) path := by
  cases capacity
  case none   => exact ⟨_, rep_new⟩
  case some n => exact ⟨_, (rep_new.same (d := withCapacityTokens n) rfl rfl rfl).left⟩

theorem run_rep (capacity : Option Nat) (ops : List Op) : ∃ path, Rep (run capacity ops) path := by
  induction ops using reverseRecOn
  case nil => exact start_rep capacity
  case append_singleton ops op hi =>
    have ⟨path, r⟩ := hi
    have ⟨path', r'⟩ := op.prepare_rep r
    rw [run_concat, op.next_eq r]
    exact ⟨path', (evictColdest_removed r').left⟩

end RadixCache
