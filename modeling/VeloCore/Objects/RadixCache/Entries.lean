import VeloCore.Objects.RadixCache.Theorems.Tree

open List

namespace RadixCache

-- The tokens on the way from the root to a node.
inductive RootPath (c : RadixCache) : NodeId → List TokenId → Prop
  | root  : (c.edge? 0).isSome → RootPath c 0 []
  | child : RootPath c i path → c.child? i t = some j → c.edge? j = some edge →
    RootPath c j (path ++ edge)

-- The entry that a cache holds for a key.
def Live (c : RadixCache) (key : List TokenId) (handle : KvCacheHandle) : Prop :=
  ∃ i, c.RootPath i key ∧ c.handle? i = some handle

open Classical in
-- What the cache stands for: a finite map from token sequences to handles.
noncomputable def entries (c : RadixCache) (key : List TokenId) : Option KvCacheHandle :=
  if h : ∃ handle, c.Live key handle then some h.choose else none

-- The states that the operations of a cache lead to. An insertion under a handle of another length
-- panics.
inductive Reachable : RadixCache → Prop
  | new                  : Reachable new
  | withCapacityTokens   : Reachable (withCapacityTokens n)
  | lookup tokens {r}    : Reachable c → (lookup tokens : Eff _ Empty _) c = (.ok r, c') → Reachable c'
  | insert tokens handle {r} : Reachable c → tokens.length = handle.tokenLen →
    (insert tokens handle : Eff _ Empty _) c = (.ok r, c') → Reachable c'
  | evictColdest         : Reachable c → Reachable (c.evictColdest n).2
  | setCapacityTokens    : Reachable c → Reachable (c.setCapacityTokens n)

-- An insertion of `tokens` does not take the cache over its capacity.
def Fits (tokens : List TokenId) (c : RadixCache) : Prop :=
  ∀ capacity ∈ c.capacityTokens,
    c.residentTokens - ((c.entries tokens).map (·.tokenLen)).getD 0 + tokens.length ≤ capacity

variable {c : RadixCache} {tokens : List TokenId}

theorem fits_of_uncapped (h : c.capacityTokens = none) : Fits tokens c := by
  simp [Fits, h]

theorem evictToCapacity_eq_self (h : ∀ capacity ∈ c.capacityTokens, c.residentTokens ≤ capacity) :
    c.evictToCapacity = c := by
  unfold evictToCapacity
  split
  case h_1             => rfl
  case h_2 capacity hc => rw [if_pos (h capacity hc)]

theorem setCapacityTokens_eq (h : ∀ capacity ∈ n, c.residentTokens ≤ capacity) :
    c.setCapacityTokens n = { c with capacityTokens := n } :=
  evictToCapacity_eq_self h

end RadixCache
