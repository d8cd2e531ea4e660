import VeloCore.Objects.RadixCache.Theorems.Evict
import VeloCore.Objects.RadixCache.Theorems.Lookup

open List

namespace RadixCache

variable {c c' : RadixCache} {path : NodeId → List TokenId} {tokens : List TokenId}
  {hd : KvCacheHandle} {ε : Type}

theorem insert_returns (r : Rep c path) (hlen : tokens.length = hd.tokenLen) :
    Eff.Returns (insert tokens hd : Eff _ ε _) c fun res c' =>
      ∃ c₁ keys handles, (place tokens hd : Eff _ ε _) c = (.ok res.replaced, c₁) ∧
        c' = c₁.evictToCapacity ∧ (∃ path', Rep c' path') ∧ res.replaced = c.entries tokens ∧
        c₁.entries = Function.update c.entries tokens (some hd) ∧ Removed c₁ c' keys handles ∧
        c₁.capacityTokens = c.capacityTokens ∧
        c₁.residentTokens =
          c.residentTokens - (res.replaced.map (·.tokenLen)).getD 0 + hd.tokenLen := by
  rw [insert, if_neg (not_not.mpr hlen)]
  obtain ⟨replaced, c₁, hp, ⟨path', r'⟩, hr, he, hc, hres⟩ := place_returns (ε := ε) r hlen
  obtain ⟨r'', keys, handles, h⟩ := evictToCapacity_removed r'
  refine .bind ⟨replaced, c₁, hp, .bind <| .modify <| .pure ?_⟩
  exact ⟨c₁, keys, handles, hp, rfl, ⟨_, r''⟩, hr, he, h, hc, hres⟩

theorem Reachable.rep (h : Reachable c) : ∃ path, Rep c path := by
  induction h
  case new                => exact ⟨_, rep_new⟩
  case withCapacityTokens n =>
    exact ⟨_, (rep_new.same (d := RadixCache.withCapacityTokens n) rfl rfl rfl).left⟩
  case lookup he hi =>
    obtain ⟨path, r⟩ := hi
    obtain ⟨_, _, he', r', -⟩ := lookup_returns (ε := Empty) _ r
    obtain ⟨-, rfl⟩ := Prod.ext_iff.mp (he.symm.trans he')
    exact ⟨path, r'⟩
  case insert hlen he hi =>
    obtain ⟨path, r⟩ := hi
    obtain ⟨_, _, he', _, _, _, -, -, r', -⟩ := insert_returns (ε := Empty) r hlen
    obtain ⟨-, rfl⟩ := Prod.ext_iff.mp (he.symm.trans he')
    exact r'
  case evictColdest hi =>
    obtain ⟨path, r⟩ := hi
    exact ⟨path, (evictColdest_removed r).left⟩
  case setCapacityTokens c n _ hi =>
    obtain ⟨path, r⟩ := hi
    have ⟨r', _⟩ := r.same (d := { c with capacityTokens := n }) rfl rfl rfl
    exact ⟨path, (evictToCapacity_removed r').left⟩

-- What the operations do to the map of the live entries.
structure Refines (c : RadixCache) : Prop where
  lookup tokens : ∃ c', (lookup tokens : Eff _ Empty _) c =
      (.ok ((longestPrefix c.entries tokens).elim ⟨0, none⟩ fun (n, hd) => ⟨n, some hd⟩), c') ∧
    c'.entries = c.entries
  insert tokens hd : tokens.length = hd.tokenLen → ∃ c₁ keys handles,
    (place tokens hd : Eff _ Empty _) c = (.ok (c.entries tokens), c₁) ∧
    c₁.entries = Function.update c.entries tokens (some hd) ∧
    (insert tokens hd : Eff _ Empty _) c =
      (.ok ⟨tokens.length, c.entries tokens, hd⟩, c₁.evictToCapacity) ∧
    Removed c₁ c₁.evictToCapacity keys handles
  evictColdest n : ∃ keys, Removed c (c.evictColdest n).2 keys (c.evictColdest n).1.evicted

theorem refines_entries (h : Reachable c) : Refines c := by
  obtain ⟨path, r⟩ := h.rep
  refine ⟨fun tokens => ?_, fun tokens hd hlen => ?_, fun n => (evictColdest_removed r).right⟩
  case refine_1 =>
    obtain ⟨res, c', hl, -, he, -, -, hm, hh⟩ := lookup_returns (ε := Empty) tokens r
    refine ⟨c', hl.trans ?_, he⟩
    obtain ⟨m, h⟩ := res
    subst hm hh
    cases longestPrefix c.entries tokens <;> rfl
  case refine_2 =>
    obtain ⟨replaced, c₁, hp, ⟨_, r'⟩, rfl, he, -⟩ := place_returns (ε := Empty) r hlen
    obtain ⟨-, keys, handles, h⟩ := evictToCapacity_removed r'
    refine ⟨c₁, keys, handles, hp, he, ?_, h⟩
    rw [insert, if_neg (not_not.mpr hlen), Eff.bind_ok hp]
    rfl

theorem refines_entries_split :
    Refines ((insert [1, 2] ⟨8, 2⟩ : Eff _ Empty _)
      ((insert [1, 2, 3, 4] ⟨7, 4⟩ : Eff _ Empty _) new).2).2 :=
  refines_entries <| .insert [1, 2] ⟨8, 2⟩ (r := ⟨2, none, ⟨8, 2⟩⟩)
    (.insert [1, 2, 3, 4] ⟨7, 4⟩ (r := ⟨4, none, ⟨7, 4⟩⟩) .new rfl rfl) rfl rfl

end RadixCache
