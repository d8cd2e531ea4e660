import VeloCore.Objects.PagedAttention
import VeloCore.Primitives.Steps

open List

namespace PagedAttentionBlockManager

inductive Call
  | allocate (handle : KvCacheHandle) (tokenLen : Nat)
  | release (handle : KvCacheHandle)

variable {a : PagedAttentionBlockManager} {call : Call} {handle : KvCacheHandle} {tokenLen : Nat}

def next (a : PagedAttentionBlockManager) : Call → PagedAttentionBlockManager
  | .allocate handle tokenLen => (a.allocate handle tokenLen).2
  | .release handle           => (a.release handle).2

def fails (a : PagedAttentionBlockManager) : Call → Prop
  | .allocate handle tokenLen => ∃ e, (a.allocate handle tokenLen).1 = .error e
  | .release handle           => ∃ e, (a.release handle).1 = .error e

-- The free pages and those of all mappings are the pages of the pool, each once.
def Owned (a : PagedAttentionBlockManager) : Prop :=
  (a.freePages : Multiset PageId) + a.mappedPages = Multiset.range a.config.totalPages

-- An allocation for which there are pages does not replace a mapping that has some.
def Spares (a : PagedAttentionBlockManager) : Call → Prop
  | .allocate handle tokenLen => a.pagesForTokens tokenLen ≤ a.freePages.length →
    ∀ mapping ∈ a.mappings.lookup handle.blockId, mapping.pages = []
  | .release _ => True

instance : DecidableRel Spares
  | _, .allocate .. => inferInstanceAs (Decidable (_ → _))
  | _, .release _   => inferInstanceAs (Decidable True)

theorem next_of_fails (h : a.fails call) : a.next call = a := by
  cases call
  case allocate handle tokenLen =>
    have ⟨e, he⟩ := h
    exact allocate_error (Prod.ext he rfl)
  case release handle =>
    have ⟨e, he⟩ := h
    unfold release at he
    split at he
    case h_1 hnone => rw [next, release, hnone]
    case h_2       => contradiction

-- The pages that an allocation leaves without an owner are those of the mapping that it replaces.
theorem allocate_pages (handle : KvCacheHandle) (h : a.pagesForTokens tokenLen ≤ a.freePages.length) :
    ((a.allocate handle tokenLen).2.freePages : Multiset PageId) + (a.allocate handle tokenLen).2.mappedPages +
        (((a.mappings.lookup handle.blockId).map (·.pages)).getD [] : List PageId) =
      a.freePages + a.mappedPages := by
  have hsplit : (a.freePages : Multiset PageId) =
      (a.freePages.drop (a.pagesForTokens tokenLen) : List PageId) +
        (a.freePages.take (a.pagesForTokens tokenLen) : List PageId) := by
    rw [add_comm, Multiset.coe_add, take_append_drop]
  rw [allocate, if_neg (Nat.not_lt.mpr h), mappedPages, Finmap.bindValues_insert_eq, mappedPages, hsplit]
  cases hm : a.mappings.lookup handle.blockId
  case none =>
    rw [Finmap.erase_of_lookup_eq_none hm]
    simp only [Option.map_none, Option.getD_none, Multiset.coe_nil, add_zero]
    abel
  case some mapping =>
    rw [Finmap.bindValues_erase hm]
    simp only [Option.map_some, Option.getD_some]
    abel

theorem Owned.release (h : Owned a) (handle : KvCacheHandle) : Owned (a.release handle).2 := by
  unfold PagedAttentionBlockManager.release
  split
  case h_1 => exact h
  case h_2 mapping hm =>
    rw [Owned, mappedPages, Finmap.bindValues_erase hm] at h
    rw [Owned, mappedPages, ← h, ← Multiset.coe_add, add_assoc]

theorem owned_allocate_iff (h : Owned a) :
    Owned (a.allocate handle tokenLen).2 ↔ Spares a (.allocate handle tokenLen) := by
  by_cases hle : a.pagesForTokens tokenLen ≤ a.freePages.length
  case neg =>
    have hsame : (a.allocate handle tokenLen).2 = a := by rw [allocate, if_pos (Nat.lt_of_not_le hle)]
    exact iff_of_true (hsame.symm ▸ h) fun h => absurd h hle
  case pos =>
    have hpages := allocate_pages handle hle
    have hconfig : (a.allocate handle tokenLen).2.config = a.config := by rw [allocate]; split <;> rfl
    rw [Owned, hconfig, ← h, ← hpages, Spares, forall_prop_of_true hle, left_eq_add]
    cases a.mappings.lookup handle.blockId <;> simp

theorem owned_new (config : PagedAttentionConfig) : Owned (new config) := by
  simp [Owned, new, mappedPages, Multiset.range]

-- Every page keeps one owner along a run just when no mapping with pages is replaced; a call that fails changes
-- nothing.
theorem owned_iff (config : PagedAttentionConfig) (calls : List Call) :
    Steps.Always next Owned (new config) calls ∧
        Steps.Along next (fun a call => a.fails call → a.next call = a) (new config) calls ↔
      Steps.Along next Spares (new config) calls := by
  rw [and_iff_left (Steps.Along.of_forall fun _ _ => next_of_fails)]
  refine Steps.always_iff_along (owned_new config) (fun _ h => h) (fun a call h hc => ?_) fun a call h hc => ?_
  case refine_1 =>
    cases call
    case allocate => exact (owned_allocate_iff h).mpr hc
    case release handle => exact h.release handle
  case refine_2 =>
    cases call
    case allocate => exact (owned_allocate_iff h).not.mpr hc
    case release => exact absurd trivial hc

-- Two pages are left of four, although the only mapping has one.
theorem exists_not_owned : ¬Steps.Always next Owned (new ⟨1, 4, by decide⟩)
    [.allocate ⟨7, 1⟩ 1, .allocate ⟨7, 1⟩ 1] := by
  intro h
  have hcard := congrArg Multiset.card h.last
  revert hcard
  decide +kernel

end PagedAttentionBlockManager
