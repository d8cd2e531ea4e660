import VeloCore.Primitives.Finmap
import VeloCore.Objects.Handle
import Mathlib.Tactic

open List

-- `PageId` wraps a `u64`.
abbrev PageId := Nat

inductive PageManagerError
  | invalidBlockSize
  | outOfPages (requested available : Nat)
  | unknownHandle (handle : KvCacheHandle)
deriving DecidableEq, Repr

-- `new` refuses a block size of zero.
structure PagedAttentionConfig where
  blockSize : Nat
  totalPages : Nat
  blockSize_pos : 0 < blockSize

structure PageSpan where
  pages : List PageId
deriving DecidableEq, Repr

structure BlockMapping where
  handle : KvCacheHandle
  pages : List PageId
  tokenLen : Nat
deriving DecidableEq, Repr

structure PagedAttentionBlockManager where
  config : PagedAttentionConfig
  freePages : List PageId
  mappings : Finmap fun _ : Nat => BlockMapping

def PagedAttentionConfig.new (blockSize totalPages : Nat) :
    Except PageManagerError PagedAttentionConfig :=
  if h : blockSize = 0 then
    .error .invalidBlockSize
  else
    .ok { blockSize, totalPages, blockSize_pos := Nat.pos_of_ne_zero h }

namespace PagedAttentionBlockManager

def new (config : PagedAttentionConfig) : PagedAttentionBlockManager where
  config := config
  freePages := range config.totalPages
  mappings := ∅

-- `div_ceil`
def pagesForTokens (a : PagedAttentionBlockManager) (tokenLen : Nat) : Nat :=
  (tokenLen + a.config.blockSize - 1) / a.config.blockSize

def allocate (handle : KvCacheHandle) (tokenLen : Nat) (a : PagedAttentionBlockManager) :
    Except PageManagerError BlockMapping × PagedAttentionBlockManager :=
  let requiredPages := a.pagesForTokens tokenLen
  let available := a.freePages.length
  if requiredPages > available then
    (.error (.outOfPages requiredPages available), a)
  else
    let mapping : BlockMapping := { handle, pages := a.freePages.take requiredPages, tokenLen }
    (.ok mapping, { a with
      freePages := a.freePages.drop requiredPages
      mappings := a.mappings.insert handle.blockId mapping })

def release (handle : KvCacheHandle) (a : PagedAttentionBlockManager) :
    Except PageManagerError Unit × PagedAttentionBlockManager :=
  match a.mappings.lookup handle.blockId with
  | none => (.error (.unknownHandle handle), a)
  | some mapping =>
    (.ok (), { a with
      freePages := a.freePages ++ mapping.pages
      mappings := a.mappings.erase handle.blockId })

def materializeSpan (a : PagedAttentionBlockManager) (handle : KvCacheHandle) : Option PageSpan :=
  (a.mappings.lookup handle.blockId).map fun mapping => { pages := mapping.pages }

-- The pages of all mappings together.
def mappedPages (a : PagedAttentionBlockManager) : Multiset PageId :=
  a.mappings.bindValues fun mapping => mapping.pages

def Mapped (a : PagedAttentionBlockManager) (handle : KvCacheHandle) : Prop :=
  ∃ mapping, a.mappings.lookup handle.blockId = some mapping ∧ mapping.handle = handle

-- Each page is free or belongs to one mapping, and each mapping has the pages that it needs.
structure Wf (a : PagedAttentionBlockManager) : Prop where
  id        : a.mappings.lookup k = some mapping → mapping.handle.blockId = k
  tokenLen  : a.mappings.lookup k = some mapping → mapping.tokenLen = mapping.handle.tokenLen
  pages     : a.mappings.lookup k = some mapping →
    mapping.pages.length = a.pagesForTokens mapping.tokenLen
  partition : (a.freePages : Multiset PageId) + a.mappedPages = Multiset.range a.config.totalPages

variable {a a' : PagedAttentionBlockManager} {h h' : KvCacheHandle}

theorem wf_new {c : PagedAttentionConfig} : (new c).Wf where
  id h        := by simp [new] at h
  tokenLen h  := by simp [new] at h
  pages h     := by simp [new] at h
  partition   := by simp [new, mappedPages, Multiset.range]

theorem not_mapped_new {c : PagedAttentionConfig} : ¬(new c).Mapped h := by
  simp [Mapped, new]

theorem Wf.length_le (w : a.Wf) (h : a.mappings.lookup k = some mapping) :
    mapping.pages.length ≤ a.config.totalPages := by
  have hp := congrArg Multiset.card w.partition
  rw [mappedPages, Finmap.bindValues_erase h] at hp
  simp only [Multiset.card_add, Multiset.coe_card, Multiset.card_range] at hp
  omega

theorem Mapped.materializeSpan (w : a.Wf) (h : a.Mapped handle) :
    ∃ span, a.materializeSpan handle = some span ∧ span.pages.length ≤ a.config.totalPages :=
  have ⟨mapping, hm, _⟩ := h
  ⟨{ pages := mapping.pages }, by simp [PagedAttentionBlockManager.materializeSpan, hm], w.length_le hm⟩

theorem allocate_isOk (h : a.pagesForTokens n ≤ a.freePages.length) :
    ∃ mapping a', a.allocate handle n = (.ok mapping, a') :=
  ⟨_, _, if_neg (Nat.not_lt.mpr h)⟩

theorem allocate_error (he : a.allocate h n = (.error e, a')) : a' = a := by
  simp only [allocate] at he
  split at he <;> cases he
  rfl

theorem allocate_ok (w : a.Wf) (hnew : a.mappings.lookup h.blockId = none)
    (he : a.allocate h h.tokenLen = (.ok mapping, a')) :
    a'.Wf ∧ a'.config = a.config ∧ (∀ h', a'.Mapped h' ↔ a.Mapped h' ∨ h' = h) ∧
      a.freePages.length = a'.freePages.length + a.pagesForTokens h.tokenLen := by
  simp only [allocate] at he
  split at he
  case isTrue => simp at he
  case isFalse hle =>
    cases he
    have hlen : (a.freePages.take (a.pagesForTokens h.tokenLen)).length = a.pagesForTokens h.tokenLen := by
      rw [length_take]
      omega
    refine ⟨⟨fun {k m} hk => ?_, fun {k m} hk => ?_, fun {k m} hk => ?_, ?_⟩, rfl, fun h' => ?_, ?_⟩
    case refine_1 =>
      rw [Finmap.lookup_insert_eq_ite] at hk
      split at hk
      case isTrue hkn => cases hk; exact hkn.symm
      case isFalse    => exact w.id hk
    case refine_2 =>
      rw [Finmap.lookup_insert_eq_ite] at hk
      split at hk
      case isTrue  => cases hk; rfl
      case isFalse => exact w.tokenLen hk
    case refine_3 =>
      rw [Finmap.lookup_insert_eq_ite] at hk
      split at hk
      case isTrue  => cases hk; exact hlen
      case isFalse => exact w.pages hk
    case refine_4 =>
      rw [mappedPages, Finmap.bindValues_insert hnew, ← w.partition, ← add_assoc, mappedPages]
      congr 1
      rw [add_comm, Multiset.coe_add, take_append_drop]
    case refine_5 =>
      simp only [Mapped, Finmap.lookup_insert_eq_ite]
      split
      case isTrue heq =>
        have hnone : a.mappings.lookup h'.blockId = none := heq ▸ hnew
        simp [hnone, eq_comm]
      case isFalse hne =>
        refine (or_iff_left ?_).symm
        rintro rfl
        exact hne rfl
    case refine_6 =>
      dsimp only
      rw [length_drop]
      omega

theorem release_ok (w : a.Wf) (hm : a.Mapped h) :
    ∃ a', a.release h = (.ok (), a') ∧ a'.Wf ∧ a'.config = a.config ∧
      (∀ h', a'.Mapped h' ↔ a.Mapped h' ∧ h' ≠ h) ∧
      a'.freePages.length = a.freePages.length + a.pagesForTokens h.tokenLen := by
  have ⟨m, hm, hh⟩ := hm
  have hlookup {k b} (hk : (a.mappings.erase h.blockId).lookup k = some b) :
      a.mappings.lookup k = some b := by
    rw [Finmap.lookup_erase_eq_ite] at hk
    split at hk
    case isTrue  => contradiction
    case isFalse => exact hk
  refine ⟨{ a with freePages := a.freePages ++ m.pages, mappings := a.mappings.erase h.blockId },
    by simp [release, hm], ⟨fun hk => w.id (hlookup hk), fun hk => w.tokenLen (hlookup hk),
    fun hk => w.pages (hlookup hk), ?_⟩, rfl, fun h' => ?_, ?_⟩
  case refine_1 =>
    rw [← w.partition, mappedPages, mappedPages, Finmap.bindValues_erase hm, ← Multiset.coe_add, add_assoc]
  case refine_2 =>
    simp only [Mapped, Finmap.lookup_erase_eq_ite]
    split
    case isTrue heq =>
      refine iff_of_false (by simp) fun ⟨⟨m', hm', hh'⟩, hne⟩ => hne ?_
      have hmm : m = m' := Option.some.inj <| hm.symm.trans <| heq ▸ hm'
      rw [← hh, ← hh', hmm]
    case isFalse hne =>
      refine (and_iff_left ?_).symm
      rintro rfl
      exact hne rfl
  case refine_3 =>
    dsimp only
    rw [length_append, w.pages hm, w.tokenLen hm, hh]

end PagedAttentionBlockManager
