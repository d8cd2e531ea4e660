import VeloCore.Objects.Metal.KvStore
import VeloCore.Primitives.Steps

open List

-- The two stores of a pair get the same calls.
namespace KvStores

inductive Call
  | allocate (tokenLen : Nat)
  | release (handle : KvCacheHandle)
deriving DecidableEq, Repr

abbrev Both := InMemoryKvStore × MetalKvStore

-- Both calls hand back the same, or both an error.
def SameAnswer {α : Type} : Except KvStoreError α → Except KvStoreError α → Prop
  | .ok a, .ok b       => a = b
  | .error _, .error _ => True
  | _, _               => False

namespace Call

def run (s : Both) : Call → Both
  | allocate tokenLen => ((s.1.allocate tokenLen).2, (s.2.allocate tokenLen).2)
  | release handle    => ((s.1.release handle).2, (s.2.releaseBlock handle).2)

-- The stores answer the call alike, and hold as many bytes after it.
def Agrees (s : Both) (c : Call) : Prop :=
  (c.run s).1.allocatedBytes = (c.run s).2.allocatedBytes ∧
  match c with
  | allocate tokenLen => SameAnswer (s.1.allocate tokenLen).1 (s.2.allocate tokenLen).1
  | release handle    => SameAnswer (s.1.release handle).1 (s.2.releaseBlock handle).1

-- Fewer than `pages` blocks are live when one is allocated.
def Roomy (pages : Nat) (s : Both) : Call → Prop
  | allocate _ => s.1.len < pages ∧ s.2.len < pages
  | release _  => True

instance : Decidable (Roomy pages s c) :=
  match c with
  | allocate _ => inferInstanceAs (Decidable (_ ∧ _))
  | release _  => inferInstanceAs (Decidable True)

-- The call does not ask for an empty block, and a handle with the id of a block is that of the block.
def Regular (s : Both) : Call → Prop
  | allocate tokenLen => tokenLen ≠ 0
  | release handle    => (s.1.get handle).isSome ∨ s.1.blocks.lookup handle.blockId = none

instance : Decidable (Regular s c) :=
  match c with
  | allocate _ => inferInstanceAs (Decidable (_ ≠ _))
  | release _  => inferInstanceAs (Decidable (_ ∨ _))

end Call

-- The stores hold the same blocks, and a page is free for each that may still come.
structure Alike (pages : Nat) (s : Both) : Prop where
  wf            : s.1.Wf
  metalWf       : s.2.Wf
  nextBlockId   : s.1.nextBlockId = s.2.nextBlockId
  bytesPerToken : s.1.bytesPerToken = s.2.bytesPerToken
  lookup        : ∀ k, s.1.blocks.lookup k = (s.2.blocks.lookup k).map fun b => ⟨b.handle, b.bytes⟩
  len           : s.1.len = s.2.len
  bytes         : s.1.allocatedBytes = s.2.allocatedBytes
  free          : s.2.freeOffsets.length + s.2.len = pages

variable {pages n : Nat} {s : Both} {h : KvCacheHandle}

theorem alike_new (bytesPerToken pages pageTokens : Nat) :
    Alike pages (.new bytesPerToken, .new bytesPerToken pages pageTokens) where
  wf            := InMemoryKvStore.wf_new
  metalWf       := MetalKvStore.wf_new
  nextBlockId   := rfl
  bytesPerToken := rfl
  lookup _      := by simp [InMemoryKvStore.new, MetalKvStore.new]
  len           := rfl
  bytes         := rfl
  free          := by simp only [MetalKvStore.new, MetalKvStore.len, length_reverse, length_map, length_range]; rfl

namespace Alike

-- The Metal store has a page left, and does not ask whether the block is empty.
theorem metal_allocate (ha : Alike pages s) (hroom : s.2.len < pages) (n : Nat) :
    ∃ offset, s.2.freeOffsets.getLast? = some offset ∧ s.2.allocate n = (.ok ⟨s.2.nextBlockId, n⟩, { s.2 with
      nextBlockId := s.2.nextBlockId + 1
      blocks := s.2.blocks.insert s.2.nextBlockId ⟨⟨s.2.nextBlockId, n⟩, n * s.2.bytesPerToken, offset⟩
      freeOffsets := s.2.freeOffsets.dropLast }) := by
  have hfree := ha.free
  have ⟨offset, ho⟩ := Option.isSome_iff_exists.mp
    (getLast?_isSome.mpr (ne_nil_of_length_pos (show 0 < s.2.freeOffsets.length by omega)))
  refine ⟨offset, ho, ?_⟩
  unfold MetalKvStore.allocate
  rw [ho]

theorem allocate_agrees_iff (ha : Alike pages s) (hroom : s.2.len < pages) :
    (Call.allocate n).Agrees s ↔ n ≠ 0 := by
  have ⟨offset, _, hm⟩ := ha.metal_allocate hroom n
  constructor
  case mp =>
    rintro ⟨_, hsame⟩ rfl
    simp [SameAnswer, InMemoryKvStore.allocate, hm] at hsame
  case mpr =>
    intro hn
    have hnone : s.2.blocks.lookup s.2.nextBlockId = none := by
      have := ha.lookup s.1.nextBlockId
      rw [ha.wf.lookup_next, ha.nextBlockId] at this
      simpa using this.symm
    have hbytes := ha.bytes
    simp only [InMemoryKvStore.allocatedBytes, MetalKvStore.allocatedBytes] at hbytes
    simp only [Call.Agrees, Call.run, InMemoryKvStore.allocate, if_neg hn, hm, SameAnswer, ha.nextBlockId, and_true]
    simp only [InMemoryKvStore.allocatedBytes, MetalKvStore.allocatedBytes]
    rw [Finmap.entries_insert_of_notMem (Finmap.lookup_eq_none.mp hnone), Finmap.entries_insert_of_notMem
      (Finmap.lookup_eq_none.mp (ha.nextBlockId ▸ ha.wf.lookup_next))]
    simp [hbytes, ha.bytesPerToken]

theorem allocate (ha : Alike pages s) (hroom : s.2.len < pages) (hn : n ≠ 0) : Alike pages ((Call.allocate n).run s) := by
  have ⟨offset, ho, hm⟩ := ha.metal_allocate hroom n
  have hi : s.1.allocate n = (.ok ⟨s.1.nextBlockId, n⟩, { s.1 with
      nextBlockId := s.1.nextBlockId + 1
      blocks := s.1.blocks.insert s.1.nextBlockId ⟨⟨s.1.nextBlockId, n⟩, n * s.1.bytesPerToken⟩ }) := if_neg hn
  have hbytes := ((allocate_agrees_iff ha hroom).mpr hn).left
  have hnone : s.2.blocks.lookup s.2.nextBlockId = none := by
    have := ha.lookup s.1.nextBlockId
    rw [ha.wf.lookup_next, ha.nextBlockId] at this
    simpa using this.symm
  have hlen := ha.len
  have hfree := ha.free
  have hpos : 0 < s.2.freeOffsets.length := by omega
  simp only [InMemoryKvStore.len, MetalKvStore.len] at hlen hfree
  have hwf := (InMemoryKvStore.allocate_ok ha.wf hi).left
  have hwf' := (MetalKvStore.allocate_ok ha.metalWf hm).left
  simp only [Call.run, hi, hm] at hbytes ⊢
  refine ⟨hwf, hwf', congrArg (· + 1) ha.nextBlockId, ha.bytesPerToken, fun k => ?_, ?_, hbytes, ?_⟩
  case refine_1 =>
    rw [Finmap.lookup_insert_eq_ite, Finmap.lookup_insert_eq_ite, ha.nextBlockId, ha.bytesPerToken, ha.lookup k]
    split <;> rfl
  case refine_2 =>
    simp only [InMemoryKvStore.len, MetalKvStore.len]
    rw [Finmap.entries_insert_of_notMem (Finmap.lookup_eq_none.mp hnone), Finmap.entries_insert_of_notMem
      (Finmap.lookup_eq_none.mp ha.wf.lookup_next)]
    simp [hlen]
  case refine_3 =>
    simp only [MetalKvStore.len]
    rw [Finmap.entries_insert_of_notMem (Finmap.lookup_eq_none.mp hnone), Multiset.card_cons, length_dropLast]
    omega

theorem lookup_eq_none (ha : Alike pages s) (k : Nat) :
    s.2.blocks.lookup k = none ↔ s.1.blocks.lookup k = none := by
  rw [ha.lookup k, Option.map_eq_none_iff]

-- An unknown id is an error of both, and changes nothing.
theorem release_none (ha : Alike pages s) (hnone : s.1.blocks.lookup h.blockId = none) :
    s.1.release h = (.error (.unknownBlock h), s.1) ∧ s.2.releaseBlock h = (.error (.unknownBlock h), s.2) := by
  constructor
  case left  => simp [InMemoryKvStore.release, hnone]
  case right => simp [MetalKvStore.releaseBlock, (ha.lookup_eq_none _).mpr hnone]

-- The block of a known id is released by the Metal store, whatever the handle is.
theorem release_some (ha : Alike pages s) {block : KvBlock} (hb : s.1.blocks.lookup h.blockId = some block) :
    ∃ offset, s.2.blocks.lookup h.blockId = some ⟨block.handle, block.bytes, offset⟩ ∧
      s.2.releaseBlock h = (.ok (), { s.2 with
        blocks := s.2.blocks.erase h.blockId
        freeOffsets := s.2.freeOffsets ++ [offset] }) := by
  have hl := ha.lookup h.blockId
  rw [hb] at hl
  have ⟨b, hb', he⟩ := Option.map_eq_some_iff.mp hl.symm
  refine ⟨b.offset, by rw [hb', ← he], ?_⟩
  simp [MetalKvStore.releaseBlock, hb']

theorem isSome_get_iff {block : KvBlock} (hb : s.1.blocks.lookup h.blockId = some block) :
    (s.1.get h).isSome ↔ block.handle = h := by
  simp [InMemoryKvStore.get, hb, Option.isSome_filter]

theorem erase_bytes (ha : Alike pages s) {block : KvBlock} (hb : s.1.blocks.lookup h.blockId = some block) :
    ((s.1.blocks.erase h.blockId).entries.map (·.2.bytes)).sum =
      ((s.2.blocks.erase h.blockId).entries.map (·.2.bytes)).sum ∧
    (s.1.blocks.erase h.blockId).entries.card = (s.2.blocks.erase h.blockId).entries.card := by
  have ⟨offset, hb', _⟩ := ha.release_some hb
  have hbytes := ha.bytes
  have hlen := ha.len
  simp only [InMemoryKvStore.allocatedBytes, MetalKvStore.allocatedBytes, InMemoryKvStore.len, MetalKvStore.len] at hbytes hlen
  rw [Finmap.entries_eq_cons_erase hb, Finmap.entries_eq_cons_erase hb'] at hbytes hlen
  simp only [Multiset.map_cons, Multiset.sum_cons, Multiset.card_cons] at hbytes hlen
  exact ⟨by omega, by omega⟩

theorem release_agrees_iff (ha : Alike pages s) :
    (Call.release h).Agrees s ↔ (s.1.get h).isSome ∨ s.1.blocks.lookup h.blockId = none := by
  cases hb : s.1.blocks.lookup h.blockId
  case none =>
    obtain ⟨hi, hm⟩ := ha.release_none hb
    refine iff_of_true ⟨?_, ?_⟩ (.inr rfl)
    case refine_1 => simp only [Call.run, hi, hm]; exact ha.bytes
    case refine_2 => simp only [hi, hm]; trivial
  case some block =>
    obtain ⟨offset, hb', hm⟩ := ha.release_some hb
    rw [isSome_get_iff hb]
    simp only [reduceCtorEq, or_false]
    by_cases hh : block.handle = h
    case pos =>
      refine iff_of_true ⟨?_, ?_⟩ hh
      case refine_1 =>
        simp only [Call.run, InMemoryKvStore.release, hb, hh, hm, ne_eq, not_true_eq_false, ↓reduceIte]
        exact (ha.erase_bytes hb).left
      case refine_2 => simp [InMemoryKvStore.release, hb, hh, hm, SameAnswer]
    case neg =>
      refine iff_of_false ?_ hh
      rintro ⟨_, hsame⟩
      simp [InMemoryKvStore.release, hb, hh, hm, SameAnswer] at hsame

theorem release (ha : Alike pages s) (hr : (s.1.get h).isSome ∨ s.1.blocks.lookup h.blockId = none) :
    Alike pages ((Call.release h).run s) := by
  cases hb : s.1.blocks.lookup h.blockId
  case none =>
    obtain ⟨hi, hm⟩ := ha.release_none hb
    simp only [Call.run, hi, hm]
    exact ha
  case some block =>
    obtain ⟨offset, hb', hm⟩ := ha.release_some hb
    rw [hb, isSome_get_iff hb] at hr
    have hh : block.handle = h := by simpa using hr
    have hl : s.1.Live h := InMemoryKvStore.live_iff.mpr ⟨block, hb, hh⟩
    have hl' : s.2.Live h := MetalKvStore.live_iff.mpr ⟨_, hb', hh⟩
    have hi : s.1.release h = (.ok (), { s.1 with blocks := s.1.blocks.erase h.blockId }) := by
      simp [InMemoryKvStore.release, hb, hh]
    obtain ⟨t, ht, hwf, _⟩ := InMemoryKvStore.release_ok ha.wf hl
    obtain ⟨t', ht', hwf', _⟩ := MetalKvStore.release_ok ha.metalWf hl'
    cases hi.symm.trans ht
    cases hm.symm.trans ht'
    obtain ⟨hbytes, hlen⟩ := ha.erase_bytes hb
    have hfree := ha.free
    simp only [MetalKvStore.len] at hfree
    rw [Finmap.entries_eq_cons_erase hb', Multiset.card_cons] at hfree
    simp only [Call.run, hi, hm]
    refine ⟨hwf, hwf', ha.nextBlockId, ha.bytesPerToken, fun k => ?_, hlen, hbytes, ?_⟩
    case refine_1 =>
      rw [Finmap.lookup_erase_eq_ite, Finmap.lookup_erase_eq_ite, ha.lookup k]
      split <;> rfl
    case refine_2 =>
      simp only [MetalKvStore.len, length_append, length_singleton]
      omega

end Alike

-- As long as there is a page for each block, the two stores are interchangeable just when no empty block is asked for,
-- and no block is released by a handle that only has its id.
theorem agrees_iff_regular (bytesPerToken pages pageTokens : Nat) (calls : List Call)
    (hroom : Steps.Along Call.run (Call.Roomy pages) (.new bytesPerToken, .new bytesPerToken pages pageTokens) calls) :
    Steps.Along Call.run Call.Agrees (.new bytesPerToken, .new bytesPerToken pages pageTokens) calls ↔
      Steps.Along Call.run Call.Regular (.new bytesPerToken, .new bytesPerToken pages pageTokens) calls := by
  refine Steps.along_iff_along hroom (alike_new bytesPerToken pages pageTokens) (fun s c ha hr => ?_) fun s c ha hr hreg => ?_
  case refine_1 =>
    cases c
    case allocate => exact ha.allocate_agrees_iff hr.right
    case release  => exact ha.release_agrees_iff
  case refine_2 =>
    cases c
    case allocate => exact ha.allocate hr.right hreg
    case release  => exact ha.release hreg

-- The second block is released by a handle with another length.
theorem agrees_iff_regular_three :
    let calls : List Call := [.allocate 3, .allocate 2, .release ⟨1, 3⟩, .release ⟨1, 3⟩, .release ⟨2, 1⟩]
    ¬Steps.Along Call.run Call.Agrees (.new 4, .new 4 2 4) calls := by
  intro calls h
  have hreg := (agrees_iff_regular 4 2 4 calls (by decide +kernel)).mp h
  revert hreg
  decide +kernel

-- The CPU store refuses an empty block, and the Metal store does not.
theorem exists_not_interchangeable : Steps.Along Call.run (Call.Roomy 1) (.new 4, .new 4 1 4) [.allocate 0] ∧
    ¬Steps.Along Call.run Call.Agrees (.new 4, .new 4 1 4) [.allocate 0] := by
  refine ⟨by decide +kernel, fun h => ?_⟩
  exact h.left.right

end KvStores
