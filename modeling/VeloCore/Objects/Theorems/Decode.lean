import Mathlib
import VeloCore.Objects.Theorems.Tokenizer

open List

-- When all characters are strings of the vocabulary, none is skipped.
theorem Segmented.kept_eq_chars {known : List Char → Prop} {s : List Char} {pieces : List Piece} (h : Segmented known s pieces)
    (hchars : ∀ c ∈ s, known [c]) : pieces.flatMap Piece.kept = pieces.flatMap Piece.chars := by
  induction h
  case nil => rfl
  case token hi =>
    rw [flatMap_cons, flatMap_cons, hi fun c hc => hchars c (mem_append_right _ hc)]
    rfl
  case skipped c rest _ hunknown _ _ =>
    have hprefix : [c] <+: c :: rest := ⟨rest, rfl⟩
    exact absurd (hchars c mem_cons_self) (hunknown [c] hprefix (cons_ne_nil c []))

namespace Tokenizer

variable {t : Tokenizer} {pieces : List Piece} {vocab : List String} {file : GgufFile} {s text : String} {id : UInt32}

theorem toList_decode (t : Tokenizer) (ids : List UInt32) :
    (t.decode ids).toList = ids.flatMap fun id => t.tokens[id.toNat]?.elim [] String.toList := by
  have hfold (result : String) : (ids.foldl (fun result id => t.tokens[id.toNat]?.elim result fun s => result ++ s) result).toList =
      result.toList ++ ids.flatMap fun id => t.tokens[id.toNat]?.elim [] String.toList := by
    induction ids generalizing result
    case nil => simp
    case cons id ids hi =>
      rw [foldl_cons, hi, flatMap_cons]
      cases t.tokens[id.toNat]? <;> simp
  have hblank : (fun c : Char => if c = ' ' then ' ' else c) = id := by
    funext c
    split
    case isTrue h  => exact h.symm
    case isFalse   => rfl
  rw [decode, String.toList_ofList, hfold, hblank, map_id]
  exact nil_append _

-- What is streamed in parts comes to the whole text, wherever the parts end.
theorem flatMap_decode (t : Tokenizer) (chunks : List (List UInt32)) :
    chunks.flatMap (fun chunk => (t.decode chunk).toList) = (t.decode chunks.flatten).toList := by
  rw [toList_decode, flatten_eq_flatMap, flatMap_assoc]
  exact flatMap_congr fun chunk _ => toList_decode t chunk

-- Both tables have a string under the same id.
theorem getElem?_tokens_fromGguf (h : HasVocab file vocab) (hlen : vocab.length ≤ 2 ^ 32)
    (hid : (fromGguf file).tokenToId.lookup s = some id) : (fromGguf file).tokens[id.toNat]? = some s := by
  rw [tokenToId_fromGguf h] at hid
  obtain ⟨i, hget, heq⟩ := getElem?_of_lookup_idTable hid
  obtain ⟨hi, _⟩ := List.getElem?_eq_some_iff.mp hget
  have hnat : id.toNat = i := by rw [heq]; exact UInt32.toNat_ofNat_of_lt' (by rw [UInt32.size]; omega)
  rw [tokens_fromGguf h, hnat, hget]

-- What the ids of the pieces are decoded to
theorem decode_pieces (h : ∀ id sub, .token id sub ∈ pieces → t.tokens[id.toNat]? = some (String.ofList sub)) :
    (t.decode (pieces.filterMap Piece.id?)).toList = pieces.flatMap Piece.kept := by
  rw [toList_decode]
  induction pieces
  case nil => rfl
  case cons piece pieces hi =>
    have htail := hi fun id sub hmem => h id sub (mem_cons_of_mem piece hmem)
    cases piece
    case token id sub =>
      have hids : (Piece.token id sub :: pieces).filterMap Piece.id? = id :: pieces.filterMap Piece.id? := rfl
      rw [hids, flatMap_cons, htail, h id sub mem_cons_self, Option.elim_some, String.toList_ofList]
      rfl
    case skipped c => exact htail

-- With a vocabulary that has the characters of a text, the text survives: whatever `encode` returns is decoded to it, also when
-- it is decoded in parts, and for ASCII it does return.
theorem decode_encode (h : HasVocab file vocab) (hlen : vocab.length ≤ 2 ^ 32)
    (hchars : ∀ c ∈ text.toList, String.ofList [c] ∈ vocab) :
    (Ascii text.toList → ∃ ids, (fromGguf file).encode text = .ok ids) ∧
    ∀ ids, (fromGguf file).encode text = .ok ids → ∀ chunks : List (List UInt32), chunks.flatten = ids →
      chunks.flatMap (fun chunk => ((fromGguf file).decode chunk).toList) = text.toList := by
  refine ⟨fun hascii => encodeFrom_ok (.inl rfl) hascii (Nat.le_refl _), fun ids hids chunks hchunks => ?_⟩
  obtain ⟨pieces, heq, hsegmented, htable⟩ := segmented_of_encodeFrom hids
  have hkept : pieces.flatMap Piece.kept = pieces.flatMap Piece.chars :=
    hsegmented.kept_eq_chars fun c hc => (known_fromGguf h).mpr (hchars c hc)
  rw [flatMap_decode, hchunks, heq, decode_pieces fun id sub hmem => getElem?_tokens_fromGguf h hlen (htable id sub hmem), hkept,
    hsegmented.flatMap_chars]

-- A vocabulary with a string of two characters and one that is there twice
theorem decode_encode_blank :
    [[3], [4, 2]].flatMap (fun chunk => ((fromGguf ⟨3, Finmap.singleton "tokenizer.ggml.tokens"
      (.array (["a", " ", "b", "a ", "a"].map .string)), ∅, 0⟩).decode chunk).toList) = "a ab".toList := by
  have h : HasVocab ⟨3, Finmap.singleton "tokenizer.ggml.tokens" (.array (["a", " ", "b", "a ", "a"].map .string)), ∅, 0⟩
      ["a", " ", "b", "a ", "a"] := Finmap.lookup_singleton_eq
  have htext : "a ab".toList = ['a', ' ', 'a', 'b'] := by decide
  have hchars : ∀ c ∈ "a ab".toList, String.ofList [c] ∈ ["a", " ", "b", "a ", "a"] := by
    rw [htext]
    simp only [forall_mem_cons, not_mem_nil, IsEmpty.forall_iff, implies_true, and_true]
    decide
  exact (decode_encode h (by decide) hchars).right [3, 4, 2] (by decide +kernel) [[3], [4, 2]] rfl

end Tokenizer
