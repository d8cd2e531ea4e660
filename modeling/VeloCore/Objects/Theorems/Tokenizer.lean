import VeloCore.Objects.Tokenizer

open List

-- Texts of characters of one byte
def Ascii (s : List Char) : Prop :=
  ∀ c ∈ s, c.utf8Size = 1

instance : DecidablePred Ascii :=
  fun s => decidable_of_iff (s.all fun c => c.utf8Size == 1) (by simp [Ascii])

section Bytes

variable {s sub rest : List Char} {c : Char} {i n : Nat}

@[simp]
theorem byteLen_nil : byteLen [] = 0 :=
  rfl

@[simp]
theorem byteLen_cons : byteLen (c :: s) = c.utf8Size + byteLen s := by
  simp [byteLen]

@[simp]
theorem byteLen_append : byteLen (sub ++ rest) = byteLen sub + byteLen rest := by
  simp [byteLen]

theorem byteLen_eq_zero : byteLen s = 0 ↔ s = [] := by
  cases s
  case nil => simp
  case cons c s =>
    have := c.utf8Size_pos
    simp
    omega

@[simp]
theorem splitAtByte_zero : splitAtByte s 0 = some ([], s) := by
  cases s <;> rfl

theorem splitAtByte_zero_eq_some : splitAtByte s 0 = some (sub, rest) ↔ sub ++ rest = s ∧ byteLen sub = 0 := by
  rw [splitAtByte_zero, byteLen_eq_zero]
  constructor
  case mp =>
    intro h
    cases h
    simp
  case mpr =>
    intro ⟨h, hnil⟩
    subst hnil
    rw [← h]
    rfl

-- What is not empty starts with the first character.
theorem append_eq_cons_iff_of_byteLen : sub ++ rest = c :: s ∧ byteLen sub = i + 1 ↔
    ∃ sub', sub = c :: sub' ∧ sub' ++ rest = s ∧ c.utf8Size + byteLen sub' = i + 1 := by
  constructor
  case mp =>
    intro ⟨happ, hlen⟩
    cases sub
    case nil => simp at hlen
    case cons c' sub' =>
      cases happ
      exact ⟨sub', rfl, rfl, hlen ▸ byteLen_cons.symm⟩
  case mpr =>
    intro ⟨sub', hsub, happ, hlen⟩
    rw [hsub, cons_append, happ, byteLen_cons]
    exact ⟨rfl, hlen⟩

-- A text is split where a character ends.
theorem splitAtByte_eq_some : splitAtByte s i = some (sub, rest) ↔ sub ++ rest = s ∧ byteLen sub = i := by
  induction s generalizing i sub
  case nil =>
    cases i
    case zero => exact splitAtByte_zero_eq_some
    case succ i =>
      refine iff_of_false (by simp [splitAtByte]) fun ⟨h, hlen⟩ => ?_
      rw [append_eq_nil_iff] at h
      simp [h.left] at hlen
  case cons c s hi =>
    cases i
    case zero => exact splitAtByte_zero_eq_some
    case succ i =>
      have hpos := c.utf8Size_pos
      rw [splitAtByte, append_eq_cons_iff_of_byteLen]
      split
      case isTrue hle =>
        rw [Option.map_eq_some_iff]
        constructor
        case mp =>
          intro ⟨(sub', rest'), h, heq⟩
          cases heq
          have ⟨happ, hlen⟩ := hi.mp h
          exact ⟨sub', rfl, happ, by omega⟩
        case mpr =>
          intro ⟨sub', hsub, happ, hlen⟩
          exact ⟨(sub', rest), hi.mpr ⟨happ, by omega⟩, by rw [hsub]⟩
      case isFalse hle => exact iff_of_false nofun fun ⟨_, _, _, hlen⟩ => by omega

theorem eq_of_splitAtByte_one (h : splitAtByte (c :: s) 1 = some (sub, rest)) : sub = [c] ∧ rest = s := by
  have ⟨happ, hlen⟩ := splitAtByte_eq_some.mp h
  cases sub
  case nil => simp at hlen
  case cons c' sub =>
    cases happ
    have hpos := c.utf8Size_pos
    have hzero : byteLen sub = 0 := by rw [byteLen_cons] at hlen; omega
    rw [byteLen_eq_zero.mp hzero]
    exact ⟨rfl, rfl⟩

theorem Ascii.of_append_right (h : Ascii (sub ++ rest)) : Ascii rest :=
  fun c hc => h c (mem_append_right _ hc)

theorem Ascii.byteLen_eq (h : Ascii s) : byteLen s = s.length := by
  induction s
  case nil => rfl
  case cons c s hi =>
    rw [byteLen_cons, length_cons, h c mem_cons_self, hi fun c' hc => h c' (mem_cons_of_mem c hc), Nat.add_comm]

-- Behind a prefix, any place is one to split at when all that follows is ASCII, and only then.
theorem isSome_splitAtByte (h : Ascii rest) (hi : byteLen sub ≤ i) (hn : i ≤ byteLen (sub ++ rest)) :
    (splitAtByte (sub ++ rest) i).isSome := by
  have htake : Ascii (rest.take (i - byteLen sub)) := fun c hc => h c (mem_of_mem_take hc)
  have hlen : byteLen (sub ++ rest.take (i - byteLen sub)) = i := by
    rw [byteLen_append, h.byteLen_eq] at hn
    rw [byteLen_append, htake.byteLen_eq, length_take]
    omega
  have hsplit := splitAtByte_eq_some.mpr ⟨(append_assoc ..).trans (congrArg (sub ++ ·) (take_append_drop ..)), hlen⟩
  rw [hsplit]
  rfl

theorem ascii_of_isSome (h : ∀ i, byteLen sub ≤ i → i ≤ byteLen (sub ++ rest) → (splitAtByte (sub ++ rest) i).isSome) :
    Ascii rest := by
  induction rest generalizing sub
  case nil => exact fun _ hc => absurd hc not_mem_nil
  case cons c rest hi =>
    have hpos := c.utf8Size_pos
    have hc : c.utf8Size = 1 := by
      have ⟨(sub', rest'), hsplit⟩ := Option.isSome_iff_exists.mp
        (h (byteLen sub + 1) (by omega) (by rw [byteLen_append, byteLen_cons]; omega))
      have ⟨happ, hlen⟩ := splitAtByte_eq_some.mp hsplit
      rcases append_eq_append_iff.mp happ with ⟨mid, hsub, _⟩ | ⟨mid, hsub, hrest⟩
      case inl =>
        rw [hsub, byteLen_append] at hlen
        omega
      case inr =>
        cases mid
        case nil =>
          rw [hsub, append_nil] at hlen
          omega
        case cons c' mid =>
          cases hrest
          rw [hsub, byteLen_append, byteLen_cons] at hlen
          omega
    have happ : sub ++ c :: rest = sub ++ [c] ++ rest := by simp
    have hrest : Ascii rest := @hi (sub ++ [c]) fun i hle hn => by
      rw [← happ] at hn ⊢
      exact h i (by rw [byteLen_append] at hle; omega) hn
    exact fun c' hc' => (mem_cons.mp hc').elim (· ▸ hc) (hrest c')

end Bytes

-- A part of a text that was encoded
inductive Piece
  | token (id : UInt32) (sub : List Char)
  | skipped (c : Char)
deriving DecidableEq

namespace Piece

def chars : Piece → List Char
  | token _ sub => sub
  | skipped c   => [c]

def id? : Piece → Option UInt32
  | token id _ => some id
  | skipped _  => none

-- What the ids stand for
def kept : Piece → List Char
  | token _ sub => sub
  | skipped _   => []

end Piece

-- The text is consumed from the left: always the longest known string, or a whole character where there is none.
inductive Segmented (known : List Char → Prop) : List Char → List Piece → Prop
  | nil : Segmented known [] []
  | token {id : UInt32} {sub rest : List Char} {pieces : List Piece} (ne : sub ≠ []) (known_sub : known sub)
      (longest : ∀ p, p <+: sub ++ rest → sub.length < p.length → ¬known p) (tail : Segmented known rest pieces) :
      Segmented known (sub ++ rest) (.token id sub :: pieces)
  | skipped {c : Char} {rest : List Char} {pieces : List Piece} (unknown : ∀ p, p <+: c :: rest → p ≠ [] → ¬known p)
      (tail : Segmented known rest pieces) : Segmented known (c :: rest) (.skipped c :: pieces)

namespace Segmented

variable {known known' : List Char → Prop} {s : List Char} {pieces : List Piece}

theorem flatMap_chars (h : Segmented known s pieces) : pieces.flatMap Piece.chars = s := by
  induction h
  case nil           => rfl
  case token hi      => rw [flatMap_cons, hi]; rfl
  case skipped hi    => rw [flatMap_cons, hi]; rfl

end Segmented

namespace Tokenizer

variable {t : Tokenizer} {s rest v : List Char} {id : UInt32} {ids : List UInt32} {n fuel : Nat}

-- The vocabulary has the string.
def Known (t : Tokenizer) (s : List Char) : Prop :=
  (t.tokenToId.lookup (String.ofList s)).isSome

-- A prefix that is not in the table is the only one of its length.
theorem not_known_of_lookup {sub p : List Char} (hsplit : splitAtByte s n = some (sub, rest))
    (hnone : t.tokenToId.lookup (String.ofList sub) = none) (hp : p <+: s) (hlen : byteLen p = n) : ¬t.Known p := by
  have ⟨rest', hrest'⟩ := hp
  cases hsplit.symm.trans (splitAtByte_eq_some.mpr ⟨hrest', hlen⟩)
  simp [Known, hnone]

theorem longest_eq_some (h : t.longest s n = .ok (some (id, rest))) : ∃ sub, sub ++ rest = s ∧ sub ≠ [] ∧ byteLen sub ≤ n ∧
    t.tokenToId.lookup (String.ofList sub) = some id ∧ (∀ i, byteLen sub ≤ i → i ≤ n → (splitAtByte s i).isSome) ∧
    ∀ p, p <+: s → byteLen sub < byteLen p → byteLen p ≤ n → ¬t.Known p := by
  induction n
  case zero => cases h
  case succ n hi =>
    rw [longest] at h
    split at h
    case h_1 => cases h
    case h_2 sub' rest' hsplit =>
      have ⟨happ, hlen⟩ := splitAtByte_eq_some.mp hsplit
      split at h
      case h_1 id' hid =>
        cases h
        refine ⟨sub', happ, fun hnil => ?_, hlen.le, hid, fun i hle hn => ?_, fun p _ hlt hn => ?_⟩
        case refine_1 => simp [hnil] at hlen
        case refine_2 =>
          have hi : i = n + 1 := by omega
          rw [hi, hsplit]
          rfl
        case refine_3 => omega
      case h_2 hnone =>
        have ⟨sub, happ', hne, hle, hid, hsplits, hmax⟩ := hi h
        refine ⟨sub, happ', hne, by omega, hid, fun i hle hn => ?_, fun p hp hlt hn => ?_⟩
        case refine_1 =>
          rcases Nat.le_succ_iff.mp hn with hn | hn
          case inl => exact hsplits i hle hn
          case inr => rw [hn, hsplit]; rfl
        case refine_2 =>
          rcases Nat.le_succ_iff.mp hn with hn | hn
          case inl => exact hmax p hp hlt hn
          case inr => exact not_known_of_lookup hsplit hnone hp hn

theorem longest_eq_none (h : t.longest s n = .ok none) :
    (∀ i ≤ n, (splitAtByte s i).isSome) ∧ ∀ p, p <+: s → p ≠ [] → byteLen p ≤ n → ¬t.Known p := by
  induction n
  case zero =>
    refine ⟨fun i hi => ?_, fun p _ hne hn => absurd (byteLen_eq_zero.mp (Nat.le_zero.mp hn)) hne⟩
    rw [Nat.le_zero.mp hi, splitAtByte_zero]
    rfl
  case succ n hi =>
    rw [longest] at h
    split at h
    case h_1 => cases h
    case h_2 sub' rest' hsplit =>
      split at h
      case h_1 => cases h
      case h_2 hnone =>
        have ⟨hsplits, hmax⟩ := hi h
        refine ⟨fun i hn => ?_, fun p hp hne hn => ?_⟩
        case refine_1 =>
          rcases Nat.le_succ_iff.mp hn with hn | hn
          case inl => exact hsplits i hn
          case inr => rw [hn, hsplit]; rfl
        case refine_2 =>
          rcases Nat.le_succ_iff.mp hn with hn | hn
          case inl => exact hmax p hp hne hn
          case inr => exact not_known_of_lookup hsplit hnone hp hn

-- The search does not get into a character that is followed, or made up, by a match.
theorem longest_ok (hv : v = [] ∨ t.Known v) (hascii : Ascii rest) (hn : byteLen v ≤ n) (hn' : n ≤ byteLen (v ++ rest)) :
    ∃ found, t.longest (v ++ rest) n = .ok found := by
  induction n
  case zero => exact ⟨none, rfl⟩
  case succ n hi =>
    have ⟨(sub', rest'), hsplit⟩ := Option.isSome_iff_exists.mp (isSome_splitAtByte hascii hn hn')
    simp only [longest, hsplit]
    split
    case h_1 id' _ => exact ⟨_, rfl⟩
    case h_2 hnone =>
      refine hi ?_ (by omega)
      by_contra hlt
      have hlen : byteLen v = n + 1 := by omega
      rcases hv with rfl | hknown
      case inl => simp at hlen
      case inr => exact not_known_of_lookup hsplit hnone (prefix_append ..) hlen hknown

theorem byteLen_lt_of_isPrefix {p q : List Char} (hp : p <+: s) (hq : q <+: s) (h : p.length < q.length) :
    byteLen p < byteLen q := by
  have ⟨mid, hmid⟩ := prefix_of_prefix_length_le hp hq h.le
  have hne : mid ≠ [] := fun hnil => by simp [← hmid, hnil] at h
  have hpos : byteLen mid ≠ 0 := fun hzero => hne (byteLen_eq_zero.mp hzero)
  rw [← hmid, byteLen_append]
  omega

theorem byteLen_le_of_isPrefix {p : List Char} (hp : p <+: s) : byteLen p ≤ byteLen s := by
  have ⟨rest, hrest⟩ := hp
  rw [← hrest, byteLen_append]
  omega

-- A round takes the longest match, or else one character that is a byte.
theorem encodeFrom_cons {c : Char} (h : t.encodeFrom (fuel + 1) (c :: s) = .ok ids) :
    (∃ id rest ids', t.longest (c :: s) (byteLen (c :: s)) = .ok (some (id, rest)) ∧ t.encodeFrom fuel rest = .ok ids' ∧
      ids = id :: ids') ∨
    (t.longest (c :: s) (byteLen (c :: s)) = .ok none ∧ t.encodeFrom fuel s = .ok ids) := by
  rw [encodeFrom] at h
  split at h
  case h_1 => cases h
  case h_2 id rest hfound =>
    cases hrest : t.encodeFrom fuel rest
    case error => simp [hrest, Except.map] at h
    case ok ids' =>
      simp only [hrest, Except.map, Except.ok.injEq] at h
      exact .inl ⟨id, rest, ids', hfound, hrest, h.symm⟩
  case h_3 hfound =>
    split at h
    case h_1 => cases h
    case h_2 sub rest hsplit =>
      rw [(eq_of_splitAtByte_one hsplit).right] at h
      exact .inr ⟨hfound, h⟩

-- What was encoded has been segmented, and the table has the ids of the pieces.
theorem segmented_of_encodeFrom (h : t.encodeFrom fuel s = .ok ids) : ∃ pieces, ids = pieces.filterMap Piece.id? ∧
    Segmented t.Known s pieces ∧ ∀ id sub, .token id sub ∈ pieces → t.tokenToId.lookup (String.ofList sub) = some id := by
  induction fuel generalizing s ids
  case zero =>
    cases s
    case nil  => cases h; exact ⟨[], rfl, .nil, by simp⟩
    case cons => cases h
  case succ fuel hi =>
    cases s
    case nil => cases h; exact ⟨[], rfl, .nil, by simp⟩
    case cons c s =>
      rcases encodeFrom_cons h with ⟨id, rest, ids', hfound, hrest, heq⟩ | ⟨hfound, hrest⟩
      case inl =>
        have ⟨sub, happ, hne, _, hid, _, hmax⟩ := longest_eq_some hfound
        have ⟨pieces, hids, hsegmented, htable⟩ := hi hrest
        refine ⟨.token id sub :: pieces, ?_, ?_, fun id' sub' hmem => ?_⟩
        case refine_1 => rw [heq, hids]; rfl
        case refine_2 =>
          rw [← happ] at hmax ⊢
          exact .token hne (by simp [Known, hid]) (fun p hp hlt => hmax p hp
            (byteLen_lt_of_isPrefix (prefix_append ..) hp hlt) (byteLen_le_of_isPrefix hp |>.trans (by rw [happ]))) hsegmented
        case refine_3 =>
          rcases mem_cons.mp hmem with heq | hmem
          case inl => cases heq; exact hid
          case inr => exact htable id' sub' hmem
      case inr =>
        have ⟨_, hmax⟩ := longest_eq_none hfound
        have ⟨pieces, hids, hsegmented, htable⟩ := hi hrest
        refine ⟨.skipped c :: pieces, hids, .skipped (fun p hp hne => hmax p hp hne (byteLen_le_of_isPrefix hp)) hsegmented, ?_⟩
        simpa using htable

-- What follows a match follows the string that is known, or is a part of what does.
theorem ascii_of_longest (hv : v = [] ∨ t.Known v) (hascii : Ascii rest) {rest' : List Char}
    (h : t.longest (v ++ rest) (byteLen (v ++ rest)) = .ok (some (id, rest'))) : Ascii rest' := by
  have ⟨sub, happ, hne, _, hid, _, hmax⟩ := longest_eq_some h
  have hv' : v <+: v ++ rest := prefix_append ..
  have hsub : sub <+: v ++ rest := happ ▸ prefix_append ..
  -- The match is not shorter than the one that is known.
  have hle : v.length ≤ sub.length := by
    by_contra hlt
    rcases hv with rfl | hknown
    case inl => simp at hlt
    case inr => exact hmax v hv' (byteLen_lt_of_isPrefix hsub hv' (by omega)) (byteLen_le_of_isPrefix hv') hknown
  have ⟨mid, hmid⟩ := prefix_of_prefix_length_le hv' hsub hle
  rw [← hmid, append_assoc] at happ
  rw [← append_cancel_left happ] at hascii
  exact hascii.of_append_right

theorem encodeFrom_ok (hv : v = [] ∨ t.Known v) (hascii : Ascii rest) (hfuel : (v ++ rest).length ≤ fuel) :
    ∃ ids, t.encodeFrom fuel (v ++ rest) = .ok ids := by
  induction fuel generalizing v rest
  case zero =>
    rw [length_eq_zero_iff.mp (Nat.le_zero.mp hfuel)]
    exact ⟨[], rfl⟩
  case succ fuel hi =>
    have ⟨found, hfound⟩ := longest_ok hv hascii (by simp) (Nat.le_refl (byteLen (v ++ rest)))
    cases found
    case some found =>
      have ⟨id, rest'⟩ := found
      have hrest' := ascii_of_longest hv hascii hfound
      have ⟨sub, happ, hne, _⟩ := longest_eq_some hfound
      generalize v ++ rest = s at hfuel hfound happ
      have hlen : rest'.length ≤ fuel := by
        have hpos := length_pos_iff.mpr hne
        rw [← happ, length_append] at hfuel
        omega
      have ⟨ids, hids⟩ := hi (v := []) (.inl rfl) hrest' hlen
      rw [nil_append] at hids
      cases s
      case nil => exact ⟨[], rfl⟩
      case cons =>
        refine ⟨id :: ids, ?_⟩
        rw [encodeFrom, hfound]
        simp [hids, Except.map]
    case none =>
      have hnil : v = [] := by
        by_contra hne
        have ⟨_, hmax⟩ := longest_eq_none hfound
        exact hmax v (prefix_append ..) hne (byteLen_le_of_isPrefix (prefix_append ..)) (hv.resolve_left hne)
      subst hnil
      rw [nil_append] at hfuel hfound ⊢
      cases rest
      case nil => exact ⟨[], rfl⟩
      case cons c s =>
        have hsplit : splitAtByte (c :: s) 1 = some ([c], s) :=
          splitAtByte_eq_some.mpr ⟨rfl, by simp [hascii c mem_cons_self]⟩
        have hs : Ascii s := fun c' hc => hascii c' (mem_cons_of_mem c hc)
        have ⟨ids, hids⟩ := hi (v := []) (.inl rfl) hs (Nat.le_of_succ_le_succ hfuel)
        rw [nil_append] at hids
        refine ⟨ids, ?_⟩
        rw [encodeFrom, hfound]
        simp [hsplit, hids]

-- The search for the first match splits the text at all places behind it.
theorem ascii_of_encodeFrom (h : t.encodeFrom fuel s = .ok ids) :
    ∃ v rest, v ++ rest = s ∧ (v = [] ∨ t.Known v) ∧ Ascii rest := by
  cases s
  case nil => exact ⟨[], [], rfl, .inl rfl, fun _ hc => absurd hc not_mem_nil⟩
  case cons c s =>
    cases fuel
    case zero => cases h
    case succ fuel =>
      rcases encodeFrom_cons h with ⟨id, rest, _, hfound, _⟩ | ⟨hfound, _⟩
      case inl =>
        have ⟨sub, happ, _, _, hid, hsplits, _⟩ := longest_eq_some hfound
        rw [← happ] at hsplits
        exact ⟨sub, rest, happ, .inr (by simp [Known, hid]), ascii_of_isSome hsplits⟩
      case inr =>
        have ⟨hsplits, _⟩ := longest_eq_none hfound
        exact ⟨[], c :: s, rfl, .inl rfl, @ascii_of_isSome [] (c :: s) fun i _ hi => hsplits i hi⟩

-- `encode` returns, and its ids are those of the pieces that it consumed.
def Encodes (t : Tokenizer) (text : String) : Prop :=
  ∃ pieces, t.encode text = .ok (pieces.filterMap Piece.id?) ∧ Segmented t.Known text.toList pieces ∧
    ∀ id sub, .token id sub ∈ pieces → t.tokenToId.lookup (String.ofList sub) = some id

-- The candidates get shorter by a byte at a time. None of them ends inside of a character just when all characters behind the
-- first match are ASCII.
theorem encodes_iff (t : Tokenizer) (text : String) :
    Encodes t text ↔ ∃ v rest, text.toList = v ++ rest ∧ (v = [] ∨ t.Known v) ∧ Ascii rest := by
  constructor
  case mp =>
    intro ⟨_, h, _⟩
    have ⟨v, rest, happ, hv, hascii⟩ := ascii_of_encodeFrom h
    exact ⟨v, rest, happ.symm, hv, hascii⟩
  case mpr =>
    intro ⟨v, rest, happ, hv, hascii⟩
    have ⟨ids, hids⟩ := encodeFrom_ok hv hascii (Nat.le_refl _)
    rw [← happ] at hids
    have ⟨pieces, heq, hsegmented, htable⟩ := segmented_of_encodeFrom hids
    exact ⟨pieces, heq ▸ hids, hsegmented, htable⟩

-- A character of two bytes that the vocabulary has not
theorem exists_not_encodes : ¬Encodes ⟨["a"], Finmap.singleton "a" 0, none⟩ "é" := by
  intro ⟨_, h, _⟩
  have hpanic : Tokenizer.encode ⟨["a"], Finmap.singleton "a" 0, none⟩ "é" = .error .panic := by decide
  cases hpanic.symm.trans h

-- The vocabulary of a file, and what is made of it
section Vocabulary

variable {vocab : List String} {file : GgufFile} {s : String} {id : UInt32}

-- A file with an array of strings as its tokens
def HasVocab (file : GgufFile) (vocab : List String) : Prop :=
  file.metadata.lookup "tokenizer.ggml.tokens" = some (.array (vocab.map .string))

def idTable (vocab : List String) : Finmap fun _ : String => UInt32 :=
  (vocab.map GgufValue.string).zipIdx.foldl (fun m (val, id) => val.asStr.elim m fun s => m.insert s (.ofNat id)) ∅

theorem idTable_append (vocab : List String) (a : String) :
    idTable (vocab ++ [a]) = (idTable vocab).insert a (.ofNat vocab.length) := by
  simp [idTable, zipIdx_append, GgufValue.asStr]

theorem getElem?_of_lookup_idTable (h : (idTable vocab).lookup s = some id) :
    ∃ i : Nat, vocab[i]? = some s ∧ id = .ofNat i := by
  induction vocab using List.reverseRecOn
  case nil => simp [idTable] at h
  case append_singleton vocab a hi =>
    rw [idTable_append, Finmap.lookup_insert_eq_ite] at h
    split at h
    case isTrue hs  => exact ⟨vocab.length, by simp [hs], (Option.some.inj h).symm⟩
    case isFalse hs =>
      have ⟨i, hget, hid⟩ := hi h
      exact ⟨i, by rw [getElem?_append_left (List.getElem?_eq_some_iff.mp hget).1, hget], hid⟩

theorem isSome_lookup_idTable : ((idTable vocab).lookup s).isSome ↔ s ∈ vocab := by
  induction vocab using List.reverseRecOn
  case nil => simp [idTable]
  case append_singleton vocab a hi =>
    rw [idTable_append, Finmap.lookup_insert_eq_ite, mem_append, mem_singleton, ← hi]
    split
    case isTrue hs  => simp [hs]
    case isFalse hs => simp [hs]

theorem tokens_fromGguf (h : HasVocab file vocab) : (fromGguf file).tokens = vocab := by
  rw [HasVocab] at h
  simp only [fromGguf, h, Option.bind_some, GgufValue.asArray, Option.getD_some, filterMap_map]
  exact filterMap_some

theorem tokenToId_fromGguf (h : HasVocab file vocab) : (fromGguf file).tokenToId = idTable vocab := by
  rw [HasVocab] at h
  simp only [fromGguf, h, Option.bind_some, GgufValue.asArray, Option.getD_some, idTable]

theorem known_fromGguf (h : HasVocab file vocab) {s : List Char} : (fromGguf file).Known s ↔ String.ofList s ∈ vocab := by
  rw [Known, tokenToId_fromGguf h, isSome_lookup_idTable]

-- Both tables have a string under the same id, as long as the ids have room for all strings.
theorem idToToken_fromGguf (h : HasVocab file vocab) (hlen : vocab.length ≤ 2 ^ 32)
    (hid : (fromGguf file).tokenToId.lookup s = some id) : (fromGguf file).idToToken id = s := by
  rw [tokenToId_fromGguf h] at hid
  have ⟨i, hget, heq⟩ := getElem?_of_lookup_idTable hid
  have hi := (List.getElem?_eq_some_iff.mp hget).1
  have hnat : id.toNat = i := by rw [heq]; exact UInt32.toNat_ofNat_of_lt' (by rw [UInt32.size]; omega)
  rw [idToToken, tokens_fromGguf h, hnat, hget, Option.getD_some]

-- The longest strings of the vocabulary one after another: what their ids stand for is the text without the characters at which
-- there is none.
def LongestMatch (vocab : List String) (text : String) : Prop :=
  ∀ file, HasVocab file vocab → ∃ pieces ids, (fromGguf file).encode text = .ok ids ∧ ids = pieces.filterMap Piece.id? ∧
    Segmented (fun s => String.ofList s ∈ vocab) text.toList pieces ∧ pieces.flatMap Piece.chars = text.toList ∧
    (∀ id sub, .token id sub ∈ pieces → (fromGguf file).idToToken id = String.ofList sub) ∧
    ids.flatMap (fun id => ((fromGguf file).idToToken id).toList) = pieces.flatMap Piece.kept

theorem longestMatch (vocab : List String) (hlen : vocab.length ≤ 2 ^ 32) (text : String) (hascii : Ascii text.toList) :
    LongestMatch vocab text := by
  intro file h
  have ⟨pieces, hids, hsegmented, htable⟩ := (encodes_iff (fromGguf file) text).mpr ⟨[], text.toList, rfl, .inl rfl, hascii⟩
  have hknown : (fromGguf file).Known = fun s => String.ofList s ∈ vocab := funext fun _ => propext (known_fromGguf h)
  have htoken (id sub) (hmem : Piece.token id sub ∈ pieces) : (fromGguf file).idToToken id = String.ofList sub :=
    idToToken_fromGguf h hlen (htable id sub hmem)
  refine ⟨pieces, _, hids, rfl, hknown ▸ hsegmented, hsegmented.flatMap_chars, htoken, ?_⟩
  clear hids hsegmented htable
  induction pieces
  case nil => rfl
  case cons piece pieces hi =>
    have htail := hi fun id sub hmem => htoken id sub (mem_cons_of_mem piece hmem)
    cases piece
    case token id sub =>
      have hhead := htoken id sub mem_cons_self
      have hids : (Piece.token id sub :: pieces).filterMap Piece.id? = id :: pieces.filterMap Piece.id? := rfl
      rw [hids, flatMap_cons, flatMap_cons, htail, hhead, String.toList_ofList]
      rfl
    case skipped c =>
      have hids : (Piece.skipped c :: pieces).filterMap Piece.id? = pieces.filterMap Piece.id? := rfl
      rw [hids, flatMap_cons, htail]
      rfl

theorem longestMatch_repeated : LongestMatch ["a", "", "ab", "a"] "abza" :=
  longestMatch _ (by simp) _ (by decide +kernel)

-- The last string has the id of the first one.
theorem not_longestMatch {n : Nat} (hpos : 0 < n) (hn : UInt32.ofNat n = 0) : ¬LongestMatch (replicate n "a" ++ ["b"]) "b" := by
  intro h
  let file : GgufFile := ⟨3, Finmap.singleton "tokenizer.ggml.tokens" (.array ((replicate n "a" ++ ["b"]).map .string)), ∅, 0⟩
  have hvocab : HasVocab file (replicate n "a" ++ ["b"]) := Finmap.lookup_singleton_eq
  have ⟨pieces, ids, hencode, _, _, hchars, _, hkept⟩ := h file hvocab
  have htable : (fromGguf file).tokenToId.lookup (String.ofList ['b']) = some 0 := by
    rw [tokenToId_fromGguf hvocab, idTable_append, length_replicate, hn]
    exact Finmap.lookup_insert _
  have hids : (fromGguf file).encode "b" = .ok [0] := by
    have hsplit : splitAtByte ['b'] 1 = some (['b'], []) := by decide
    have hfound : (fromGguf file).longest ['b'] 1 = .ok (some (0, [])) := by simp [longest, hsplit, htable]
    have htext : "b".toList = ['b'] := by decide
    have hlen : byteLen ['b'] = 1 := by decide
    rw [encode, htext, length_singleton, encodeFrom, hlen, hfound]
    rfl
  cases hencode.symm.trans hids
  have hfirst : (fromGguf file).idToToken 0 = "a" := by
    have ⟨m, hm⟩ := Nat.exists_eq_succ_of_ne_zero hpos.ne'
    rw [idToToken, tokens_fromGguf hvocab, hm, replicate_succ]
    rfl
  have hsubset : pieces.flatMap Piece.kept ⊆ pieces.flatMap Piece.chars := by
    intro c hc
    have ⟨piece, hmem, hc⟩ := mem_flatMap.mp hc
    refine mem_flatMap.mpr ⟨piece, hmem, ?_⟩
    cases piece
    case token   => exact hc
    case skipped => exact absurd hc not_mem_nil
  rw [← hkept, hchars, flatMap_singleton, hfirst] at hsubset
  have ha : 'a' ∈ "b".toList := hsubset (by decide)
  revert ha
  decide

-- One string more than there are ids
theorem exists_not_longestMatch : ¬∀ vocab text, Ascii text.toList → LongestMatch vocab text := fun h =>
  not_longestMatch (n := 2 ^ 32) (by decide) (by decide) (h _ "b" (by decide +kernel))

end Vocabulary
end Tokenizer
