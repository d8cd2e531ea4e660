import VeloCore.Objects.Gguf.File
import VeloCore.Primitives.Eff

open List

structure Tokenizer where
  tokens : List String
  tokenToId : Finmap fun _ : String => UInt32
  chatTemplate : Option String

-- The bytes of a text in UTF-8
def byteLen (s : List Char) : Nat :=
  (s.map Char.utf8Size).sum

-- `(&s[..i], &s[i..])`, where `i` counts bytes. There is no such place inside of a character.
def splitAtByte : List Char → Nat → Option (List Char × List Char)
  | s, 0 => some ([], s)
  | [], _ + 1 => none
  | c :: s, i + 1 =>
    if c.utf8Size ≤ i + 1 then
      (splitAtByte s (i + 1 - c.utf8Size)).map fun (sub, rest) => (c :: sub, rest)
    else
      none

namespace Tokenizer

-- The ids count all entries of the array, the tokens only those that are strings. Of equal ones, the last is kept in the table.
def fromGguf (file : GgufFile) : Tokenizer :=
  let array := ((file.metadata.lookup "tokenizer.ggml.tokens").bind GgufValue.asArray).getD []
  { tokens := array.filterMap GgufValue.asStr
    tokenToId := array.zipIdx.foldl (fun m (val, id) => val.asStr.elim m fun s => m.insert s (.ofNat id)) ∅
    chatTemplate := (file.metadata.lookup "tokenizer.chat_template").bind GgufValue.asStr }

variable (t : Tokenizer)

def vocabSize : Nat :=
  t.tokens.length

def idToToken (id : UInt32) : String :=
  t.tokens[id.toNat]?.getD "<unk>"

-- `for i in (1..=n).rev()`: the first match with what remains behind it
def longest (remaining : List Char) : Nat → Except (Fault Empty) (Option (UInt32 × List Char))
  | 0 => .ok none
  | i + 1 =>
    match splitAtByte remaining (i + 1) with
    | none => .error .panic
    | some (sub, rest) =>
      match t.tokenToId.lookup (String.ofList sub) with
      | some id => .ok (some (id, rest))
      | none    => longest remaining i

-- The loop takes at least a character in each round, so it ends before it is cut off.
def encodeFrom : Nat → List Char → Except (Fault Empty) (List UInt32)
  | _, [] => .ok []
  | 0, _ :: _ => .error .unfinished
  | fuel + 1, c :: s =>
    match t.longest (c :: s) (byteLen (c :: s)) with
    | .error e => .error e
    | .ok (some (id, rest)) => (encodeFrom fuel rest).map (id :: ·)
    | .ok none =>
      match splitAtByte (c :: s) 1 with
      | none           => .error .panic
      | some (_, rest) => encodeFrom fuel rest

def encode (text : String) : Except (Fault Empty) (List UInt32) :=
  t.encodeFrom text.toList.length text.toList

-- The source replaces blanks by blanks.
def decode (tokens : List UInt32) : String :=
  let result := tokens.foldl (fun result id => t.tokens[id.toNat]?.elim result fun s => result ++ s) ""
  .ofList (result.toList.map fun c => if c = ' ' then ' ' else c)

end Tokenizer
