import VeloCore.Execution.Benchmark.Basic
import VeloCore.Primitives.Finmap

open List

namespace Benchmark

-- `str::parse` for unsigned integers up to `max`
inductive IntErrorKind
  | empty
  | invalidDigit
  | posOverflow
deriving DecidableEq, Repr

def IntErrorKind.message : IntErrorKind → String
  | empty        => "cannot parse integer from empty string"
  | invalidDigit => "invalid digit found in string"
  | posOverflow  => "number too large to fit in target type"

def parseDigits (max : Nat) : Nat → List Char → Except IntErrorKind Nat
  | n, [] => .ok n
  | n, c :: cs =>
    if c.isDigit then
      if max < 10 * n + (c.toNat - '0'.toNat) then .error .posOverflow else parseDigits max (10 * n + (c.toNat - '0'.toNat)) cs
    else
      .error .invalidDigit

-- One sign is allowed before the digits.
def parseUnsigned (max : Nat) (s : String) : Except IntErrorKind Nat :=
  if s.toList = [] then
    .error .empty
  else if s.toList.head? = some '+' ∧ s.toList.tail ≠ [] then
    parseDigits max 0 s.toList.tail
  else
    parseDigits max 0 s.toList

-- `str::lines`, with what was read of the current line. The end of a line may have two characters.
def lines : List Char → List Char → List (List Char)
  | current, [] => if current = [] then [] else [current]
  | current, c :: rest =>
    if c = '\n' then
      (if current.getLast? = some '\r' then current.dropLast else current) :: lines [] rest
    else
      lines (current ++ [c]) rest

-- `char::is_whitespace`
def isWhitespace (c : Char) : Bool :=
  (9 ≤ c.toNat && c.toNat ≤ 13) || (0x2000 ≤ c.toNat && c.toNat ≤ 0x200a) ||
    [0x20, 0x85, 0xa0, 0x1680, 0x2028, 0x2029, 0x202f, 0x205f, 0x3000].contains c.toNat

-- The numbers of the type `φ` are `f64`s.
structure LlamaBenchRow (φ : Type) where
  modelFilename : String
  backend : String
  test : String
  nPrompt : Nat
  nGen : Nat
  nDepth : Nat
  avgNs : Nat
  stddevNs : Nat
  avgTs : φ
  stddevTs : φ
deriving DecidableEq, Repr

-- What the comparison reads and writes of a row, and what its name was made of
structure BenchmarkRow (φ : Type) where
  test : String
  mode : BenchmarkMode
  promptLen : Nat
  genLen : Nat
  cachedDepth : Nat
  avgTs : φ
  baselineAvgTs : Option φ
  speedupVsBaseline : Option φ
deriving DecidableEq, Repr

def formatMode (mode : BenchmarkMode) (promptLen genLen cachedDepth : Nat) : String :=
  let test :=
    match mode with
    | .promptProcessing     => "pp" ++ toString promptLen
    | .generation           => "tg" ++ toString genLen
    | .promptPlusGeneration => "pp" ++ toString promptLen ++ "+tg" ++ toString genLen
  if 0 < cachedDepth then test ++ (" @ d" ++ toString cachedDepth) else test

def formatLlamaTest (nPrompt nGen nDepth : Nat) : String :=
  let test :=
    if 0 < nPrompt ∧ nGen = 0 then
      "pp" ++ toString nPrompt
    else if 0 < nGen ∧ nPrompt = 0 then
      "tg" ++ toString nGen
    else
      "pp" ++ toString nPrompt ++ "+tg" ++ toString nGen
  if 0 < nDepth then test ++ (" @ d" ++ toString nDepth) else test

-- The loop of `parse_csv_line`, with the current field and whether it is in quotes
def parseCsvFrom : Bool → List Char → List Char → List String
  | _, current, [] => [.ofList current]
  | inQuotes, current, ch :: rest =>
    if ch = '"' then
      match rest with
      | [] => parseCsvFrom (!inQuotes) current []
      | next :: rest =>
        if inQuotes ∧ next = '"' then
          parseCsvFrom inQuotes (current ++ ['"']) rest
        else
          parseCsvFrom (!inQuotes) current (next :: rest)
    else if ch = ',' ∧ ¬inQuotes then
      .ofList current :: parseCsvFrom inQuotes [] rest
    else
      parseCsvFrom inQuotes (current ++ [ch]) rest

def parseCsvLine (line : List Char) : List String :=
  parseCsvFrom false [] line

-- `parse_usize`, `parse_u128`
def parseField (max : Nat) (value : Option String) (field : String) : Except String Nat :=
  match value with
  | none => .error s!"missing {field}"
  | some value =>
    match parseUnsigned max value with
    | .error error => .error s!"failed to parse {field}: {error.message}"
    | .ok n        => .ok n

def parseUsize (value : Option String) (field : String) : Except String Nat :=
  parseField (2 ^ 64 - 1) value field

def parseU128 (value : Option String) (field : String) : Except String Nat :=
  parseField (2 ^ 128 - 1) value field

section Float

variable {φ : Type} (parseFloat : String → Except String φ)

-- `parseFloat` is `str::parse`, with the texts of its errors.
def parseF64 (value : Option String) (field : String) : Except String φ :=
  match value with
  | none => .error s!"missing {field}"
  | some value =>
    match parseFloat value with
    | .error error => .error s!"failed to parse {field}: {error}"
    | .ok x        => .ok x

def parseLlamaRow (headers : List String) (line : List Char) : Except String (LlamaBenchRow φ) := do
  let map : Finmap fun _ : String => String :=
    (headers.zip (parseCsvLine line)).foldl (fun map field => map.insert field.1 field.2) ∅
  let modelFilename := (map.lookup "model_filename").getD ""
  let backend := (map.lookup "backends").getD ""
  let nPrompt ← parseUsize (map.lookup "n_prompt") "n_prompt"
  let nGen ← parseUsize (map.lookup "n_gen") "n_gen"
  let nDepth ← parseUsize (map.lookup "n_depth") "n_depth"
  let avgNs ← parseU128 (map.lookup "avg_ns") "avg_ns"
  let stddevNs ← parseU128 (map.lookup "stddev_ns") "stddev_ns"
  let avgTs ← parseF64 parseFloat (map.lookup "avg_ts") "avg_ts"
  let stddevTs ← parseF64 parseFloat (map.lookup "stddev_ts") "stddev_ts"
  pure { modelFilename, backend, test := formatLlamaTest nPrompt nGen nDepth, nPrompt, nGen, nDepth, avgNs, stddevNs, avgTs, stddevTs }

def parseLlamaCsv (input : String) : Except String (List (LlamaBenchRow φ)) :=
  match (lines [] input.toList).filter (fun line => !line.all isWhitespace) with
  | []              => .ok []
  | header :: lines => lines.mapM (parseLlamaRow parseFloat (parseCsvLine header))

variable [Zero φ] [LT φ] [DecidableLT φ] [Div φ]

def BenchmarkRow.compareWith (row : BenchmarkRow φ) (baseline : Option (LlamaBenchRow φ)) : BenchmarkRow φ :=
  match baseline with
  | none => row
  | some baseline =>
    { row with
      baselineAvgTs := some baseline.avgTs
      speedupVsBaseline := if 0 < baseline.avgTs then some (row.avgTs / baseline.avgTs) else none }

-- The rows are changed in place, and the rows of the other program are returned.
def compareWithLlamaCsv (rows : List (BenchmarkRow φ)) (llamaCsv : String) :
    Except String (List (LlamaBenchRow φ)) × List (BenchmarkRow φ) :=
  match parseLlamaCsv parseFloat llamaCsv with
  | .error e => (.error e, rows)
  | .ok baselineRows =>
    let baselineByTest : Finmap fun _ : String => LlamaBenchRow φ :=
      baselineRows.foldl (fun map row => map.insert row.test row) ∅
    (.ok baselineRows, rows.map fun row => row.compareWith (baselineByTest.lookup row.test))

end Float

end Benchmark
