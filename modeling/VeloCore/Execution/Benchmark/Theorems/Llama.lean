import Mathlib
import VeloCore.Execution.Benchmark.Llama
import VeloCore.Primitives.Slices

open List

namespace Benchmark

-- Numbers as they are written

theorem parseDigits_ok {max n : Nat} {cs : List Char} (hdigits : ∀ c ∈ cs, c.isDigit) (hmax : Nat.ofDigitChars 10 cs n ≤ max) :
    parseDigits max n cs = .ok (Nat.ofDigitChars 10 cs n) := by
  induction cs generalizing n
  case nil => rfl
  case cons c cs hi =>
    have hle (m : Nat) : m ≤ Nat.ofDigitChars 10 cs m := by
      rw [Nat.ofDigitChars_eq_ofDigitChars_zero]
      exact Nat.le_add_right_of_le (Nat.le_mul_of_pos_left m (Nat.pow_pos (by decide)))
    rw [Nat.ofDigitChars_cons] at hmax ⊢
    rw [parseDigits, if_pos (hdigits c mem_cons_self), if_neg (Nat.not_lt.mpr ((hle _).trans hmax))]
    exact hi (fun c' hc => hdigits c' (mem_cons_of_mem c hc)) hmax

theorem parseUnsigned_toString {max n : Nat} (h : n ≤ max) : parseUnsigned max (toString n) = .ok n := by
  have hlist : (toString n).toList = Nat.toDigits 10 n := Nat.toList_repr
  have hdigits : ∀ c ∈ Nat.toDigits 10 n, c.isDigit := fun c hc => Nat.isDigit_of_mem_toDigits (by decide) (by decide) hc
  have hsign : ¬((toString n).toList.head? = some '+' ∧ (toString n).toList.tail ≠ []) := by
    rintro ⟨hhead, _⟩
    rw [hlist] at hhead
    have hplus := hdigits '+' (mem_of_head? hhead)
    revert hplus
    decide
  rw [parseUnsigned, if_neg (by rw [hlist]; exact Nat.toDigits_ne_nil), if_neg hsign, hlist,
    parseDigits_ok hdigits (by rwa [Nat.ofDigitChars_ten_toDigits]), Nat.ofDigitChars_ten_toDigits]

-- Numbers that are followed by something else are told apart.
theorem toDigits_append_inj {a b : Nat} {x y : List Char} (hx : ∀ c ∈ x.head?, c.isDigit = false)
    (hy : ∀ c ∈ y.head?, c.isDigit = false) (h : Nat.toDigits 10 a ++ x = Nat.toDigits 10 b ++ y) : a = b ∧ x = y := by
  have htake {n : Nat} {z : List Char} (hz : ∀ c ∈ z.head?, c.isDigit = false) :
      (Nat.toDigits 10 n ++ z).takeWhile Char.isDigit = Nat.toDigits 10 n := by
    have hdigits : ∀ c ∈ Nat.toDigits 10 n, c.isDigit := fun c hc => Nat.isDigit_of_mem_toDigits (by decide) (by decide) hc
    rw [takeWhile_append_of_pos hdigits]
    cases z
    case nil      => simp
    case cons c z => simp [hz c (by simp)]
  have hsame : Nat.toDigits 10 a = Nat.toDigits 10 b := by
    rw [← htake hx, h, htake hy]
  refine ⟨?_, append_cancel_left (hsame ▸ h)⟩
  have hnumbers := congrArg (Nat.ofDigitChars 10 · 0) hsame
  simpa only [Nat.ofDigitChars_ten_toDigits] using hnumbers

-- Lines as they are written

-- A field in quotes
def quote (field : List Char) : List Char :=
  '"' :: field.flatMap (fun c => if c = '"' then ['"', '"'] else [c]) ++ ['"']

def csvLine (fields : List String) : List Char :=
  [','].intercalate (fields.map fun field => quote field.toList)

theorem parseCsvFrom_quoted (current field rest : List Char) (hrest : rest.head? ≠ some '"') :
    parseCsvFrom true current (field.flatMap (fun c => if c = '"' then ['"', '"'] else [c]) ++ '"' :: rest) =
      parseCsvFrom false (current ++ field) rest := by
  induction field generalizing current
  case nil =>
    rw [flatMap_nil, nil_append, append_nil]
    cases rest
    case nil => rfl
    case cons next rest =>
      have hnext : next ≠ '"' := fun h => hrest (by rw [h, head?_cons])
      simp [parseCsvFrom, hnext]
  case cons c field hi =>
    rw [flatMap_cons, append_assoc]
    by_cases hc : c = '"'
    case pos =>
      simp only [hc, ↓reduceIte, cons_append, nil_append]
      simp only [parseCsvFrom, ↓reduceIte, and_self]
      rw [hi, append_assoc]
      rfl
    case neg =>
      simp only [hc, ↓reduceIte, cons_append, nil_append]
      rw [parseCsvFrom.eq_def]
      simp [hc, hi]

theorem parseCsvFrom_quote {field rest : List Char} (hrest : rest.head? ≠ some '"') :
    parseCsvFrom false [] (quote field ++ rest) = parseCsvFrom false field rest := by
  have h := parseCsvFrom_quoted [] field rest hrest
  rw [nil_append] at h
  rw [← h, quote, cons_append, cons_append, append_assoc]
  cases field.flatMap (fun c => if c = '"' then ['"', '"'] else [c]) <;> simp [parseCsvFrom]

theorem csvLine_singleton (field : String) : csvLine [field] = quote field.toList := by
  rw [csvLine, map_singleton, intercalate_singleton]

theorem csvLine_cons_cons (field next : String) (fields : List String) :
    csvLine (field :: next :: fields) = quote field.toList ++ ',' :: csvLine (next :: fields) := by
  simp [csvLine, intercalate]

-- A line of fields in quotes is read back.
theorem parseCsvLine_csvLine {fields : List String} (h : fields ≠ []) : parseCsvLine (csvLine fields) = fields := by
  cases fields
  case nil => exact absurd rfl h
  case cons field fields =>
    clear h
    rw [parseCsvLine]
    induction fields generalizing field
    case nil =>
      have hquote : parseCsvFrom false [] (quote field.toList ++ []) = parseCsvFrom false field.toList [] :=
        parseCsvFrom_quote (by simp)
      rw [append_nil] at hquote
      rw [csvLine_singleton, hquote, parseCsvFrom, String.ofList_toList]
    case cons next fields hi =>
      have hcomma : parseCsvFrom false field.toList (',' :: csvLine (next :: fields)) =
          String.ofList field.toList :: parseCsvFrom false [] (csvLine (next :: fields)) := by
        rw [parseCsvFrom.eq_def]
        simp
      rw [csvLine_cons_cons, parseCsvFrom_quote (by simp), hcomma, hi, String.ofList_toList]

theorem mem_quote {c : Char} {field : List Char} (h : c ∈ quote field) : c = '"' ∨ c ∈ field := by
  simp only [quote, cons_append, mem_cons, mem_append, mem_flatMap, not_mem_nil, or_false] at h
  rcases h with h | ⟨c', hc', hc⟩ | h
  case inl      => exact .inl h
  case inr.inr  => exact .inl h
  case inr.inl =>
    split at hc
    case isTrue  => simp_all
    case isFalse => exact .inr (mem_singleton.mp hc ▸ hc')

theorem mem_csvLine {c : Char} {fields : List String} (h : c ∈ csvLine fields) :
    c = '"' ∨ c = ',' ∨ ∃ field ∈ fields, c ∈ field.toList := by
  induction fields
  case nil => simp [csvLine, intercalate] at h
  case cons field fields hi =>
    cases fields
    case nil =>
      rw [csvLine_singleton] at h
      exact (mem_quote h).imp_right fun hc => .inr ⟨field, mem_cons_self, hc⟩
    case cons next fields =>
      rw [csvLine_cons_cons] at h
      rcases mem_append.mp h with h | h
      case inl => exact (mem_quote h).imp_right fun hc => .inr ⟨field, mem_cons_self, hc⟩
      case inr =>
        rcases mem_cons.mp h with h | h
        case inl => exact .inr (.inl h)
        case inr =>
          rcases hi h with h | h | ⟨f, hf, hc⟩
          case inl      => exact .inl h
          case inr.inl  => exact .inr (.inl h)
          case inr.inr  => exact .inr (.inr ⟨f, mem_cons_of_mem field hf, hc⟩)

-- Such a line begins and ends with quotes.
theorem csvLine_ends {fields : List String} (h : fields ≠ []) : ∃ line, csvLine fields = '"' :: line ++ ['"'] := by
  induction fields
  case nil => exact absurd rfl h
  case cons field fields hi =>
    cases fields
    case nil => exact ⟨_, csvLine_singleton field⟩
    case cons next fields =>
      obtain ⟨line, hline⟩ := hi (by simp)
      refine ⟨field.toList.flatMap (fun c => if c = '"' then ['"', '"'] else [c]) ++ '"' :: ',' :: '"' :: line, ?_⟩
      rw [csvLine_cons_cons, hline, quote]
      simp

-- Lines without line ends in them are read back.
theorem lines_append {line rest current : List Char} (h : '\n' ∉ line) (hcr : (current ++ line).getLast? ≠ some '\r') :
    lines current (line ++ '\n' :: rest) = (current ++ line) :: lines [] rest := by
  induction line generalizing current
  case nil =>
    rw [append_nil] at hcr ⊢
    rw [nil_append, lines, if_pos rfl, if_neg hcr]
  case cons c line hi =>
    obtain ⟨hc, hline⟩ := not_or.mp (mt mem_cons.mpr h)
    rw [cons_append, lines, if_neg (Ne.symm hc)]
    have happ : current ++ c :: line = current ++ [c] ++ line := by simp
    rw [happ] at hcr ⊢
    exact hi hline hcr

theorem lines_flatMap {ls : List (List Char)} (h : ∀ line ∈ ls, '\n' ∉ line ∧ line.getLast? ≠ some '\r') :
    lines [] (ls.flatMap fun line => line ++ ['\n']) = ls := by
  induction ls
  case nil => rfl
  case cons line ls hi =>
    obtain ⟨hn, hcr⟩ := h line mem_cons_self
    rw [flatMap_cons, append_assoc, singleton_append, lines_append hn (by rwa [nil_append]), nil_append,
      hi fun l hl => h l (mem_cons_of_mem line hl)]

section Table

variable {φ : Type} {headers : List String}

theorem lookup_zip_map (g : String → String) (name : String) :
    ((headers.zip (headers.map g)).foldl (fun map field => map.insert field.1 field.2)
      (∅ : Finmap fun _ : String => String)).lookup name = if name ∈ headers then some (g name) else none := by
  induction headers using List.reverseRecOn
  case nil => simp
  case append_singleton headers header hi =>
    rw [map_append, zip_append (by simp), foldl_append, map_singleton]
    simp only [zip_cons_cons, zip_nil_right, foldl_cons, foldl_nil]
    rw [Finmap.lookup_insert_eq_ite, hi]
    by_cases h : name = header
    case pos => simp [h]
    case neg => simp [h]

-- What a table of the other program has in a column
def cell (print : φ → String) (other : LlamaBenchRow φ → String → String) (row : LlamaBenchRow φ) (column : String) : String :=
  if column = "model_filename" then row.modelFilename
  else if column = "backends" then row.backend
  else if column = "n_prompt" then toString row.nPrompt
  else if column = "n_gen" then toString row.nGen
  else if column = "n_depth" then toString row.nDepth
  else if column = "avg_ns" then toString row.avgNs
  else if column = "stddev_ns" then toString row.stddevNs
  else if column = "avg_ts" then print row.avgTs
  else if column = "stddev_ts" then print row.stddevTs
  else other row column

-- A table with a row of column names, in any order and among others
def llamaCsv (print : φ → String) (other : LlamaBenchRow φ → String → String) (headers : List String)
    (rows : List (LlamaBenchRow φ)) : List Char :=
  (csvLine headers :: rows.map fun row => csvLine (headers.map (cell print other row))).flatMap fun line => line ++ ['\n']

-- The columns that are read
structure Columns (headers : List String) : Prop where
  required : ∀ name ∈ ["n_prompt", "n_gen", "n_depth", "avg_ns", "stddev_ns", "avg_ts", "stddev_ts"], name ∈ headers
  oneLine  : ∀ header ∈ headers, '\n' ∉ header.toList

-- The rows that can be written in such a table
structure Writable (parseFloat : String → Except String φ) (print : φ → String) (other : LlamaBenchRow φ → String → String)
    (headers : List String) (row : LlamaBenchRow φ) : Prop where
  modelFilename : "model_filename" ∈ headers ∨ row.modelFilename = ""
  backend       : "backends" ∈ headers ∨ row.backend = ""
  test          : row.test = formatLlamaTest row.nPrompt row.nGen row.nDepth
  usize         : row.nPrompt < 2 ^ 64 ∧ row.nGen < 2 ^ 64 ∧ row.nDepth < 2 ^ 64
  u128          : row.avgNs < 2 ^ 128 ∧ row.stddevNs < 2 ^ 128
  avgTs         : parseFloat (print row.avgTs) = .ok row.avgTs
  stddevTs      : parseFloat (print row.stddevTs) = .ok row.stddevTs
  oneLine       : ∀ column ∈ headers, '\n' ∉ (cell print other row column).toList

variable {parseFloat : String → Except String φ} {print : φ → String} {other : LlamaBenchRow φ → String → String}

theorem parseField_toString {max n : Nat} {field : String} (h : n ≤ max) :
    parseField max (some (toString n)) field = .ok n := by
  simp only [parseField, parseUnsigned_toString h]

theorem Columns.ne_nil (hc : Columns headers) : headers ≠ [] :=
  ne_nil_of_mem (hc.required "n_prompt" (by simp))

theorem parseLlamaRow_written (hc : Columns headers) {row : LlamaBenchRow φ} (hw : Writable parseFloat print other headers row) :
    parseLlamaRow parseFloat headers (csvLine (headers.map (cell print other row))) = .ok row := by
  have hrequired (name : String) (h : name ∈ ["n_prompt", "n_gen", "n_depth", "avg_ns", "stddev_ns", "avg_ts", "stddev_ts"]) :
      (if name ∈ headers then some (cell print other row name) else none) = some (cell print other row name) :=
    if_pos (hc.required name h)
  have hmodel : (if "model_filename" ∈ headers then some row.modelFilename else none).getD "" = row.modelFilename := by
    rcases hw.modelFilename with h | h
    case inl => rw [if_pos h, Option.getD_some]
    case inr => rw [h]; split <;> rfl
  have hbackend : (if "backends" ∈ headers then some row.backend else none).getD "" = row.backend := by
    rcases hw.backend with h | h
    case inl => rw [if_pos h, Option.getD_some]
    case inr => rw [h]; split <;> rfl
  obtain ⟨hprompt, hgen, hdepth⟩ := hw.usize
  obtain ⟨havg, hstddev⟩ := hw.u128
  have hne : headers.map (cell print other row) ≠ [] := by simpa using hc.ne_nil
  unfold parseLlamaRow
  simp only [parseCsvLine_csvLine hne, lookup_zip_map, hrequired _ (by simp : "n_prompt" ∈ _),
    hrequired _ (by simp : "n_gen" ∈ _), hrequired _ (by simp : "n_depth" ∈ _), hrequired _ (by simp : "avg_ns" ∈ _),
    hrequired _ (by simp : "stddev_ns" ∈ _), hrequired _ (by simp : "avg_ts" ∈ _), hrequired _ (by simp : "stddev_ts" ∈ _)]
  simp only [cell, reduceIte, String.reduceEq, parseUsize, parseU128, parseF64, hmodel, hbackend,
    parseField_toString (Nat.le_sub_one_of_lt hprompt), parseField_toString (Nat.le_sub_one_of_lt hgen),
    parseField_toString (Nat.le_sub_one_of_lt hdepth), parseField_toString (Nat.le_sub_one_of_lt havg),
    parseField_toString (Nat.le_sub_one_of_lt hstddev), hw.avgTs, hw.stddevTs]
  have htest : { row with test := formatLlamaTest row.nPrompt row.nGen row.nDepth } = row := by rw [← hw.test]
  exact congrArg Except.ok htest

-- What is written is read back.
theorem parseLlamaCsv_written (hc : Columns headers) {rows : List (LlamaBenchRow φ)}
    (hw : ∀ row ∈ rows, Writable parseFloat print other headers row) :
    parseLlamaCsv parseFloat (.ofList (llamaCsv print other headers rows)) = .ok rows := by
  have hlines : ∀ line ∈ csvLine headers :: rows.map (fun row => csvLine (headers.map (cell print other row))),
      ('\n' ∉ line ∧ line.getLast? ≠ some '\r') ∧ (!line.all isWhitespace) = true := by
    have hgood {fields : List String} (hne : fields ≠ []) (hn : ∀ field ∈ fields, '\n' ∉ field.toList) :
        ('\n' ∉ csvLine fields ∧ (csvLine fields).getLast? ≠ some '\r') ∧ (!(csvLine fields).all isWhitespace) = true := by
      obtain ⟨line, hline⟩ := csvLine_ends hne
      refine ⟨⟨fun hmem => ?_, ?_⟩, ?_⟩
      case refine_1 =>
        rcases mem_csvLine hmem with h | h | ⟨field, hfield, h⟩
        case inl      => exact absurd h (by decide)
        case inr.inl  => exact absurd h (by decide)
        case inr.inr  => exact hn field hfield h
      case refine_2 =>
        rw [hline, getLast?_append]
        simp
      case refine_3 =>
        rw [hline, cons_append, all_cons]
        rfl
    intro line hline
    rcases mem_cons.mp hline with rfl | hline
    case inl => exact hgood hc.ne_nil hc.oneLine
    case inr =>
      obtain ⟨row, hrow, rfl⟩ := mem_map.mp hline
      refine hgood (by simpa using hc.ne_nil) fun field hfield => ?_
      obtain ⟨column, hcolumn, rfl⟩ := mem_map.mp hfield
      exact (hw row hrow).oneLine column hcolumn
  have hsplit : lines [] (llamaCsv print other headers rows) =
      csvLine headers :: rows.map (fun row => csvLine (headers.map (cell print other row))) :=
    lines_flatMap fun line hline => (hlines line hline).left
  rw [parseLlamaCsv, String.toList_ofList, hsplit, filter_eq_self.mpr fun line hline => (hlines line hline).right]
  dsimp only
  rw [parseCsvLine_csvLine hc.ne_nil]
  clear hlines hsplit
  induction rows
  case nil => rfl
  case cons row rows hi =>
    rw [map_cons, mapM_cons, parseLlamaRow_written hc (hw row mem_cons_self),
      hi fun row hrow => hw row (mem_cons_of_mem _ hrow)]
    rfl

-- Whole numbers in the place of floats
def parseWhole (s : String) : Except String Nat :=
  (parseUnsigned (2 ^ 53) s).mapError IntErrorKind.message

-- A name with a comma and quotes, among columns that are not read
theorem parseLlamaCsv_written_quoted :
    let row : LlamaBenchRow Nat := ⟨"a,\"b\".gguf", "", formatLlamaTest 12 3 4, 12, 3, 4, 5, 6, 7, 8⟩
    parseLlamaCsv parseWhole (.ofList (llamaCsv toString (fun _ _ => "n/a") ["build_commit", "model_filename", "n_gen", "n_prompt",
      "n_depth", "avg_ns", "stddev_ns", "avg_ts", "stddev_ts"] [row])) = .ok [row] := by
  refine parseLlamaCsv_written ⟨by decide, by decide +kernel⟩ fun row hrow => ?_
  cases mem_singleton.mp hrow
  exact ⟨.inl (by decide), .inr rfl, rfl, by decide, by decide, by decide +kernel, by decide +kernel, by decide +kernel⟩

end Table

-- What a test is about, apart from what is cached
inductive Workload
  | prompt (n : Nat)
  | generation (n : Nat)
  | both (nPrompt nGen : Nat)
deriving DecidableEq, Repr

namespace Workload

def ofMode (promptLen genLen : Nat) : BenchmarkMode → Workload
  | .promptProcessing     => prompt promptLen
  | .generation           => generation genLen
  | .promptPlusGeneration => both promptLen genLen

-- The other program has no modes.
def ofLengths (nPrompt nGen : Nat) : Workload :=
  if 0 < nPrompt ∧ nGen = 0 then prompt nPrompt
  else if 0 < nGen ∧ nPrompt = 0 then generation nGen
  else both nPrompt nGen

def depthText (depth : Nat) : List Char :=
  if 0 < depth then " @ d".toList ++ Nat.toDigits 10 depth else []

def text (depth : Nat) : Workload → List Char
  | prompt n          => "pp".toList ++ (Nat.toDigits 10 n ++ depthText depth)
  | generation n      => "tg".toList ++ (Nat.toDigits 10 n ++ depthText depth)
  | both nPrompt nGen => "pp".toList ++ (Nat.toDigits 10 nPrompt ++ ("+tg".toList ++ (Nat.toDigits 10 nGen ++ depthText depth)))

theorem head_depthText {depth : Nat} : ∀ c ∈ (depthText depth).head?, c = ' ' := by
  unfold depthText
  split
  case isTrue  => simp
  case isFalse => simp

theorem depthText_inj {depth depth' : Nat} (h : depthText depth = depthText depth') : depth = depth' := by
  unfold depthText at h
  split at h <;> split at h
  case isTrue.isTrue =>
    have hdigits := append_cancel_left h
    have hnumbers := congrArg (Nat.ofDigitChars 10 · 0) hdigits
    simpa only [Nat.ofDigitChars_ten_toDigits] using hnumbers
  case isTrue.isFalse  => simp at h
  case isFalse.isTrue  => simp at h
  case isFalse.isFalse => omega

-- The texts tell what the tests are about.
theorem text_inj {depth depth' : Nat} {w w' : Workload} (h : w.text depth = w'.text depth') : w = w' ∧ depth = depth' := by
  have hdepth {d : Nat} : ∀ c ∈ (depthText d).head?, c.isDigit = false := fun c hc => by
    rw [head_depthText c hc]
    rfl
  have hplus {z : List Char} : ∀ c ∈ ("+tg".toList ++ z).head?, c.isDigit = false := by simp
  cases w <;> cases w'
  case prompt.prompt =>
    obtain ⟨rfl, hd⟩ := toDigits_append_inj hdepth hdepth (append_cancel_left h)
    exact ⟨rfl, depthText_inj hd⟩
  case prompt.generation => simp [text] at h
  case prompt.both =>
    obtain ⟨_, hd⟩ := toDigits_append_inj hdepth hplus (append_cancel_left h)
    have hspace := head_depthText '+' (by rw [hd]; simp)
    simp at hspace
  case generation.prompt => simp [text] at h
  case generation.generation =>
    obtain ⟨rfl, hd⟩ := toDigits_append_inj hdepth hdepth (append_cancel_left h)
    exact ⟨rfl, depthText_inj hd⟩
  case generation.both => simp [text] at h
  case both.prompt =>
    obtain ⟨_, hd⟩ := toDigits_append_inj hplus hdepth (append_cancel_left h)
    have hspace := head_depthText '+' (by rw [← hd]; simp)
    simp at hspace
  case both.generation => simp [text] at h
  case both.both =>
    obtain ⟨rfl, hrest⟩ := toDigits_append_inj hplus hplus (append_cancel_left h)
    obtain ⟨rfl, hd⟩ := toDigits_append_inj hdepth hdepth (append_cancel_left hrest)
    exact ⟨rfl, depthText_inj hd⟩

theorem toList_toString (n : Nat) : (toString n).toList = Nat.toDigits 10 n :=
  Nat.toList_repr

theorem toList_withDepth {test : String} {depth : Nat} :
    (if 0 < depth then test ++ (" @ d" ++ toString depth) else test).toList = test.toList ++ depthText depth := by
  unfold depthText
  split
  case isTrue  => rw [String.toList_append, String.toList_append, toList_toString]
  case isFalse => rw [append_nil]

theorem toList_formatMode {mode : BenchmarkMode} {promptLen genLen cachedDepth : Nat} :
    (formatMode mode promptLen genLen cachedDepth).toList = (ofMode promptLen genLen mode).text cachedDepth := by
  unfold formatMode
  dsimp only
  rw [toList_withDepth]
  cases mode <;> simp only [ofMode, text, String.toList_append, toList_toString, append_assoc]

theorem toList_formatLlamaTest {nPrompt nGen nDepth : Nat} :
    (formatLlamaTest nPrompt nGen nDepth).toList = (ofLengths nPrompt nGen).text nDepth := by
  unfold formatLlamaTest ofLengths
  dsimp only
  rw [toList_withDepth]
  split
  case isTrue => simp only [text, String.toList_append, toList_toString, append_assoc]
  case isFalse =>
    split
    case isTrue  => simp only [text, String.toList_append, toList_toString, append_assoc]
    case isFalse => simp only [text, String.toList_append, toList_toString, append_assoc]

end Workload

def BenchmarkRow.workload (row : BenchmarkRow φ) : Workload × Nat :=
  (.ofMode row.promptLen row.genLen row.mode, row.cachedDepth)

def LlamaBenchRow.workload (row : LlamaBenchRow φ) : Workload × Nat :=
  (.ofLengths row.nPrompt row.nGen, row.nDepth)

section Comparison

variable {φ : Type} {parseFloat : String → Except String φ} {baselines : List (LlamaBenchRow φ)}

theorem formatMode_eq_iff {row : BenchmarkRow φ} {baseline : LlamaBenchRow φ} :
    formatMode row.mode row.promptLen row.genLen row.cachedDepth =
      formatLlamaTest baseline.nPrompt baseline.nGen baseline.nDepth ↔ row.workload = baseline.workload := by
  rw [← String.toList_inj, Workload.toList_formatMode, Workload.toList_formatLlamaTest, BenchmarkRow.workload,
    LlamaBenchRow.workload, Prod.mk.injEq]
  exact ⟨Workload.text_inj, fun h => by rw [h.left, h.right]⟩

theorem parseLlamaRow_test {headers : List String} {line : List Char} {row : LlamaBenchRow φ}
    (h : parseLlamaRow parseFloat headers line = .ok row) : row.test = formatLlamaTest row.nPrompt row.nGen row.nDepth := by
  unfold parseLlamaRow at h
  obtain ⟨_, _, h⟩ := Except.bind_eq_ok_iff.mp h
  obtain ⟨_, _, h⟩ := Except.bind_eq_ok_iff.mp h
  obtain ⟨_, _, h⟩ := Except.bind_eq_ok_iff.mp h
  obtain ⟨_, _, h⟩ := Except.bind_eq_ok_iff.mp h
  obtain ⟨_, _, h⟩ := Except.bind_eq_ok_iff.mp h
  obtain ⟨_, _, h⟩ := Except.bind_eq_ok_iff.mp h
  obtain ⟨_, _, h⟩ := Except.bind_eq_ok_iff.mp h
  cases h
  rfl

theorem parseLlamaCsv_test {input : String} (h : parseLlamaCsv parseFloat input = .ok baselines) :
    ∀ row ∈ baselines, row.test = formatLlamaTest row.nPrompt row.nGen row.nDepth := by
  unfold parseLlamaCsv at h
  split at h
  case h_1 =>
    cases h
    simp
  case h_2 header ls hls =>
    clear hls
    induction ls generalizing baselines
    case nil =>
      cases h
      simp
    case cons line ls hi =>
      rw [mapM_cons] at h
      obtain ⟨row, hrow, h⟩ := Except.bind_eq_ok_iff.mp h
      obtain ⟨rows, hrows, h⟩ := Except.bind_eq_ok_iff.mp h
      cases h
      exact forall_mem_cons.mpr ⟨parseLlamaRow_test hrow, hi hrows⟩

-- Of the rows of a test, the last one counts.
theorem lookup_foldl_insert (name : String) :
    (baselines.foldl (fun map row => map.insert row.test row) (∅ : Finmap fun _ : String => LlamaBenchRow φ)).lookup name =
      baselines.reverse.find? fun row => row.test = name := by
  induction baselines using List.reverseRecOn
  case nil => simp
  case append_singleton baselines row hi =>
    rw [foldl_append, foldl_cons, foldl_nil, Finmap.lookup_insert_eq_ite, reverse_append, reverse_singleton, singleton_append,
      find?_cons, hi]
    by_cases h : row.test = name
    case pos => simp [h]
    case neg => simp [h, Ne.symm h]

variable [Zero φ] [LT φ] [DecidableLT φ] [Div φ]

-- Rows are compared with the last row of the other program that ran the same tokens, and with no other.
theorem compareWithLlamaCsv_workload {rows rows' : List (BenchmarkRow φ)} {llamaCsv : String}
    (hrows : ∀ row ∈ rows, row.test = formatMode row.mode row.promptLen row.genLen row.cachedDepth)
    (h : compareWithLlamaCsv parseFloat rows llamaCsv = (.ok baselines, rows')) :
    rows' = rows.map fun row =>
      row.compareWith (baselines.reverse.find? fun baseline => row.workload = baseline.workload) := by
  unfold compareWithLlamaCsv at h
  split at h
  case h_1 => cases h
  case h_2 baselineRows hparse =>
    cases h
    refine map_congr_left fun row hrow => ?_
    rw [lookup_foldl_insert]
    refine congrArg row.compareWith (find?_congr fun baseline hmem => ?_)
    rw [parseLlamaCsv_test hparse baseline (mem_reverse.mp hmem), hrows row hrow, decide_eq_decide, ← formatMode_eq_iff]
    exact eq_comm

-- The second row of the other program has the same tokens, but more of them cached.
theorem compareWithLlamaCsv_workload_depth :
    let rows : List (BenchmarkRow Nat) := [⟨formatMode .promptProcessing 8 0 0, .promptProcessing, 8, 0, 0, 12, none, none⟩]
    ∃ baselines rows', compareWithLlamaCsv parseWhole rows
      "n_prompt,n_gen,n_depth,avg_ns,stddev_ns,avg_ts,stddev_ts\n8,0,0,1,1,4,1\n8,0,2,1,1,6,1\n" = (.ok baselines, rows') ∧
      rows'.map (·.speedupVsBaseline) = [some 3] ∧
      rows' = rows.map fun row => row.compareWith (baselines.reverse.find? fun baseline => row.workload = baseline.workload) := by
  intro rows
  have hok : (compareWithLlamaCsv parseWhole rows
      "n_prompt,n_gen,n_depth,avg_ns,stddev_ns,avg_ts,stddev_ts\n8,0,0,1,1,4,1\n8,0,2,1,1,6,1\n").1.toOption.isSome = true ∧
      (compareWithLlamaCsv parseWhole rows
        "n_prompt,n_gen,n_depth,avg_ns,stddev_ns,avg_ts,stddev_ts\n8,0,0,1,1,4,1\n8,0,2,1,1,6,1\n").2.map
          (·.speedupVsBaseline) = [some 3] := by decide +kernel
  rcases h : compareWithLlamaCsv parseWhole rows
      "n_prompt,n_gen,n_depth,avg_ns,stddev_ns,avg_ts,stddev_ts\n8,0,0,1,1,4,1\n8,0,2,1,1,6,1\n" with ⟨_ | baselines, rows'⟩
  case error => simp [h, Except.toOption] at hok
  case ok =>
    rw [h] at hok
    exact ⟨baselines, rows', rfl, hok.right, compareWithLlamaCsv_workload (by simp [rows]) h⟩

end Comparison

end Benchmark
