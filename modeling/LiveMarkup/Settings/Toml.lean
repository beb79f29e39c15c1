import LiveMarkup.Text.Digit

/-!
# Tables in the TOML notation

`Toml.read?` reads a document and gives its top-level entries, or nothing if the document breaks a
rule of the notation: a rule of writing, or one of the rules on what may be defined twice.  Of the
values only strings are kept; of the others it is only known that they are well formed.

A document is first read into lines, each of which defines a key, a table, or one more table of a
list of tables; then the lines are carried out in order.
-/

namespace LiveMarkup

/-- What a key of a table stands for. -/
inductive TomlEntry where
  | string (s : String)
  /-- A value that cannot be extended. -/
  | closed
  /-- A table.  It is implied while only tables inside it have been named, and dotted if a key with
  points has made it. -/
  | table (implied dotted : Bool) (entries : List (String × TomlEntry))
  /-- A list of tables, with the entries of the last of them. -/
  | tables (last : List (String × TomlEntry))
  deriving Inhabited

/-- A line of a document. -/
inductive TomlLine where
  | pair (path : List String) (value : TomlEntry)
  | table (path : List String)
  | tables (path : List String)

namespace Toml

/-! ### Characters -/

/-- Spaces and tabs. -/
def isSpace (c : Char) : Bool := c == ' ' || c == '\t'

/-- The characters of keys without quotes. -/
def isKeyChar (c : Char) : Bool := c.isAlphanum || c == '_' || c == '-'

/-- The characters that may stand in comments and strings: no controls but the tab. -/
def isTextChar (c : Char) : Bool := c == '\t' || (0x20 ≤ c.toNat && c.toNat != 0x7f)

/-- The input after spaces and tabs. -/
def skipSpace (cs : List Char) : List Char := cs.dropWhile isSpace

/-- The input after a newline, if it begins with one. -/
def newline? : List Char → Option (List Char)
  | '\n' :: cs => some cs
  | '\r' :: '\n' :: cs => some cs
  | _ => none

/-- The input after a comment, if it begins with one. -/
def skipComment : List Char → List Char
  | '#' :: cs => cs.dropWhile isTextChar
  | cs => cs

/-- The input after blank space, comments and newlines. -/
def skipBlank : Nat → List Char → List Char
  | 0, cs => cs
  | fuel + 1, cs =>
    let cs := skipComment (skipSpace cs)
    match newline? cs with
    | some cs => skipBlank fuel cs
    | none => cs

/-- The rest of a line after its content: nothing but a comment; the input after it. -/
def endLine? (cs : List Char) : Option (List Char) :=
  match skipComment (skipSpace cs) with
  | [] => some []
  | cs => newline? cs

/-! ### Strings -/

/-- Reads a code of exactly `count` digits in base sixteen after `value`. -/
def readCode? (value : Nat) : Nat → List Char → Option (Char × List Char)
  | 0, cs => if value.isValidChar then some (Char.ofNat value, cs) else none
  | count + 1, c :: cs =>
    match hexValue? c with
    | some d => readCode? (value * 16 + d) count cs
    | none => none
  | _ + 1, [] => none

/-- Reads an escape after its backslash. -/
def readEscape? : List Char → Option (Char × List Char)
  | 'b' :: cs => some ('\x08', cs)
  | 't' :: cs => some ('\t', cs)
  | 'n' :: cs => some ('\n', cs)
  | 'f' :: cs => some ('\x0c', cs)
  | 'r' :: cs => some ('\r', cs)
  | 'e' :: cs => some ('\x1b', cs)
  | '"' :: cs => some ('"', cs)
  | '\\' :: cs => some ('\\', cs)
  | 'x' :: cs => readCode? 0 2 cs
  | 'u' :: cs => readCode? 0 4 cs
  | 'U' :: cs => readCode? 0 8 cs
  | _ => none

/-- Reads the rest of a string on one line after its opening quote; `escapes` says whether a
backslash begins an escape.  `text` is what has been read, in reverse order. -/
def readLineString? (quote : Char) (escapes : Bool) :
    Nat → List Char → List Char → Option (String × List Char)
  | 0, _, _ => none
  | fuel + 1, text, cs =>
    match cs with
    | [] => none
    | c :: cs =>
      if c = quote then some (String.ofList text.reverse, cs)
      else if c = '\\' ∧ escapes then
        match readEscape? cs with
        | some (e, cs) => readLineString? quote escapes fuel (e :: text) cs
        | none => none
      else if isTextChar c then readLineString? quote escapes fuel (c :: text) cs
      else none

/-- The input after a backslash at the end of a line and all blank space that follows, if the line
ends here. -/
def skipLineEnd? (cs : List Char) : Option (List Char) :=
  (newline? (skipSpace cs)).map fun cs =>
    cs.dropWhile fun c => isSpace c || c == '\n' || c == '\r'

/-- Reads the rest of a string over several lines after its opening quotes. -/
def readLongString? (quote : Char) (escapes : Bool) :
    Nat → List Char → List Char → Option (String × List Char)
  | 0, _, _ => none
  | fuel + 1, text, cs =>
    match cs with
    | [] => none
    | c :: rest =>
      if c = quote then
        let quotes := cs.takeWhile (· == quote)
        let cs := cs.dropWhile (· == quote)
        if quotes.length < 3 then readLongString? quote escapes fuel (quotes ++ text) cs
        else if quotes.length ≤ 5 then
          some (String.ofList (quotes.drop 3 ++ text).reverse, cs)
        else none
      else if c = '\\' ∧ escapes then
        match skipLineEnd? rest with
        | some cs => readLongString? quote escapes fuel text cs
        | none =>
          match readEscape? rest with
          | some (e, cs) => readLongString? quote escapes fuel (e :: text) cs
          | none => none
      else
        match newline? cs with
        | some cs => readLongString? quote escapes fuel ('\n' :: text) cs
        | none =>
          if isTextChar c then readLongString? quote escapes fuel (c :: text) rest else none

/-- Reads a string value. -/
def readString? (cs : List Char) : Option (String × List Char) :=
  let long (quote : Char) (escapes : Bool) (cs : List Char) :=
    readLongString? quote escapes (cs.length + 1) [] ((newline? cs).getD cs)
  match cs with
  | '"' :: '"' :: '"' :: cs => long '"' true cs
  | '\'' :: '\'' :: '\'' :: cs => long '\'' false cs
  | '"' :: cs => readLineString? '"' true (cs.length + 1) [] cs
  | '\'' :: cs => readLineString? '\'' false (cs.length + 1) [] cs
  | _ => none

/-! ### Keys -/

/-- Reads a key without points. -/
def readSimpleKey? (cs : List Char) : Option (String × List Char) :=
  match cs with
  | '"' :: cs => readLineString? '"' true (cs.length + 1) [] cs
  | '\'' :: cs => readLineString? '\'' false (cs.length + 1) [] cs
  | cs =>
    let key := cs.takeWhile isKeyChar
    if key.isEmpty then none else some (String.ofList key, cs.dropWhile isKeyChar)

/-- Reads a key: simple keys with points between them. -/
def readKey? : Nat → List Char → Option (List String × List Char)
  | 0, _ => none
  | fuel + 1, cs =>
    match readSimpleKey? (skipSpace cs) with
    | none => none
    | some (key, cs) =>
      match skipSpace cs with
      | '.' :: cs => (readKey? fuel cs).map fun (keys, rest) => (key :: keys, rest)
      | cs => some ([key], cs)

/-! ### Numbers and dates -/

/-- Digits with single underscores between them. -/
def isDigits (digit : Char → Bool) : List Char → Bool
  | [] => false
  | [c] => digit c
  | c :: '_' :: cs => digit c && isDigits digit cs
  | c :: cs => digit c && isDigits digit cs

/-- The characters after a sign, if there is one. -/
def unsigned : List Char → List Char
  | '+' :: cs => cs
  | '-' :: cs => cs
  | cs => cs

/-- A whole number in base ten without a sign: digits, the first of which is no zero unless it is
the only one. -/
def isWhole (cs : List Char) : Bool :=
  isDigits Char.isDigit cs && (cs.head? != some '0' || cs == ['0'])

/-- The value of digits in a base, where underscores do not count. -/
def valueIn (base : Nat) (cs : List Char) : Nat := ofDigitValues base (cs.filterMap hexValue?)

/-- An integer that fits 128 bits. -/
def isInteger (cs : List Char) : Bool :=
  match cs with
  | '0' :: 'x' :: cs => isDigits (isDigitIn 16) cs && valueIn 16 cs < Nat.pow 2 128
  | '0' :: 'o' :: cs => isDigits (isDigitIn 8) cs && valueIn 8 cs < Nat.pow 2 128
  | '0' :: 'b' :: cs => isDigits (isDigitIn 2) cs && valueIn 2 cs < Nat.pow 2 128
  | '-' :: cs => isWhole cs && valueIn 10 cs ≤ Nat.pow 2 127
  | cs => isWhole (unsigned cs) && valueIn 10 (unsigned cs) < Nat.pow 2 128

/-- Whether `m * 10 ^ e` rounds to a finite double: it lies below the middle between the largest
double and the power of two that follows. -/
def isFinite (m : Nat) (e : Int) : Bool :=
  let top := (Nat.toDigits 10 m).length + e
  m == 0 || decide (top ≤ 308) ||
    (top == 309 && decide
      (m * Nat.pow 10 e.toNat < (Nat.pow 2 1024 - Nat.pow 2 970) * Nat.pow 10 (-e).toNat))

/-- Reads the exponent that ends a number, with its mark; without one it is zero. -/
def exponent? : List Char → Option Int
  | [] => some 0
  | c :: cs =>
    if (c == 'e' || c == 'E') && isDigits Char.isDigit (unsigned cs) then
      let n : Int := valueIn 10 (unsigned cs)
      some (if cs.head? = some '-' then -n else n)
    else none

/-- Whether a character belongs to a group of digits. -/
def isGroupChar (c : Char) : Bool := c.isDigit || c == '_'

/-- A number with a fraction, an exponent or both that is not too large, or one of the special
numbers. -/
def isFloat (cs : List Char) : Bool :=
  let body := unsigned cs
  let whole := body.takeWhile isGroupChar
  if body == "inf".toList || body == "nan".toList then true
  else
    isWhole whole &&
      match body.dropWhile isGroupChar with
      | [] => false
      | '.' :: cs =>
        let fraction := cs.takeWhile isGroupChar
        isDigits Char.isDigit fraction &&
          match exponent? (cs.dropWhile isGroupChar) with
          | some e => isFinite (valueIn 10 (whole ++ fraction)) (e - fraction.countP Char.isDigit)
          | none => false
      | cs =>
        match exponent? cs with
        | some e => isFinite (valueIn 10 whole) e
        | none => false

/-- The value of exactly `count` digits, which may be followed by more input. -/
def digits? (count : Nat) (cs : List Char) : Option (Nat × List Char) :=
  let digits := cs.take count
  if digits.length = count ∧ digits.all Char.isDigit then
    some (valueIn 10 digits, cs.drop count)
  else none

/-- The number of days of a month. -/
def daysIn (year month : Nat) : Nat :=
  if month = 2 then
    if (year % 4 = 0 ∧ year % 100 ≠ 0) ∨ year % 400 = 0 then 29 else 28
  else if month = 4 ∨ month = 6 ∨ month = 9 ∨ month = 11 then 30 else 31

/-- The input after a date, if it begins with one. -/
def date? (cs : List Char) : Option (List Char) :=
  match digits? 4 cs with
  | some (year, '-' :: cs) =>
    match digits? 2 cs with
    | some (month, '-' :: cs) =>
      match digits? 2 cs with
      | some (day, cs) =>
        if 1 ≤ month ∧ month ≤ 12 ∧ 1 ≤ day ∧ day ≤ daysIn year month then some cs else none
      | none => none
    | _ => none
  | _ => none

/-- The input after the fraction of a second, if it begins with one. -/
def fraction? : List Char → Option (List Char)
  | '.' :: cs =>
    if (cs.takeWhile Char.isDigit).isEmpty then none else some (cs.dropWhile Char.isDigit)
  | cs => some cs

/-- The input after a time of day, if it begins with one; the seconds may be left out. -/
def time? (cs : List Char) : Option (List Char) :=
  match digits? 2 cs with
  | some (hour, ':' :: cs) =>
    match digits? 2 cs with
    | some (minute, cs) =>
      if hour ≤ 23 ∧ minute ≤ 59 then
        match cs with
        | ':' :: cs =>
          match digits? 2 cs with
          | some (second, cs) => if second ≤ 60 then fraction? cs else none
          | none => none
        | cs => some cs
      else none
    | none => none
  | _ => none

/-- Whether the input is the offset of a time zone, or nothing. -/
def isOffset (cs : List Char) : Bool :=
  match cs with
  | [] => true
  | ['Z'] => true
  | ['z'] => true
  | c :: cs =>
    (c == '+' || c == '-') &&
      match digits? 2 cs with
      | some (hour, ':' :: cs) =>
        match digits? 2 cs with
        | some (minute, []) => decide (hour ≤ 23 ∧ minute ≤ 59)
        | _ => false
      | _ => false

/-- A date, a time of day, or both, in which case there may be a time zone. -/
def isDateTime (cs : List Char) : Bool :=
  match date? cs with
  | some [] => true
  | some (c :: cs) =>
    (c == 'T' || c == 't' || c == ' ') &&
      match time? cs with
      | some cs => isOffset cs
      | none => false
  | none => time? cs == some []

/-- The characters of numbers, dates and words. -/
def isScalarChar (c : Char) : Bool := isKeyChar c || c == '+' || c == '.' || c == ':'

/-- Whether characters are a number, a date or a truth value. -/
def isScalar (cs : List Char) : Bool :=
  cs == "true".toList || cs == "false".toList || isInteger cs || isFloat cs || isDateTime cs

/-- Reads a number, a date or a truth value.  A space may stand between a date and a time of day. -/
def readScalar? (cs : List Char) : Option (List Char) :=
  let word := cs.takeWhile isScalarChar
  let rest := cs.dropWhile isScalarChar
  match date? word, rest with
  | some [], ' ' :: c :: more =>
    if c.isDigit then
      let time := (c :: more).takeWhile isScalarChar
      if isScalar (word ++ ' ' :: time) then some ((c :: more).dropWhile isScalarChar) else none
    else some rest
  | _, _ => if isScalar word then some rest else none

/-! ### Definitions -/

/-- Puts an entry in place of the entry of its key, or at the end. -/
def put (key : String) (entry : TomlEntry) (entries : List (String × TomlEntry)) :
    List (String × TomlEntry) :=
  if entries.any (·.1 == key) then
    entries.map fun e => if e.1 == key then (key, entry) else e
  else entries ++ [(key, entry)]

/-- Defines a key with points.  What the points lead through must be implied, and the innermost
table must have been made by keys with points. -/
def define? (value : TomlEntry) :
    List String → Bool → List (String × TomlEntry) → Option (List (String × TomlEntry))
  | [], _, _ => none
  | [key], fits, entries =>
    if !fits || (entries.lookup key).isSome then none else some (entries ++ [(key, value)])
  | key :: keys, _, entries =>
    match entries.lookup key with
    | none =>
      (define? value keys true []).map fun es => put key (.table true true es) entries
    | some (.table true dotted es) =>
      (define? value keys dotted es).map fun es => put key (.table true dotted es) entries
    | some (.tables es) =>
      (define? value keys false es).map fun es => put key (.tables es) entries
    | some _ => none

/-- Changes the entries of the table that a header names, and makes the tables that lead there. -/
def within? (change : List (String × TomlEntry) → Option (List (String × TomlEntry))) :
    List String → List (String × TomlEntry) → Option (List (String × TomlEntry))
  | [], entries => change entries
  | key :: keys, entries =>
    match entries.lookup key with
    | none => (within? change keys []).map fun es => put key (.table true false es) entries
    | some (.table implied dotted es) =>
      (within? change keys es).map fun es => put key (.table implied dotted es) entries
    | some (.tables es) => (within? change keys es).map fun es => put key (.tables es) entries
    | some _ => none

/-- Opens the table of a key: it must be new, or implied and not made by keys with points. -/
def openTable? (key : String) (entries : List (String × TomlEntry)) :
    Option (List (String × TomlEntry)) :=
  match entries.lookup key with
  | none => some (entries ++ [(key, .table false false [])])
  | some (.table true false es) => some (put key (.table false false es) entries)
  | some _ => none

/-- Opens one more table of a list of tables. -/
def openNext? (key : String) (entries : List (String × TomlEntry)) :
    Option (List (String × TomlEntry)) :=
  match entries.lookup key with
  | none => some (entries ++ [(key, .tables [])])
  | some (.tables _) => some (put key (.tables []) entries)
  | some _ => none

/-- Carries out lines in order; `place` names the table that is open. -/
def carryOut? :
    List String → List (String × TomlEntry) → List TomlLine → Option (List (String × TomlEntry))
  | _, entries, [] => some entries
  | place, entries, .pair path value :: lines =>
    match within? (define? value path true) place entries with
    | some entries => carryOut? place entries lines
    | none => none
  | _, entries, .table path :: lines =>
    match within? (openTable? (path.getLast?.getD "")) path.dropLast entries with
    | some entries => carryOut? path entries lines
    | none => none
  | _, entries, .tables path :: lines =>
    match within? (openNext? (path.getLast?.getD "")) path.dropLast entries with
    | some entries => carryOut? path entries lines
    | none => none

/-! ### Values and lines -/

/-- Reads a key and its value. -/
def readPair? (value : List Char → Option (TomlEntry × List Char)) (cs : List Char) :
    Option ((List String × TomlEntry) × List Char) :=
  match readKey? (cs.length + 1) cs with
  | some (path, '=' :: cs) => (value (skipSpace cs)).map fun (v, rest) => ((path, v), rest)
  | _ => none

/-- Reads the items of an array up to the closing bracket. -/
def readItems? (value : List Char → Option (TomlEntry × List Char)) :
    Nat → List Char → Option (List Char)
  | 0, _ => none
  | fuel + 1, cs =>
    match skipBlank cs.length cs with
    | ']' :: rest => some rest
    | cs =>
      match value cs with
      | none => none
      | some (_, cs) =>
        match skipBlank cs.length cs with
        | ',' :: cs => readItems? value fuel cs
        | ']' :: rest => some rest
        | _ => none

/-- Reads the pairs of a table in braces up to the closing brace. -/
def readPairs? (value : List Char → Option (TomlEntry × List Char)) :
    Nat → List Char → Option (List TomlLine × List Char)
  | 0, _ => none
  | fuel + 1, cs =>
    match skipBlank cs.length cs with
    | '\x7d' :: rest => some ([], rest)
    | cs =>
      match readPair? value cs with
      | none => none
      | some ((path, v), cs) =>
        match skipBlank cs.length cs with
        | ',' :: cs =>
          (readPairs? value fuel cs).map fun (lines, rest) => (.pair path v :: lines, rest)
        | '\x7d' :: rest => some ([.pair path v], rest)
        | _ => none

/-- Reads a value, nested to a depth of `fuel`. -/
def readValue? : Nat → List Char → Option (TomlEntry × List Char)
  | 0, _ => none
  | fuel + 1, cs =>
    match cs with
    | '[' :: cs => (readItems? (readValue? fuel) (cs.length + 1) cs).map fun rest => (.closed, rest)
    | '\x7b' :: cs =>
      match readPairs? (readValue? fuel) (cs.length + 1) cs with
      | some (lines, rest) => (carryOut? [] [] lines).map fun _ => (.closed, rest)
      | none => none
    | cs =>
      match readString? cs with
      | some (s, rest) => some (.string s, rest)
      | none => (readScalar? cs).map fun rest => (.closed, rest)

/-- Reads the line at the beginning of the input. -/
def readLine? (cs : List Char) : Option (TomlLine × List Char) :=
  match cs with
  | '[' :: '[' :: cs =>
    match readKey? (cs.length + 1) cs with
    | some (path, ']' :: ']' :: rest) => some (.tables path, rest)
    | _ => none
  | '[' :: cs =>
    match readKey? (cs.length + 1) cs with
    | some (path, ']' :: rest) => some (.table path, rest)
    | _ => none
  | cs =>
    (readPair? (readValue? (cs.length + 1)) cs).map fun ((path, v), rest) => (.pair path v, rest)

/-- Reads the lines of a document. -/
def readLines? : Nat → List Char → Option (List TomlLine)
  | 0, _ => none
  | fuel + 1, cs =>
    match skipBlank cs.length cs with
    | [] => some []
    | cs =>
      match readLine? cs with
      | none => none
      | some (line, rest) =>
        match endLine? rest with
        | some rest => (readLines? fuel rest).map (line :: ·)
        | none => none

/-- Reads a document, which may begin with a byte order mark. -/
def read? (s : String) : Option (List (String × TomlEntry)) :=
  let cs := match s.toList with
    | '\ufeff' :: cs => cs
    | cs => cs
  (readLines? (cs.length + 1) cs).bind (carryOut? [] [])

end Toml

end LiveMarkup
