import LiveMarkup.Text.Digit

/-!
# Data in the JSON notation

Records of cards are stored in the JSON notation.  `Json.read?` reads a text that holds one value
with nothing but white space around it.  Numbers are kept as they are written, because only some of
them are asked for their value; a string in which a surrogate stands alone is well formed but has no
text.

`Json.quoted` writes a string.
-/

namespace LiveMarkup

/-- A value of the JSON notation. -/
inductive Json where
  | null
  | bool (b : Bool)
  | number (written : List Char)
  | string (text : Option String)
  | array (items : List Json)
  | object (fields : List (Option String × Json))
  deriving Inhabited

namespace Json

/-- The white space of the notation. -/
def isSpace (c : Char) : Bool := c == ' ' || c == '\n' || c == '\t' || c == '\r'

/-- The input after the white space at its beginning. -/
def skipSpace (cs : List Char) : List Char := cs.dropWhile isSpace

/-! ### Strings -/

/-- The code that four digits in base sixteen write. -/
def hexCode? (a b c d : Char) : Option Nat :=
  match hexValue? a, hexValue? b, hexValue? c, hexValue? d with
  | some a, some b, some c, some d => some (((a * 16 + b) * 16 + c) * 16 + d)
  | _, _, _, _ => none

/-- The character that an escape of one letter stands for. -/
def escaped? : Char → Option Char
  | '"' => some '"'
  | '\\' => some '\\'
  | '/' => some '/'
  | 'b' => some '\x08'
  | 'f' => some '\x0c'
  | 'n' => some '\n'
  | 'r' => some '\r'
  | 't' => some '\t'
  | _ => none

/-- Reads the rest of a string after its opening quote: the codes of its characters, where the
surrogates of a pair still stand side by side, and the input after the closing quote. -/
def readCodes? : List Char → Option (List Nat × List Char)
  | [] => none
  | '"' :: cs => some ([], cs)
  | '\\' :: 'u' :: a :: b :: c :: d :: cs =>
    match hexCode? a b c d, readCodes? cs with
    | some code, some (codes, rest) => some (code :: codes, rest)
    | _, _ => none
  | '\\' :: e :: cs =>
    match escaped? e, readCodes? cs with
    | some c, some (codes, rest) => some (c.toNat :: codes, rest)
    | _, _ => none
  | c :: cs =>
    if c.toNat < 0x20 ∨ c = '\\' then none
    else
      match readCodes? cs with
      | some (codes, rest) => some (c.toNat :: codes, rest)
      | none => none

/-- Whether a code is the first surrogate of a pair. -/
def isLeading (code : Nat) : Bool := 0xd800 ≤ code && code ≤ 0xdbff

/-- Whether a code is the second surrogate of a pair. -/
def isTrailing (code : Nat) : Bool := 0xdc00 ≤ code && code ≤ 0xdfff

/-- The characters of codes, if no surrogate stands alone. -/
def pairUp? : List Nat → Option (List Char)
  | [] => some []
  | code :: codes =>
    if isLeading code then
      match codes with
      | next :: codes =>
        if isTrailing next then
          (pairUp? codes).map
            (Char.ofNat ((code - 0xd800) * 0x400 + (next - 0xdc00) + 0x10000) :: ·)
        else none
      | [] => none
    else if isTrailing code then none
    else (pairUp? codes).map (Char.ofNat code :: ·)

/-- The text of codes, if no surrogate stands alone. -/
def textOf? (codes : List Nat) : Option String := (pairUp? codes).map String.ofList

/-! ### Numbers -/

/-- Takes digits off the input; there must be at least one. -/
def readDigits? (cs : List Char) : Option (List Char × List Char) :=
  let digits := cs.takeWhile Char.isDigit
  if digits.isEmpty then none else some (digits, cs.dropWhile Char.isDigit)

/-- Takes the integer part off the input: a zero, or digits that do not begin with one. -/
def readWhole? (cs : List Char) : Option (List Char × List Char) :=
  match readDigits? cs with
  | some ('0' :: _ :: _, _) => none
  | read => read

/-- Takes the fraction off the input, if there is one. -/
def readFraction? : List Char → Option (List Char × List Char)
  | '.' :: cs => (readDigits? cs).map fun (digits, rest) => ('.' :: digits, rest)
  | cs => some ([], cs)

/-- Takes the exponent off the input, if there is one. -/
def readExponent? : List Char → Option (List Char × List Char)
  | [] => some ([], [])
  | c :: cs =>
    if c = 'e' ∨ c = 'E' then
      let (sign, cs) : List Char × List Char := match cs with
        | '+' :: cs => (['+'], cs)
        | '-' :: cs => (['-'], cs)
        | cs => ([], cs)
      (readDigits? cs).map fun (digits, rest) => (c :: sign ++ digits, rest)
    else some ([], c :: cs)

/-- Takes a number off the input. -/
def readNumber? (cs : List Char) : Option (List Char × List Char) :=
  let (sign, cs) : List Char × List Char := match cs with
    | '-' :: cs => (['-'], cs)
    | cs => ([], cs)
  match readWhole? cs with
  | none => none
  | some (whole, cs) =>
    match readFraction? cs with
    | none => none
    | some (fraction, cs) =>
      (readExponent? cs).map fun (exponent, rest) => (sign ++ whole ++ fraction ++ exponent, rest)

/-! ### Values -/

/-- Reads the items of an array after the first, up to the closing bracket. -/
def readItems? (value : List Char → Option (Json × List Char)) :
    Nat → List Char → Option (List Json × List Char)
  | 0, _ => none
  | fuel + 1, cs =>
    match skipSpace cs with
    | ']' :: rest => some ([], rest)
    | ',' :: cs =>
      match value cs with
      | some (item, cs) =>
        (readItems? value fuel cs).map fun (items, rest) => (item :: items, rest)
      | none => none
    | _ => none

/-- Reads a field of an object. -/
def readField? (value : List Char → Option (Json × List Char)) (cs : List Char) :
    Option ((Option String × Json) × List Char) :=
  match skipSpace cs with
  | '"' :: cs =>
    match readCodes? cs with
    | some (codes, cs) =>
      match skipSpace cs with
      | ':' :: cs => (value cs).map fun (item, rest) => ((textOf? codes, item), rest)
      | _ => none
    | none => none
  | _ => none

/-- Reads the fields of an object after the first, up to the closing brace. -/
def readFields? (value : List Char → Option (Json × List Char)) :
    Nat → List Char → Option (List (Option String × Json) × List Char)
  | 0, _ => none
  | fuel + 1, cs =>
    match skipSpace cs with
    | '\x7d' :: rest => some ([], rest)
    | ',' :: cs =>
      match readField? value cs with
      | some (field, cs) =>
        (readFields? value fuel cs).map fun (fields, rest) => (field :: fields, rest)
      | none => none
    | _ => none

/-- Reads a value; every step into a value uses up some of the input, so its length is enough
`fuel`. -/
def readValue? : Nat → List Char → Option (Json × List Char)
  | 0, _ => none
  | fuel + 1, cs =>
    match skipSpace cs with
    | 'n' :: 'u' :: 'l' :: 'l' :: rest => some (null, rest)
    | 't' :: 'r' :: 'u' :: 'e' :: rest => some (bool true, rest)
    | 'f' :: 'a' :: 'l' :: 's' :: 'e' :: rest => some (bool false, rest)
    | '"' :: cs => (readCodes? cs).map fun (codes, rest) => (string (textOf? codes), rest)
    | '[' :: cs =>
      match skipSpace cs with
      | ']' :: rest => some (array [], rest)
      | cs =>
        match readValue? fuel cs with
        | some (item, cs) =>
          (readItems? (readValue? fuel) fuel cs).map fun (items, rest) =>
            (array (item :: items), rest)
        | none => none
    | '\x7b' :: cs =>
      match skipSpace cs with
      | '\x7d' :: rest => some (object [], rest)
      | cs =>
        match readField? (readValue? fuel) cs with
        | some (field, cs) =>
          (readFields? (readValue? fuel) fuel cs).map fun (fields, rest) =>
            (object (field :: fields), rest)
        | none => none
    | cs => (readNumber? cs).map fun (written, rest) => (number written, rest)

/-- Reads a text that holds one value. -/
def read? (s : String) : Option Json :=
  match readValue? (s.length + 1) s.toList with
  | some (value, rest) => if (skipSpace rest).isEmpty then some value else none
  | none => none

/-! ### Writing -/

/-- The written form of a character of a string. -/
def escapedChar : Char → String
  | '"' => "\\\""
  | '\\' => "\\\\"
  | '\x08' => "\\b"
  | '\x0c' => "\\f"
  | '\n' => "\\n"
  | '\r' => "\\r"
  | '\t' => "\\t"
  | c =>
    if c.toNat < 0x20 then
      "\\u00" ++ (Nat.digitChar (c.toNat / 16)).toString ++ (Nat.digitChar (c.toNat % 16)).toString
    else c.toString

/-- The written form of a string. -/
def quoted (s : String) : String := "\"" ++ String.join (s.toList.map escapedChar) ++ "\""

end Json

end LiveMarkup
