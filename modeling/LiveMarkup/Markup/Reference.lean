import LiveMarkup.Markup.Reference.Capitals
import LiveMarkup.Markup.Reference.LowerAToL
import LiveMarkup.Markup.Reference.LowerMToZ
import LiveMarkup.Text.Digit

/-!
# Character references

`Reference.read?` reads the character reference that follows an ampersand, if there is one: a
decimal or hexadecimal code, or the longest known name that begins the input.  Inside an attribute
value a name without its semicolon does not count when a letter, a digit or an equals sign follows,
so that addresses with parameters keep their spelling.
-/

namespace LiveMarkup

/-- A reference that was read: its text, and how many characters after the ampersand it takes. -/
structure Reference where
  text : String
  length : Nat
  deriving DecidableEq, Repr

namespace Reference

/-! ### Codes -/

/-- The characters that the codes from `0x80` to `0x9f` stand for where they differ. -/
def replacedControls : List (Nat × Char) :=
  [(0x80, '\u20ac'), (0x82, '\u201a'), (0x83, '\u0192'), (0x84, '\u201e'), (0x85, '\u2026'),
   (0x86, '\u2020'), (0x87, '\u2021'), (0x88, '\u02c6'), (0x89, '\u2030'), (0x8a, '\u0160'),
   (0x8b, '\u2039'), (0x8c, '\u0152'), (0x8e, '\u017d'), (0x91, '\u2018'), (0x92, '\u2019'),
   (0x93, '\u201c'), (0x94, '\u201d'), (0x95, '\u2022'), (0x96, '\u2013'), (0x97, '\u2014'),
   (0x98, '\u02dc'), (0x99, '\u2122'), (0x9a, '\u0161'), (0x9b, '\u203a'), (0x9c, '\u0153'),
   (0x9e, '\u017e'), (0x9f, '\u0178')]

/-- The character that a code stands for: a code of no character stands for `U+FFFD`, and the
controls of the second block for the characters that were once written there. -/
def charOfCode (code : Nat) : Char :=
  if code = 0 ∨ ¬ code.isValidChar then '\ufffd'
  else (replacedControls.lookup code).getD (Char.ofNat code)

/-- The values of the digits that begin the input. -/
def leadingDigits (base : Nat) : List Char → List Nat
  | [] => []
  | c :: cs =>
    match digitIn? base c with
    | some d => d :: leadingDigits base cs
    | none => []

/-- Reads a code in base `base` with an optional semicolon; `skipped` characters stand before it. -/
def readCode? (base skipped : Nat) (cs : List Char) : Option Reference :=
  match leadingDigits base cs with
  | [] => none
  | digits =>
    let code := ofDigitValues base digits
    let semicolon := if (cs.drop digits.length).head? = some ';' then 1 else 0
    some ⟨(charOfCode code).toString, skipped + digits.length + semicolon⟩

/-! ### Names -/

/-- The known names that begin with a letter. -/
def namesAt : Char → List (String × String)
  | 'A' => upperA | 'B' => upperB | 'C' => upperC | 'D' => upperD | 'E' => upperE | 'F' => upperF
  | 'G' => upperG | 'H' => upperH | 'I' => upperI | 'J' => upperJ | 'K' => upperK | 'L' => upperL
  | 'M' => upperM | 'N' => upperN | 'O' => upperO | 'P' => upperP | 'Q' => upperQ | 'R' => upperR
  | 'S' => upperS | 'T' => upperT | 'U' => upperU | 'V' => upperV | 'W' => upperW | 'X' => upperX
  | 'Y' => upperY | 'Z' => upperZ
  | 'a' => lowerA | 'b' => lowerB | 'c' => lowerC | 'd' => lowerD | 'e' => lowerE | 'f' => lowerF
  | 'g' => lowerG | 'h' => lowerH | 'i' => lowerI | 'j' => lowerJ | 'k' => lowerK | 'l' => lowerL
  | 'm' => lowerM | 'n' => lowerN | 'o' => lowerO | 'p' => lowerP | 'q' => lowerQ | 'r' => lowerR
  | 's' => lowerS | 't' => lowerT | 'u' => lowerU | 'v' => lowerV | 'w' => lowerW | 'x' => lowerX
  | 'y' => lowerY | 'z' => lowerZ
  | _ => []

/-- The longest of `names` that begins the input, if it is longer than `best`. -/
def longest (cs : List Char) (best : Option (String × String)) :
    List (String × String) → Option (String × String)
  | [] => best
  | entry :: names =>
    let longer := match best with
      | none => true
      | some (name, _) => name.length < entry.1.length
    if longer && entry.1.toList.isPrefixOf cs then longest cs (some entry) names
    else longest cs best names

/-- The longest known name that begins the input, with its text. -/
def longestName? (cs : List Char) : Option (String × String) :=
  match cs with
  | [] => none
  | c :: _ => longest cs none (namesAt c)

/-- Whether a name without semicolon, followed by `next`, is left alone in an attribute value. -/
def continuesWord (next : Option Char) : Bool :=
  match next with
  | some c => c == '=' || c.isAlphanum
  | none => false

/-- Reads a named reference. -/
def readName? (inValue : Bool) (cs : List Char) : Option Reference :=
  match longestName? cs with
  | none => none
  | some (name, text) =>
    let next := (cs.drop name.length).head?
    if inValue && name.toList.getLast? != some ';' && continuesWord next then none
    else some ⟨text, name.length⟩

/-- Reads the reference that follows an ampersand; `inValue` says that this is an attribute
value. -/
def read? (inValue : Bool) : List Char → Option Reference
  | '#' :: 'x' :: cs => readCode? 16 2 cs
  | '#' :: 'X' :: cs => readCode? 16 2 cs
  | '#' :: cs => readCode? 10 1 cs
  | cs => readName? inValue cs

end Reference

end LiveMarkup
