import LiveMarkup.Text.Digit

/-!
# Markers

A marker stands for a hole in the source of a template: the base, a dash, the ordinal of the hole, a
dash.  `Marker.find?` finds the first marker of a text, whatever its ordinal; an ordinal that does
not fit 64 bits makes the text count as one without markers.
-/

namespace LiveMarkup

/-- A marker found in a text: what stands before it, its ordinal, and what stands after it. -/
structure Marker where
  before : String
  ordinal : Nat
  after : String
  deriving DecidableEq, Repr

namespace Marker

/-- The written form of the marker with the given ordinal. -/
def text (base : String) (ordinal : Nat) : String := base ++ "-" ++ toString ordinal ++ "-"

/-- The digits and the rest of a marker that begins the input. -/
def begins? (base cs : List Char) : Option (List Char × List Char) :=
  if (base ++ ['-']).isPrefixOf cs then
    let cs := cs.drop (base.length + 1)
    let digits := cs.takeWhile Char.isDigit
    match cs.dropWhile Char.isDigit with
    | '-' :: rest => if digits.isEmpty then none else some (digits, rest)
    | _ => none
  else none

/-- The first marker of the input: what stands before it in reverse order after `before`, its
digits, and the rest. -/
def first? (base before : List Char) : List Char → Option (List Char × List Char × List Char)
  | [] => none
  | c :: cs =>
    match begins? base (c :: cs) with
    | some (digits, rest) => some (before, digits, rest)
    | none => first? base (c :: before) cs

/-- The first marker of a text. -/
def find? (base s : String) : Option Marker :=
  match first? base.toList [] s.toList with
  | none => none
  | some (before, digits, rest) =>
    if decimalValue digits ≤ largest64 then
      some ⟨String.ofList before.reverse, decimalValue digits, String.ofList rest⟩
    else none

/-- Whether the marker is all of its text. -/
def isWhole (m : Marker) : Bool := m.before.isEmpty && m.after.isEmpty

/-- The offset of the marker in its text, in bytes. -/
def start (m : Marker) : Nat := m.before.utf8ByteSize

/-- The offset of what follows the marker in the text `s`, in bytes. -/
def stop (m : Marker) (s : String) : Nat := s.utf8ByteSize - m.after.utf8ByteSize

end Marker

end LiveMarkup
