import LiveMarkup.Cards.Card
import LiveMarkup.Cards.Json
import LiveMarkup.Text.Digit

/-!
# Records of cards

A card is stored as a record in the JSON notation: an object with its fields in a fixed order.  A
record is also read from an array of the fields in that order.  The name and the colour may be
missing; an unknown field is passed over, and a known one must not be given twice.
-/

namespace LiveMarkup

namespace Json

/-- The text of a string. -/
def text? : Json → Option String
  | string text => text
  | _ => none

/-- The value of a number that is written as an integer from zero to `2 ^ 64 - 1`. -/
def natural? : Json → Option Nat
  | number written => ofDecimalDigits? written
  | _ => none

/-- The values of the fields with the given name. -/
def fieldsNamed (name : String) (fields : List (Option String × Json)) : List Json :=
  (fields.filter fun field => field.1 == some name).map Prod.snd

/-- The value of the field with the given name, which must be there once. -/
def field? (name : String) (fields : List (Option String × Json)) : Option Json :=
  match fieldsNamed name fields with
  | [value] => some value
  | _ => none

/-- Reads the field with the given name, which may be missing but not be there twice. -/
def optionalField? {α : Type} (name : String) (read : Json → Option α) (missing : α)
    (fields : List (Option String × Json)) : Option α :=
  match fieldsNamed name fields with
  | [] => some missing
  | [value] => read value
  | _ => none

/-- Whether the names of all fields have a text. -/
def namesHaveText (fields : List (Option String × Json)) : Bool :=
  fields.all fun field => field.1.isSome

end Json

/-- The written form of an object with the given fields. -/
def writtenObject (fields : List (String × String)) : String :=
  "\x7b" ++ ",".intercalate (fields.map fun (name, value) => Json.quoted name ++ ":" ++ value) ++
    "\x7d"

namespace Barcode

/-- The record of a barcode. -/
def record (b : Barcode) : String :=
  writtenObject [("format", Json.quoted b.format), ("rawValue", Json.quoted b.rawValue)]

/-- The barcode that a value describes. -/
def ofJson? : Json → Option Barcode
  | .object fields =>
    if Json.namesHaveText fields then
      match (Json.field? "format" fields).bind Json.text?,
          (Json.field? "rawValue" fields).bind Json.text? with
      | some format, some rawValue => some ⟨format, rawValue⟩
      | _, _ => none
    else none
  | .array [format, rawValue] =>
    match format.text?, rawValue.text? with
    | some format, some rawValue => some ⟨format, rawValue⟩
    | _, _ => none
  | _ => none

/-- Reads the record of a barcode. -/
def ofRecord? (s : String) : Option Barcode := (Json.read? s).bind ofJson?

end Barcode

namespace Card

/-- The record of a card. -/
def record (c : Card) : String :=
  writtenObject
    [("id", Json.quoted c.id), ("format", Json.quoted c.format),
      ("rawValue", Json.quoted c.rawValue), ("name", Json.quoted c.name),
      ("color", toString c.color)]

/-- The card with the given fields, if all of them could be read. -/
def ofFields? (id format rawValue name : Option String) (color : Option Nat) : Option Card :=
  match id, format, rawValue, name, color with
  | some id, some format, some rawValue, some name, some color =>
    some ⟨id, format, rawValue, name, color⟩
  | _, _, _, _, _ => none

/-- The card that a value describes. -/
def ofJson? : Json → Option Card
  | .object fields =>
    if Json.namesHaveText fields then
      ofFields? ((Json.field? "id" fields).bind Json.text?)
        ((Json.field? "format" fields).bind Json.text?)
        ((Json.field? "rawValue" fields).bind Json.text?)
        (Json.optionalField? "name" Json.text? "" fields)
        (Json.optionalField? "color" Json.natural? 0 fields)
    else none
  | .array [id, format, rawValue] =>
    ofFields? id.text? format.text? rawValue.text? (some "") (some 0)
  | .array [id, format, rawValue, name] =>
    ofFields? id.text? format.text? rawValue.text? name.text? (some 0)
  | .array [id, format, rawValue, name, color] =>
    ofFields? id.text? format.text? rawValue.text? name.text? color.natural?
  | _ => none

/-- Reads the record of a card. -/
def ofRecord? (s : String) : Option Card := (Json.read? s).bind ofJson?

end Card

end LiveMarkup
