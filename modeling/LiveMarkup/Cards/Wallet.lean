import LiveMarkup.Cards.Record
import LiveMarkup.Cards.Store
import LiveMarkup.Text.Blank
import LiveMarkup.Text.Quoted

/-!
# Wallets of cards

A store keeps cards as records under their identifiers, which begin with a fixed text and a number
that a counter in the same store hands out.  Cards are listed by that number.
-/

namespace LiveMarkup

/-- The causes for which an operation on cards is refused. -/
inductive CardFault where
  /-- No record is stored under the identifier. -/
  | notFound (id : String)
  /-- A record or a barcode cannot be read. -/
  | unreadable
  /-- The counter holds no number that can be counted on from. -/
  | counter (held : String)
  /-- The number of modules is not that of the width and the height. -/
  | bitmap (width height expected found : Nat)
  deriving DecidableEq, Repr

namespace Wallet

/-- The key of the counter. -/
def counterKey : String := "card-id-gen"

/-- What the identifiers of cards begin with. -/
def idStart : String := "card."

/-- Whether a key is the identifier of a card. -/
def isCardKey (key : String) : Bool := idStart.toList.isPrefixOf key.toList

/-- The number in an identifier. -/
def idNumber? (id : String) : Option Nat :=
  if isCardKey id then readNatural? (String.ofList (id.toList.drop idStart.length)) else none

/-- The number by which a card is listed: the largest if its identifier holds none. -/
def rank (id : String) : Nat := (idNumber? id).getD largest64

/-- Whether a card is listed no later than another: by number, then by identifier. -/
def listedBefore (a b : Card) : Bool :=
  rank a.id < rank b.id || (rank a.id == rank b.id && decide (a.id ≤ b.id))

/-- The number that the counter hands out next. -/
def nextNumber (s : Store) : Except CardFault Nat :=
  match s.get? counterKey with
  | none => .ok 1
  | some held =>
    match readNatural? (Text.trim held) with
    | some last => if last < largest64 then .ok (last + 1) else .error (.counter held)
    | none => .error (.counter held)

/-- Makes a card for a barcode, under the next identifier.  The card is not stored. -/
def create (s : Store) (b : Barcode) : Except CardFault Card × Store :=
  match nextNumber s with
  | .error fault => (.error fault, s)
  | .ok n => (.ok (.ofBarcode (idStart ++ toString n) b), s.set counterKey (toString n))

/-- Stores a card. -/
def save (s : Store) (c : Card) : Store := s.set c.id c.record

/-- The card stored under an identifier, which is its identifier whatever its record says. -/
def load (s : Store) (id : String) : Except CardFault Card :=
  match s.get? id with
  | none => .error (.notFound id)
  | some record =>
    match Card.ofRecord? record with
    | some c => .ok { c with id := id }
    | none => .error .unreadable

/-- Removes the card stored under an identifier. -/
def delete (s : Store) (id : String) : Store := s.erase id

/-- The cards under the given identifiers. -/
def loadAll (s : Store) : List String → Except CardFault (List Card)
  | [] => .ok []
  | id :: ids =>
    match load s id with
    | .error fault => .error fault
    | .ok c => (loadAll s ids).map (c :: ·)

/-- All stored cards, by number. -/
def cards (s : Store) : Except CardFault (List Card) :=
  (loadAll s (s.keys.filter isCardKey)).map fun cs => cs.mergeSort listedBefore

end Wallet

namespace CardFault

/-- The wording of a fault, if it has one of its own. -/
def message? : CardFault → Option String
  | notFound id => some ("Card not found: " ++ id)
  | unreadable => none
  | counter held =>
    some ("Card id counter " ++ Text.quoted Wallet.counterKey ++ " holds " ++ Text.quoted held ++
      ", expected an integer below u64::MAX")
  | bitmap width height expected found =>
    some ("Bitmap of " ++ toString width ++ "x" ++ toString height ++ " needs " ++
      toString expected ++ " modules, got " ++ toString found)

end CardFault

end LiveMarkup
