import LiveMarkup.Cards.Bitmap
import LiveMarkup.Forest.Path
import LiveMarkup.Forest.Selector
import LiveMarkup.Markup.Written
import LiveMarkup.Signals.Value
import LiveMarkup.Template.Marker

/-!
# Replies

A command replies with a value: what it reports of the objects it works on, or the cause for which
it was refused.
-/

namespace LiveMarkup

/-- The causes for which a command is refused. -/
inductive Failure where
  | forest (fault : Fault)
  | render (fault : RenderFault)
  | card (fault : CardFault)
  /-- The settings cannot be read. -/
  | settings
  /-- Nothing is bound to the name. -/
  | unbound (name : String)
  deriving DecidableEq, Repr

namespace Failure

/-- The wording of a failure, if it has one of its own. -/
def message? : Failure → Option String
  | forest fault => some fault.message
  | render fault => some fault.message
  | card fault => fault.message?
  | settings => none
  | unbound name => some ("nothing is bound to " ++ Text.quoted name)

end Failure

/-- All that is known of a node without looking below it. -/
structure NodeReport where
  kind : Kind
  data : String
  value : Option String
  text : String
  childCount : Nat
  index : Option Nat
  className : String
  id : Option String
  attrNames : List String
  deriving Repr

/-- An event, with its nodes as they are written now. -/
structure EventReport where
  event : String
  target : String
  current : Option String
  stopped : Bool
  prevented : Bool
  deriving Repr

/-- What a command replies. -/
inductive Reply where
  | nothing
  | flag (b : Bool)
  | count (n : Nat)
  | text (s : String)
  | value (v : Value)
  | list (items : List Reply)
  | rows (rows : List Row)
  /-- Read markup: its written form, its text and its nodes. -/
  | markup (written text : String) (rows : List Row)
  /-- Only the written form of read markup. -/
  | written (written : String)
  | node (report : NodeReport)
  | event (report : EventReport)
  | selector (selector : Selector)
  | path (path : Path)
  | foundPath (path : Path)
  /-- A marker in a text. -/
  | marker (start stop ordinal : Nat) (whole : Bool)
  /-- A compiled template: its nodes, its paths, and the names of the nodes at its holes. -/
  | template (rows : List Row) (paths : List Path) (names : List String)
  | card (card : Card)
  /-- A card in words: as it is shown, its colour, and the records of its barcode and of itself. -/
  | cardInfo (shown color barcode record : String)
  | bitmap (bitmap : Bitmap)
  | color (color : CardColor)
  | awaited (value : String)
  | failure (failure : Failure)

namespace Reply

/-- A text, or nothing. -/
def ofOption : Option String → Reply
  | some s => text s
  | none => nothing

/-- A list of texts. -/
def texts (ss : List String) : Reply := list (ss.map text)

/-- Whether there is something to report. -/
def isNothing : Reply → Bool
  | nothing => true
  | _ => false

/-- The reply of an operation that can fail. -/
def ofExcept {α : Type} (reply : α → Reply) : Except Failure α → Reply
  | .ok a => reply a
  | .error f => failure f

end Reply

end LiveMarkup
