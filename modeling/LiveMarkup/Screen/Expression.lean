import LiveMarkup.Decimal.Shortest
import LiveMarkup.Forest.Description
import LiveMarkup.Tasks.Scheduler

/-!
# Values for holes

An `Expression` is a value that can be bound to a hole of a template: nothing, a primitive value, a
node, a list of expressions, a value that comes later, or code that acts on the node it is bound to.
-/

namespace LiveMarkup

/-- Code that acts on the node it is bound to. -/
inductive Binding where
  | fail (fault : RenderFault)
  /-- Names the node, runs a script, and goes on with a result. -/
  | function (as : Option String) (body : Script) (result : Spec)
  | setAttr (name value : String)
  | listen (event : String) (handler : Nat) (once : Bool)
  | capture (slot : String)
  /-- Shows a value and shows it again whenever a signal it reads has changed. -/
  | live (value : Spec)
  deriving Inhabited

/-- A value for a hole. -/
inductive Expression where
  | empty
  | text (s : String)
  | number (x : Double)
  | bigint (n : Int)
  | node (n : NodeId)
  | iterable (items : List Expression)
  | deferred (promise : Promise)
  | function (binding : Binding)
  | capability (name value : String)
  deriving Inhabited

namespace Expression

/-- The word for the kind of an expression. -/
def kind (f : Forest) : Expression → String
  | empty => "empty"
  | text _ => "text"
  | number _ => "number"
  | bigint _ => "bigint"
  | node n => if (f.kind n).isAttr then "attribute node" else "node"
  | iterable _ => "iterable"
  | deferred _ => "deferred"
  | function _ => "function"
  | capability _ _ => "capability"

/-- The text of a primitive value. -/
def text? : Expression → Option String
  | text s => some s
  | number x => some x.text
  | bigint n => some (toString n)
  | _ => none

mutual

/-- The description of an expression. -/
def describe (f : Forest) : Expression → String
  | text s => "Primitive(Text(" ++ Text.quoted s ++ "))"
  | number x => "Primitive(Number(" ++ x.described ++ "))"
  | bigint n => "Primitive(BigInt(" ++ toString n ++ "))"
  | node n => "Node(" ++ f.describe n ++ ")"
  | iterable items => "Iterable([" ++ ", ".intercalate (describeAll f items) ++ "])"
  | empty => "empty"
  | deferred _ => "deferred"
  | function _ => "function"
  | capability _ _ => "capability"

/-- The descriptions of several expressions. -/
def describeAll (f : Forest) : List Expression → List String
  | [] => []
  | e :: es => describe f e :: describeAll f es

end

/-- The expression that a value of a signal stands for. -/
def ofValue : Value → Expression
  | .text s => text s
  | .int n => bigint n
  | .double x => number x

/-- The expression that an integer of a type with so many bits stands for: a number if every integer
of the type is one, otherwise a big integer, or its text if it does not fit 128 bits with a sign. -/
def ofInteger (width : Nat) (n : Int) : Expression :=
  if width ≤ 32 then number (.ofInt n)
  else if n.bmod (Nat.pow 2 128) = n then bigint n
  else text (toString n)

mutual

/-- The channels whose receivers an expression holds. -/
def channels : Expression → List Nat
  | deferred (.channel c) => [c]
  | iterable items => channelsAll items
  | deferred (.value _) => []
  | empty => []
  | text _ => []
  | number _ => []
  | bigint _ => []
  | node _ => []
  | function _ => []
  | capability _ _ => []

/-- The channels whose receivers several expressions hold. -/
def channelsAll : List Expression → List Nat
  | [] => []
  | e :: es => e.channels ++ channelsAll es

end

mutual

/-- The nodes that an expression holds. -/
def heldNodes : Expression → List NodeId
  | node n => [n]
  | iterable items => heldNodesAll items
  | deferred _ => []
  | empty => []
  | text _ => []
  | number _ => []
  | bigint _ => []
  | function _ => []
  | capability _ _ => []

/-- The nodes that several expressions hold. -/
def heldNodesAll : List Expression → List NodeId
  | [] => []
  | e :: es => e.heldNodes ++ heldNodesAll es

end

end Expression

end LiveMarkup
