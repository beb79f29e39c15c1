import LiveMarkup.Forest.Attribute
import LiveMarkup.Text.Blank

/-!
# Selectors

A selector names elements by tag, by identifier or by a name of their class list.
-/

namespace LiveMarkup

/-- Which elements are meant. -/
inductive Selector where
  | tag (name : String)
  | id (name : String)
  | cls (name : String)
  deriving DecidableEq, Repr

namespace Selector

/-- Reads a selector: a number sign begins an identifier, a point a class, anything else is a
tag. -/
def ofString (s : String) : Selector :=
  match (Text.trim s).toList with
  | '#' :: name => id (String.ofList name)
  | '.' :: name => cls (String.ofList name)
  | name => tag (String.ofList name).toLower

/-- Whether a node is meant. -/
def selects (s : Selector) (f : Forest) (n : NodeId) : Bool :=
  match f.kind n with
  | .element t =>
    match s with
    | tag name => t == name
    | id name => f.attrValue n "id" == some name
    | cls name => (Text.words (f.className n)).contains name
  | _ => false

end Selector

namespace Forest

/-- The nodes at and below the given nodes in document order, to a depth of `fuel`. -/
def below (f : Forest) : Nat → List NodeId → List NodeId
  | 0, _ => []
  | fuel + 1, ns => ns.flatMap fun n => n :: f.below fuel (f.children n)

/-- A node and everything below it in document order. -/
def descendants (f : Forest) (n : NodeId) : List NodeId := f.below (f.size + 1) [n]

/-- The elements at and below a node that a selector means, in document order. -/
def selectAll (f : Forest) (root : NodeId) (s : Selector) : List NodeId :=
  (f.descendants root).filter (s.selects f)

/-- The first element at or below a node that a selector means. -/
def select? (f : Forest) (root : NodeId) (s : Selector) : Option NodeId :=
  (f.descendants root).find? (s.selects f)

end Forest

end LiveMarkup
