import LiveMarkup.Forest.Attribute
import LiveMarkup.Template.Fault

/-!
# Placing values at nodes

What binding a text or a node does to the forest.  A comment stands for a place among its siblings:
a text or a node takes its place.  An attribute node and a text take over a text; an element takes
an attribute node as an attribute and any other node as a child.
-/

namespace LiveMarkup.Forest

/-- The outcome of placing a value, with the forest after it. -/
abbrev Placed := Except RenderFault Unit × Forest

/-- The outcome of an operation on nodes as the outcome of placing a value. -/
def placed {α : Type} : Edit α → Placed
  | (.ok _, f) => (.ok (), f)
  | (.error fault, f) => (.error (.forest fault), f)

/-- The fault of a value that cannot be bound to a node. -/
def unsupported (f : Forest) (kind : String) (n : NodeId) : RenderFault :=
  .unsupported kind (f.kind n).nodeName

/-- Places a text of a primitive value of the given kind. -/
def placeText (f : Forest) (n : NodeId) (kind s : String) : Placed :=
  match f.kind n with
  | .comment =>
    let (t, f) := f.create .text s
    placed (f.replaceWith n [t])
  | .attr _ => placed (f.setValue n s)
  | .text => placed (f.setData n s)
  | _ => (.error (f.unsupported kind n), f)

/-- Places a node. -/
def placeNode (f : Forest) (n v : NodeId) : Placed :=
  if (f.kind v).isAttr then
    if (f.kind n).isElement then placed (f.setAttrNode n v)
    else (.error (f.unsupported "attribute node" n), f)
  else
    match f.kind n with
    | .comment => placed (f.replaceWith n [v])
    | .element _ => placed (f.append n v)
    | _ => (.error (f.unsupported "node" n), f)

/-- Adds an empty comment before `anchor` among the children of `p`. -/
def addSlot (f : Forest) (p anchor : NodeId) : NodeId × Placed :=
  let (slot, f) := f.create .comment ""
  (slot, placed (f.insertBefore p slot (some anchor)))

/-- Sets an attribute for an expression that asks for an element. -/
def placeAttr (f : Forest) (n : NodeId) (name value : String) : Placed :=
  if (f.kind n).isElement then placed (f.setAttr n name value)
  else (.error (f.unsupported "attribute setter" n), f)

/-- The node at which a live value is shown: a comment makes way for an empty text. -/
def liveTarget (f : Forest) (n : NodeId) : Except RenderFault NodeId × Forest :=
  match f.kind n with
  | .comment =>
    let (t, f) := f.create .text ""
    match f.replaceWith n [t] with
    | (.ok (), f) => (.ok t, f)
    | (.error fault, f) => (.error (.forest fault), f)
  | .text => (.ok n, f)
  | .attr _ => (.ok n, f)
  | _ => (.error (f.unsupported "live binding" n), f)

end LiveMarkup.Forest
