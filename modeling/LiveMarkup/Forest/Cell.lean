import LiveMarkup.Markup.Tree

/-!
# Nodes with identity

A `Forest` holds nodes that can be named, moved and changed.  A node is a cell: its kind, which
never changes, its character data, a link to the node that holds it, and the ordered lists of its
children, its attribute nodes and its listeners.  Elements hold children and attribute nodes,
fragments hold children, and the link of an attribute node leads to its owner.

New nodes take the next free number, so a number always means the same node.
-/

namespace LiveMarkup

/-- The number of a node. -/
abbrev NodeId := Nat

/-- What a node is, with the name it keeps for life. -/
inductive Kind where
  | element (tag : String)
  | attr (name : String)
  | text
  | comment
  | fragment
  deriving DecidableEq, Repr, Inhabited

namespace Kind

def isElement : Kind → Bool
  | element _ => true
  | _ => false

def isAttr : Kind → Bool
  | attr _ => true
  | _ => false

/-- Whether nodes of this kind hold children. -/
def holdsChildren : Kind → Bool
  | element _ => true
  | fragment => true
  | _ => false

/-- The tag of an element, and nothing for other nodes. -/
def tag : Kind → String
  | element tag => tag
  | _ => ""

/-- The name of an attribute node, and nothing for other nodes. -/
def attrName : Kind → String
  | attr name => name
  | _ => ""

/-- The name under which a node of this kind is spoken of. -/
def nodeName : Kind → String
  | element tag => tag
  | attr name => name
  | text => "#text"
  | comment => "#comment"
  | fragment => "#document-fragment"

/-- The word for the kind. -/
def word : Kind → String
  | element _ => "Element"
  | attr _ => "Attr"
  | text => "Text"
  | comment => "Comment"
  | fragment => "Fragment"

end Kind

/-- A registration for events of one type; `handler` numbers what runs. -/
structure Listener where
  id : Nat
  event : String
  once : Bool
  handler : Nat
  deriving DecidableEq, Repr

/-- The state of a node; `parent` is the owner if the node is an attribute. -/
structure Cell where
  kind : Kind
  data : String
  parent : Option NodeId
  children : List NodeId
  attributes : List NodeId
  listeners : List Listener
  deriving DecidableEq, Repr, Inhabited

/-- A node with no links. -/
def Cell.detached (kind : Kind) (data : String) : Cell := ⟨kind, data, none, [], [], []⟩

/-- Nodes with identity, numbered from zero. -/
structure Forest where
  cells : Array Cell
  deriving DecidableEq, Repr

namespace Forest

/-- The forest without nodes. -/
def empty : Forest := ⟨#[]⟩

/-- The number of nodes. -/
def size (f : Forest) : Nat := f.cells.size

/-- The state of a node; of a number that is not in use, a comment without links. -/
def cell (f : Forest) (n : NodeId) : Cell := f.cells.getD n (.detached .comment "")

/-- Changes the state of one node. -/
def modify (f : Forest) (n : NodeId) (change : Cell → Cell) : Forest := ⟨f.cells.modify n change⟩

/-- Adds a node; its number is the size before. -/
def push (f : Forest) (c : Cell) : Forest := ⟨f.cells.push c⟩

/-- Adds a node without links. -/
def create (f : Forest) (kind : Kind) (data : String) : NodeId × Forest :=
  (f.size, f.push (.detached kind data))

/-! ### Looking around -/

def kind (f : Forest) (n : NodeId) : Kind := (f.cell n).kind

/-- Character data of text and comments, the value of an attribute node. -/
def data (f : Forest) (n : NodeId) : String := (f.cell n).data

def children (f : Forest) (n : NodeId) : List NodeId := (f.cell n).children

def attributes (f : Forest) (n : NodeId) : List NodeId := (f.cell n).attributes

/-- The parent of a node; attribute nodes have none. -/
def parent (f : Forest) (n : NodeId) : Option NodeId :=
  if (f.kind n).isAttr then none else (f.cell n).parent

/-- The element that an attribute node belongs to. -/
def owner (f : Forest) (n : NodeId) : Option NodeId :=
  if (f.kind n).isAttr then (f.cell n).parent else none

/-- The place of a node among the children of its parent. -/
def indexInParent (f : Forest) (n : NodeId) : Option Nat :=
  match f.parent n with
  | some p => (f.children p).idxOf? n
  | none => none

/-- The sibling that follows a node. -/
def nextSibling (f : Forest) (n : NodeId) : Option NodeId :=
  match f.parent n, f.indexInParent n with
  | some p, some i => (f.children p)[i + 1]?
  | _, _ => none

/-- The sibling before a node. -/
def previousSibling (f : Forest) (n : NodeId) : Option NodeId :=
  match f.parent n, f.indexInParent n with
  | some p, some (i + 1) => (f.children p)[i]?
  | _, _ => none

/-- A node, its parent, the parent of that, and so on for at most `fuel` nodes. -/
def lineage (f : Forest) : Nat → NodeId → List NodeId
  | 0, _ => []
  | fuel + 1, n =>
    n :: match f.parent n with
      | some p => f.lineage fuel p
      | none => []

/-- A node and its ancestors, from the inside out. -/
def ancestors (f : Forest) (n : NodeId) : List NodeId := f.lineage (f.size + 1) n

/-- Whether `other` is `n` or below it. -/
def contains (f : Forest) (n other : NodeId) : Bool := (f.ancestors other).contains n

/-- The nearest element with the given tag among a node and its ancestors. -/
def closest (f : Forest) (n : NodeId) (tag : String) : Option NodeId :=
  (f.ancestors n).find? fun m => f.kind m == .element tag.toLower

/-- The node that is reached by following child indices. -/
def follow (f : Forest) (n : NodeId) : List Nat → Option NodeId
  | [] => some n
  | i :: is =>
    match (f.children n)[i]? with
    | some c => f.follow c is
    | none => none

/-! ### Reading a node with everything below it -/

/-- The name and the value of an attribute node. -/
def attrAt (f : Forest) (n : NodeId) : Attribute := ⟨(f.kind n).attrName, f.data n⟩

/-- The trees at the given nodes, read to a depth of `fuel`. -/
def treesAt (f : Forest) : Nat → List NodeId → List Tree
  | 0, _ => []
  | fuel + 1, ns =>
    ns.flatMap fun n =>
      match f.kind n with
      | .element tag =>
        [.element tag ((f.attributes n).map f.attrAt) (f.treesAt fuel (f.children n))]
      | .text => [.text (f.data n)]
      | .comment => [.comment (f.data n)]
      | .attr _ => []
      | .fragment => []

/-- The trees at the given nodes. -/
def trees (f : Forest) (ns : List NodeId) : List Tree := f.treesAt (f.size + 1) ns

/-- What a node and everything below it look like. -/
def snapshot (f : Forest) (n : NodeId) : Snapshot :=
  match f.kind n with
  | .element tag => .tree (.element tag ((f.attributes n).map f.attrAt) (f.trees (f.children n)))
  | .text => .tree (.text (f.data n))
  | .comment => .tree (.comment (f.data n))
  | .attr name => .attr ⟨name, f.data n⟩
  | .fragment => .fragment (f.trees (f.children n))

end Forest

end LiveMarkup
