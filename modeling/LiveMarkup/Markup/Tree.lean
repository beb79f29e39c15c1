/-!
# Trees of markup

A piece of markup is a forest of `Tree`s: elements with a tag, an ordered list of attributes and an
ordered list of children, runs of text, and comments.  A `Snapshot` is what any single node looks
like at one moment: a tree, an attribute on its own, or a fragment holding a list of trees.

The file also records the two tag classes that reading and writing share: the void elements, which
never have children, and the raw elements, whose text is written without escaping.
-/

namespace LiveMarkup

/-- A name with a value, as it stands in a start tag. -/
structure Attribute where
  name : String
  value : String
  deriving DecidableEq, Repr, Inhabited

/-- A node that can be a child, with everything below it. -/
inductive Tree where
  | element (tag : String) (attributes : List Attribute) (children : List Tree)
  | text (data : String)
  | comment (data : String)
  deriving Repr, Inhabited

/-- What a node and everything below it look like. -/
inductive Snapshot where
  | tree (tree : Tree)
  | attr (value : Attribute)
  | fragment (children : List Tree)
  deriving Repr

/-- The elements that are written without an end tag and never have children. -/
def voidTags : List String :=
  ["area", "base", "br", "col", "embed", "hr", "img", "input", "link", "meta", "source", "track",
    "wbr"]

/-- Whether `tag` names a void element. -/
def isVoidTag (tag : String) : Bool := voidTags.contains tag

/-- The elements whose text is written as it is. -/
def rawTags : List String := ["script", "style"]

/-- Whether `tag` names an element whose text is written as it is. -/
def isRawTag (tag : String) : Bool := rawTags.contains tag

namespace Tree

/-! ### Text -/

mutual

/-- The text a tree contributes to the text of its parent: comments contribute none. -/
def innerText : Tree → String
  | element _ _ children => innerTexts children
  | text data => data
  | comment _ => ""

/-- The text of a list of siblings. -/
def innerTexts : List Tree → String
  | [] => ""
  | t :: ts => t.innerText ++ innerTexts ts

end

end Tree

/-- The text of a node: the character data of a leaf, the text below an element or a fragment. -/
def Snapshot.text : Snapshot → String
  | tree (.comment data) => data
  | tree t => t.innerText
  | attr a => a.value
  | fragment children => Tree.innerTexts children

/-! ### Rows -/

/-- One node of an outline, with its depth below the outlined node. -/
inductive Row where
  | element (depth : Nat) (tag : String) (attributes : List Attribute)
  | text (depth : Nat) (data : String)
  | comment (depth : Nat) (data : String)
  | fragment (depth : Nat)
  | attr (depth : Nat) (value : Attribute)
  deriving DecidableEq, Repr

namespace Tree

mutual

/-- The nodes of a tree in document order. -/
def rows (depth : Nat) : Tree → List Row
  | element tag attributes children =>
    .element depth tag attributes :: rowsAll (depth + 1) children
  | text data => [.text depth data]
  | comment data => [.comment depth data]

/-- The nodes of a list of siblings in document order. -/
def rowsAll (depth : Nat) : List Tree → List Row
  | [] => []
  | t :: ts => t.rows depth ++ rowsAll depth ts

end

end Tree

/-- The nodes of a snapshot in document order, the node itself at depth zero. -/
def Snapshot.rows : Snapshot → List Row
  | tree t => t.rows 0
  | attr a => [.attr 0 a]
  | fragment children => .fragment 0 :: Tree.rowsAll 1 children

end LiveMarkup
