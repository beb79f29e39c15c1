import LiveMarkup.Markup.Token

/-!
# From tokens to trees

`Tree.ofTokens` nests elements by their tags alone.  A start tag opens an element unless the tag is
void or closes itself; an end tag closes the innermost open element of its tag with all that is open
inside it, and counts for nothing if there is none; what is open at the end is closed there.  A list
item, an option or a paragraph also ends where the next one of its tag begins right inside it.

`Tree.ofMarkup` reads markup: it nests the tokens and joins the texts that stand side by side.
-/

namespace LiveMarkup

/-- An element that is still open, its children in reverse order. -/
structure OpenElement where
  tag : String
  attributes : List Attribute
  children : List Tree
  deriving Repr

/-- The element with the children it has so far. -/
def OpenElement.tree (e : OpenElement) : Tree := .element e.tag e.attributes e.children.reverse

/-- Trees under construction: the open elements, innermost first, and in reverse order the trees
outside all of them. -/
structure Nest where
  opened : List OpenElement
  outside : List Tree
  deriving Repr

/-- The elements that end where an element of the same tag begins right inside them. -/
def selfEndingTags : List String := ["li", "option", "p"]

namespace Nest

/-- Nothing has been read. -/
def empty : Nest := ⟨[], []⟩

/-- Adds a tree at the current place. -/
def add (n : Nest) (t : Tree) : Nest :=
  match n.opened with
  | [] => { n with outside := t :: n.outside }
  | e :: es => { n with opened := { e with children := t :: e.children } :: es }

/-- Closes the innermost `count` open elements. -/
def close (n : Nest) : Nat → Nest
  | 0 => n
  | count + 1 =>
    match n.opened with
    | [] => n
    | e :: es => close (add { n with opened := es } e.tree) count

/-- Closes the innermost open element if a start tag `tag` ends it. -/
def closeBefore (n : Nest) (tag : String) : Nest :=
  if selfEndingTags.contains tag && n.opened.head?.map OpenElement.tag == some tag then n.close 1
  else n

/-- Opens an element at the current place. -/
def openElement (n : Nest) (tag : String) (attributes : List Attribute) : Nest :=
  { n with opened := ⟨tag, attributes, []⟩ :: n.opened }

/-- Takes one token. -/
def take (n : Nest) : Token → Nest
  | .start tag attributes selfClosing =>
    let n := n.closeBefore tag
    if selfClosing || isVoidTag tag then n.add (.element tag attributes [])
    else n.openElement tag attributes
  | .stop tag =>
    match n.opened.findIdx? (·.tag == tag) with
    | some i => n.close (i + 1)
    | none => n
  | .text data => n.add (.text data)
  | .comment data => n.add (.comment data)
  | .doctype => n

/-- The finished trees. -/
def trees (n : Nest) : List Tree := (n.close n.opened.length).outside.reverse

end Nest

namespace Tree

/-- The trees that a list of tokens describes. -/
def ofTokens (tokens : List Token) : List Tree := (tokens.foldl Nest.take .empty).trees

/-! ### Joining texts -/

/-- Puts a tree in front of its siblings: text is joined with text, and empty text is left out. -/
def joinText : Tree → List Tree → List Tree
  | text a, text b :: ts => text (a ++ b) :: ts
  | text a, ts => if a.isEmpty then ts else text a :: ts
  | t, ts => t :: ts

mutual

/-- Joins the texts that stand side by side anywhere below a tree. -/
def joined : Tree → Tree
  | element tag attributes children => element tag attributes (joinedAll children)
  | text data => text data
  | comment data => comment data

/-- Joins the texts that stand side by side among siblings and below them, and leaves out empty
text. -/
def joinedAll : List Tree → List Tree
  | [] => []
  | t :: ts => joinText t.joined (joinedAll ts)

end

/-- The trees that markup describes. -/
def ofMarkup (markup : String) : List Tree := joinedAll (ofTokens (Token.ofMarkup markup))

end Tree

end LiveMarkup
