import LiveMarkup.Forest.Attribute

/-!
# Descriptions of nodes

A description shows a node without what is below it, with all text quoted.
-/

namespace LiveMarkup

/-- A list of quoted texts in brackets. -/
def describeTexts (ss : List String) : String :=
  "[" ++ ", ".intercalate (ss.map Text.quoted) ++ "]"

/-- The description of a node. -/
def Forest.describe (f : Forest) (n : NodeId) : String :=
  match f.kind n with
  | .element tag =>
    "Element \x7b tag: " ++ Text.quoted tag ++ ", attributes: " ++ describeTexts (f.attrNames n) ++
      ", children: " ++ toString (f.children n).length ++ " \x7d"
  | .attr name =>
    "Attr \x7b name: " ++ Text.quoted name ++ ", value: " ++ Text.quoted (f.data n) ++ " \x7d"
  | .text => "Text(" ++ Text.quoted (f.data n) ++ ")"
  | .comment => "Comment(" ++ Text.quoted (f.data n) ++ ")"
  | .fragment => "Fragment \x7b children: " ++ toString (f.children n).length ++ " \x7d"

end LiveMarkup
