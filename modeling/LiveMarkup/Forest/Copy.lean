import LiveMarkup.Forest.Edit

/-!
# Planting and copying

Planting a tree makes new nodes that look like it.  A copy of a node is planted from what the node
looks like, so it shares nothing with it and has no listeners and no parent.
-/

namespace LiveMarkup.Forest

/-- Makes `c` the last child of `p`. -/
def linkChild (f : Forest) (p c : NodeId) : Forest :=
  (f.setParent c (some p)).setChildren p (· ++ [c])

/-- Adds a new attribute node to an element, after the others. -/
def plantAttr (f : Forest) (n : NodeId) (a : Attribute) : Forest :=
  let (m, f) := f.create (.attr a.name) a.value
  (f.setParent m (some n)).setAttributes n (· ++ [m])

mutual

/-- Makes a new node that looks like a tree. -/
def plant (f : Forest) : Tree → NodeId × Forest
  | .element tag attributes children =>
    let (n, f) := f.create (.element tag) ""
    (n, (attributes.foldl (fun f a => f.plantAttr n a) f).plantBelow n children)
  | .text data => f.create .text data
  | .comment data => f.create .comment data

/-- Makes new children of `p` that look like trees, after the others. -/
def plantBelow (f : Forest) (p : NodeId) : List Tree → Forest
  | [] => f
  | t :: ts =>
    let (c, f) := f.plant t
    (f.linkChild p c).plantBelow p ts

end

/-- Makes a new fragment of trees. -/
def plantFragment (f : Forest) (ts : List Tree) : NodeId × Forest :=
  let (n, f) := f.create .fragment ""
  (n, f.plantBelow n ts)

/-- Makes a new node that looks like a snapshot. -/
def plantSnapshot (f : Forest) : Snapshot → NodeId × Forest
  | .tree t => f.plant t
  | .attr a => f.create (.attr a.name) a.value
  | .fragment ts => f.plantFragment ts

/-- Copies a node, with everything below it if `deep`. -/
def copy (f : Forest) (n : NodeId) (deep : Bool) : NodeId × Forest :=
  if deep then f.plantSnapshot (f.snapshot n)
  else
    match f.snapshot n with
    | .tree (.element tag attributes _) => f.plant (.element tag attributes [])
    | .fragment _ => f.plantFragment []
    | leaf => f.plantSnapshot leaf

end LiveMarkup.Forest
