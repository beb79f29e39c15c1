import LiveMarkup.Forest.Attribute
import LiveMarkup.Template.Fault

/-!
# Paths

A path leads from a node to nodes below it: by child indices, at the end perhaps to an attribute
node, or on by a group of paths that all start at the place reached.  `Forest.pathTo` finds the path
of a node, and `Forest.descendAll` follows paths and gives the nodes they reach, in order.
-/

namespace LiveMarkup

/-- A step of a path. -/
inductive PathStep where
  | child (index : Nat)
  | attr (name : String)
  | group (paths : List (List PathStep))
  deriving Repr, BEq

/-- A way down from a node. -/
abbrev Path := List PathStep

/-- Whether a path ends at an attribute node. -/
def Path.endsAtAttr (path : Path) : Bool :=
  match path.getLast? with
  | some (.attr _) => true
  | _ => false

/-- Paths that start with the same steps may be written as one; each is kept as it is. -/
def Path.coalesced (paths : List Path) : List Path := paths

namespace Forest

/-- The child indices from `root` down to `n`, followed by `rest`, over at most `fuel` nodes. -/
def indicesTo (f : Forest) (root : NodeId) : Nat → NodeId → List Nat → Option (List Nat)
  | 0, _, _ => none
  | fuel + 1, n, rest =>
    if n = root then some rest
    else
      match f.parent n, f.indexInParent n with
      | some p, some i => f.indicesTo root fuel p (i :: rest)
      | _, _ => none

/-- The path from `root` to `target`, or to the attribute node of `target` with the given name. -/
def pathTo (f : Forest) (target root : NodeId) (attr : Option String) : Except RenderFault Path :=
  match f.indicesTo root (f.size + 1) target [] with
  | some indices => .ok (indices.map .child ++ attr.toList.map .attr)
  | none => .error (.unresolvable ((f.kind target).nodeName ++ " is not inside the template root"))

mutual

/-- The nodes that a path reaches from `n`. -/
def descend (f : Forest) (n : NodeId) : Path → Except RenderFault (List NodeId)
  | [] => .ok [n]
  | .child i :: steps =>
    match (f.children n)[i]? with
    | some c => f.descend c steps
    | none =>
      .error (.unresolvable ((f.kind n).nodeName ++ " has no child at index " ++ toString i))
  | .attr name :: _ =>
    match f.attrNode n name with
    | some a => .ok [a]
    | none =>
      .error (.unresolvable ("<" ++ (f.kind n).tag ++ "> has no attribute " ++ Text.quoted name))
  | .group paths :: _ => f.descendAll n paths

/-- The nodes that paths reach from `n`, one path after the other. -/
def descendAll (f : Forest) (n : NodeId) : List Path → Except RenderFault (List NodeId)
  | [] => .ok []
  | path :: paths =>
    match f.descend n path with
    | .error fault => .error fault
    | .ok reached =>
      match f.descendAll n paths with
      | .error fault => .error fault
      | .ok others => .ok (reached ++ others)

end

end Forest

end LiveMarkup
