import LiveMarkup.Forest.Cell
import LiveMarkup.Text.Quoted

/-!
# Faults of tree operations

An operation on a forest can be refused for one of eight causes.  The causes fall into three
classes: a request against the hierarchy, a node of the wrong kind, and a node that is not where the
operation expects it.
-/

namespace LiveMarkup

/-- What an operation asks of a node. -/
inductive Demand where
  | container
  | element
  | attr
  | characterData
  deriving DecidableEq, Repr

/-- The wording of a demand. -/
def Demand.words : Demand → String
  | container => "element or fragment"
  | element => "element"
  | attr => "attribute"
  | characterData => "text, comment or attribute"

/-- The causes for which an operation is refused. -/
inductive Fault where
  /-- An attribute node cannot be a child. -/
  | attrAsChild
  /-- A node cannot be put below itself. -/
  | intoItself
  /-- The attribute node belongs to another element. -/
  | attrInUse
  /-- The node is of another kind than the operation asks for. -/
  | wrongKind (demand : Demand) (found : Kind)
  /-- The node to insert before is not a child of the parent. -/
  | referenceElsewhere
  /-- The node to insert before has gone during the insertion. -/
  | referenceLost
  /-- The node to remove is not a child of the parent. -/
  | notAChild
  /-- The attribute node to remove does not belong to the element. -/
  | notOwned (name : String)
  deriving DecidableEq, Repr

/-- The classes of faults. -/
inductive Fault.Class where
  | hierarchy
  | kind
  | place
  deriving DecidableEq, Repr

namespace Fault

/-- The class of a fault. -/
def cls : Fault → Class
  | attrAsChild | intoItself | attrInUse => .hierarchy
  | wrongKind _ _ => .kind
  | referenceElsewhere | referenceLost | notAChild | notOwned _ => .place

/-- The wording of a fault without its class. -/
def detail : Fault → String
  | attrAsChild => "attribute nodes cannot be inserted as children"
  | intoItself => "a node cannot be inserted into itself or one of its descendants"
  | attrInUse => "attribute node is in use by another element"
  | wrongKind demand found => "expected " ++ demand.words ++ ", found " ++ found.word
  | referenceElsewhere => "reference node is not a child of this node"
  | referenceLost => "reference node was detached during insertion"
  | notAChild => "node is not a child of this node"
  | notOwned name => "attribute " ++ Text.quoted name ++ " is not owned by this element"

/-- The wording of a fault. -/
def message (fault : Fault) : String :=
  let heading := match fault.cls with
    | .hierarchy => "Hierarchy request error: "
    | .kind => "Invalid node type: "
    | .place => "Node not found: "
  heading ++ fault.detail

end Fault

end LiveMarkup
