import LiveMarkup.Forest.Edit

/-!
# Attributes with identity

The attributes of an element are nodes that it owns, in the order in which they were added, and
names are compared in small letters.  Writing to an attribute node writes to the element; a node
that was removed or replaced belongs to no element any more.
-/

namespace LiveMarkup.Forest

/-- The attribute node of an element with the given name in any case. -/
def attrNode (f : Forest) (n : NodeId) (name : String) : Option NodeId :=
  (f.attributes n).find? fun a => (f.kind a).attrName == name.toLower

/-- The value of an attribute of an element. -/
def attrValue (f : Forest) (n : NodeId) (name : String) : Option String :=
  (f.attrNode n name).map f.data

/-- The names of the attributes of an element, in order. -/
def attrNames (f : Forest) (n : NodeId) : List String :=
  (f.attributes n).map fun a => (f.kind a).attrName

/-- Refuses what is not an element. -/
def requireElement (f : Forest) (n : NodeId) : Except Fault Unit :=
  if (f.kind n).isElement then .ok () else .error (.wrongKind .element (f.kind n))

/-- Sets the value of an attribute node. -/
def setValue (f : Forest) (n : NodeId) (value : String) : Edit Unit :=
  if (f.kind n).isAttr then f.setData n value else (.error (.wrongKind .attr (f.kind n)), f)

/-- Sets an attribute of an element; a new one goes last. -/
def setAttr (f : Forest) (n : NodeId) (name value : String) : Edit Unit :=
  match f.requireElement n with
  | .error fault => (.error fault, f)
  | .ok () =>
    match f.attrNode n name with
    | some a => (.ok (), f.writeData a fun _ => value)
    | none =>
      let (a, f) := f.create (.attr name.toLower) value
      (.ok (), (f.setParent a (some n)).setAttributes n (· ++ [a]))

/-- Removes an attribute of an element and gives its node. -/
def removeAttr (f : Forest) (n : NodeId) (name : String) : Edit (Option NodeId) :=
  match f.requireElement n with
  | .error fault => (.error fault, f)
  | .ok () =>
    match f.attrNode n name with
    | some a => (.ok (some a), f.remove a)
    | none => (.ok none, f)

/-- Gives an attribute node to an element.  It takes the place of the attribute of its name, which
is given back. -/
def setAttrNode (f : Forest) (n a : NodeId) : Edit (Option NodeId) :=
  match f.requireElement n with
  | .error fault => (.error fault, f)
  | .ok () =>
    if !(f.kind a).isAttr then (.error (.wrongKind .attr (f.kind a)), f)
    else
      match f.owner a with
      | some o => if o = n then (.ok none, f) else (.error .attrInUse, f)
      | none =>
        match f.attrNode n (f.kind a).attrName with
        | some old =>
          let f := f.setAttributes n fun as => as.map fun b => if b = old then a else b
          (.ok (some old), (f.setParent old none).setParent a (some n))
        | none => (.ok none, (f.setAttributes n (· ++ [a])).setParent a (some n))

/-- Takes an attribute node away from the element that owns it. -/
def removeAttrNode (f : Forest) (n a : NodeId) : Edit Unit :=
  if f.owner a = some n then (.ok (), f.remove a)
  else (.error (.notOwned (f.kind a).attrName), f)

/-- The class of an element, empty when it has none. -/
def className (f : Forest) (n : NodeId) : String := (f.attrValue n "class").getD ""

/-- Sets the class of an element. -/
def setClassName (f : Forest) (n : NodeId) (name : String) : Edit Unit := f.setAttr n "class" name

end LiveMarkup.Forest
