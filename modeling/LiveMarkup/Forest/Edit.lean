import LiveMarkup.Forest.Fault

/-!
# Moving nodes

Insertion moves a node out of its former place; inserting a fragment moves its children instead.
Every operation that can be refused gives the forest together with its outcome, because a refusal in
the middle of several moves leaves the moves before it in place.
-/

namespace LiveMarkup

/-- The outcome of an operation that can be refused, with the forest after it. -/
abbrev Edit (α : Type) := Except Fault α × Forest

namespace Forest

/-- Sets the link of a node to what holds it. -/
def setParent (f : Forest) (n : NodeId) (p : Option NodeId) : Forest :=
  f.modify n fun c => { c with parent := p }

/-- Changes the children of a node. -/
def setChildren (f : Forest) (n : NodeId) (change : List NodeId → List NodeId) : Forest :=
  f.modify n fun c => { c with children := change c.children }

/-- Changes the attribute nodes of a node. -/
def setAttributes (f : Forest) (n : NodeId) (change : List NodeId → List NodeId) : Forest :=
  f.modify n fun c => { c with attributes := change c.attributes }

/-- Changes the character data of a node. -/
def writeData (f : Forest) (n : NodeId) (change : String → String) : Forest :=
  f.modify n fun c => { c with data := change c.data }

/-- Takes a node out of the children of its parent. -/
def detach (f : Forest) (n : NodeId) : Forest :=
  match f.parent n with
  | some p => (f.setChildren p fun cs => cs.filter (· != n)).setParent n none
  | none => f.setParent n none

/-- Takes all children out of a node; they lose their parent. -/
def takeChildren (f : Forest) (n : NodeId) : List NodeId × Forest :=
  let cs := f.children n
  (cs, cs.foldl (fun f c => f.setParent c none) (f.setChildren n fun _ => []))

/-- Puts a node among the children of `p`, at place `i`. -/
def insertAt (f : Forest) (p : NodeId) (i : Nat) (n : NodeId) : Forest :=
  (f.setParent n (some p)).setChildren p fun cs => cs.insertIdx i n

/-- Puts nodes among the children of `p`, from place `i` on. -/
def insertAllAt (f : Forest) (p : NodeId) : Nat → List NodeId → Forest
  | _, [] => f
  | i, n :: ns => (f.insertAt p i n).insertAllAt p (i + 1) ns

/-- Why `n` cannot be inserted into `p` before `reference`, if it cannot. -/
def insertFault? (f : Forest) (p n : NodeId) (reference : Option NodeId) : Option Fault :=
  if !(f.kind p).holdsChildren then some (.wrongKind .container (f.kind p))
  else if (f.kind n).isAttr then some .attrAsChild
  else if f.contains n p then some .intoItself
  else
    match reference with
    | some r => if f.parent r = some p then none else some .referenceElsewhere
    | none => none

/-- The nodes that inserting `n` moves: the children of a fragment, otherwise the node itself.  They
are taken out of their former place. -/
def pickUp (f : Forest) (n : NodeId) : List NodeId × Forest :=
  if f.kind n = .fragment then f.takeChildren n else ([n], f.detach n)

/-- Inserts `n` into `p` before the child `reference`, or at the end.  A node that is to be inserted
before itself goes before the sibling that follows it. -/
def insertBefore (f : Forest) (p n : NodeId) (reference : Option NodeId) : Edit Unit :=
  match f.insertFault? p n reference with
  | some fault => (.error fault, f)
  | none =>
    let reference := if reference = some n then f.nextSibling n else reference
    let (moved, f) := f.pickUp n
    let place := match reference with
      | some r => f.indexInParent r
      | none => some (f.children p).length
    match place with
    | some i => (.ok (), f.insertAllAt p i moved)
    | none => (.error .referenceLost, f)

/-- Inserts `n` at the end of the children of `p`. -/
def append (f : Forest) (p n : NodeId) : Edit Unit := f.insertBefore p n none

/-- Removes the child `n` of `p`. -/
def removeChild (f : Forest) (p n : NodeId) : Edit Unit :=
  if f.parent n = some p then (.ok (), f.detach n) else (.error .notAChild, f)

/-- Takes a node out of its parent, an attribute node out of its owner. -/
def remove (f : Forest) (n : NodeId) : Forest :=
  match f.owner n with
  | some o => (f.setAttributes o fun ns => ns.filter (· != n)).setParent n none
  | none => f.detach n

/-- Inserts nodes one after the other before `anchor`, which is itself passed over; stops at the
first refusal. -/
def insertEach (f : Forest) (p anchor : NodeId) : List NodeId → Edit Unit
  | [] => (.ok (), f)
  | n :: ns =>
    if n = anchor then f.insertEach p anchor ns
    else
      match f.insertBefore p n (some anchor) with
      | (.ok (), f) => f.insertEach p anchor ns
      | refused => refused

/-- Replaces a node by others in its parent.  A node without a parent stays as it is, and a node
that is among its own replacements stays in place. -/
def replaceWith (f : Forest) (n : NodeId) (ns : List NodeId) : Edit Unit :=
  match f.parent n with
  | none => (.ok (), f)
  | some p =>
    match f.insertEach p n ns with
    | (.ok (), f) => (.ok (), if ns.contains n then f else f.detach n)
    | refused => refused

/-! ### Joining texts -/

/-- Joins the texts that follow the text `n` among the siblings `rest` to it, and gives the siblings
after them. -/
def absorb (f : Forest) (n : NodeId) : List NodeId → List NodeId × Forest
  | [] => ([], f)
  | m :: rest =>
    if f.kind m = .text then ((f.writeData n (· ++ f.data m)).detach m).absorb n rest
    else (m :: rest, f)

theorem length_absorb_le (f : Forest) (n : NodeId) (rest : List NodeId) :
    (f.absorb n rest).1.length ≤ rest.length := by
  induction rest generalizing f with
  | nil => simp [absorb]
  | cons m rest ih =>
    unfold absorb
    split
    · exact Nat.le_succ_of_le (ih _)
    · exact Nat.le_refl _

/-- Joins the texts that stand side by side among the siblings `ns` and detaches empty text;
`deeper` treats a node that is not text. -/
def joinSiblings (deeper : Forest → NodeId → Forest) (f : Forest) : List NodeId → Forest
  | [] => f
  | n :: ns =>
    if f.kind n = .text then
      let joined := f.absorb n ns
      joinSiblings deeper
        (if (joined.2.data n).isEmpty then joined.2.detach n else joined.2) joined.1
    else joinSiblings deeper (deeper f n) ns
termination_by ns => ns.length
decreasing_by
  · exact Nat.lt_succ_of_le (length_absorb_le f n ns)
  · exact Nat.lt_succ_self _

/-- Joins the texts that stand side by side below `n`, to a depth of `fuel`. -/
def normalizeTo : Nat → Forest → NodeId → Forest
  | 0, f, _ => f
  | fuel + 1, f, n => joinSiblings (normalizeTo fuel) f (f.children n)

/-- Joins the texts that stand side by side anywhere below `n` and detaches empty text. -/
def normalize (f : Forest) (n : NodeId) : Forest := normalizeTo (f.size + 1) f n

/-! ### Character data -/

/-- Replaces the data of a text, a comment or an attribute node. -/
def setData (f : Forest) (n : NodeId) (data : String) : Edit Unit :=
  match f.kind n with
  | .text | .comment | .attr _ => (.ok (), f.writeData n fun _ => data)
  | found => (.error (.wrongKind .characterData found), f)

end Forest

end LiveMarkup
