import LiveMarkup.Forest.Copy
import LiveMarkup.Forest.Description
import LiveMarkup.Forest.Selector
import LiveMarkup.Markup.Nesting
import LiveMarkup.Script.Reply
import LiveMarkup.Script.Table
import LiveMarkup.Settings.Settings

/-!
# Pages

A page is a forest with a document in it: the body element that is shown.  It also keeps what
scripts hold on to: the nodes they have named, nodes that are remembered without being kept, the
listeners they may want to remove, the slots that capture nodes, the places where screens are
mounted, and the events that are being handled.
-/

namespace LiveMarkup

/-- A place where screens are mounted, with the class it gets when a screen brings none. -/
structure Mount where
  container : NodeId
  defaultClass : String
  deriving DecidableEq, Repr, Inhabited

/-- An event that is being handled; `current` is the node whose listeners run. -/
structure Event where
  event : String
  target : NodeId
  current : Option NodeId
  stopped : Bool
  prevented : Bool
  deriving DecidableEq, Repr, Inhabited

/-- A forest with a document, and what scripts hold on to in it. -/
structure Page where
  forest : Forest
  body : NodeId
  nodes : Table NodeId
  weak : Table NodeId
  listeners : Table Nat
  slots : Table NodeId
  mounts : Table Mount
  /-- The events that are being handled, the innermost first. -/
  events : List Event
  /-- The number of the next listener. -/
  nextListener : Nat
  /-- The nodes that nothing holds any more. -/
  gone : List NodeId

namespace Page

/-- The markup in the body of a fresh document. -/
def shellMarkup : String := "<main></main>"

/-- The tree of a body with markup in it. -/
def bodyTree (markup : String) : Tree := .element "body" [] (Tree.ofMarkup markup)

/-- A page that shows the given markup. -/
def ofMarkup (markup : String) : Page :=
  let (body, forest) := Forest.empty.plant (bodyTree markup)
  ⟨forest, body, [], [], [], [], [], [], 0, []⟩

/-- A fresh page. -/
def fresh : Page := ofMarkup shellMarkup

/-- The written form of a node. -/
def outer (p : Page) (n : NodeId) : String := (p.forest.snapshot n).outer

/-- The written form of what is below a node. -/
def inner (p : Page) (n : NodeId) : String := (p.forest.snapshot n).inner

/-- Names a node. -/
def bind (p : Page) (name : String) (n : NodeId) : Page := { p with nodes := p.nodes.bind name n }

/-- Names a node if a name is given. -/
def bindTo (p : Page) (name : Option String) (n : NodeId) : Page :=
  { p with nodes := p.nodes.bindTo name n }

/-- The report of an event. -/
def report (p : Page) (e : Event) : EventReport :=
  ⟨e.event, p.outer e.target, e.current.map p.outer, e.stopped, e.prevented⟩

/-- Changes the event that is being handled. -/
def modifyEvent (p : Page) (change : Event → Event) : Page :=
  match p.events with
  | [] => p
  | e :: es => { p with events := change e :: es }

/-- Adds a listener; its number is the next one before. -/
def listen (p : Page) (n : NodeId) (event : String) (handler : Nat) (once : Bool) : Nat × Page :=
  let id := p.nextListener
  (id,
    { p with
      nextListener := id + 1
      forest := p.forest.modify n fun c =>
        { c with listeners := c.listeners ++ [⟨id, event, once, handler⟩] } })

/-- Removes a listener; false if the node does not have it. -/
def unlisten (p : Page) (n : NodeId) (id : Nat) : Bool × Page :=
  let found := (p.forest.cell n).listeners.any (·.id == id)
  (found,
    { p with
      forest := p.forest.modify n fun c =>
        { c with listeners := c.listeners.filter (·.id != id) } })

/-- The listeners of a node for events of one type, in the order of registration. -/
def listenersFor (p : Page) (n : NodeId) (event : String) : List Listener :=
  (p.forest.cell n).listeners.filter (·.event == event)

/-- Takes the listeners of a node for events of one type that are to run; those that run only once
are no longer registered. -/
def takeListeners (p : Page) (n : NodeId) (event : String) : List Listener × Page :=
  (p.listenersFor n event,
    { p with
      forest := p.forest.modify n fun c =>
        { c with listeners := c.listeners.filter fun l => !(l.once && l.event == event) } })

/-! ### Mounting -/

/-- The mount at the element of the document that the settings name. -/
def mountFor (p : Page) (settings : Settings) : Except RenderFault Mount :=
  match p.forest.select? p.body (.ofString settings.container) with
  | some n => .ok ⟨n, settings.defaultClass⟩
  | none => .error (.noContainer settings.container)

/-- Appends nodes to a fragment, one after the other. -/
def appendAll (f : Forest) (p : NodeId) : List NodeId → Forest
  | [] => f
  | n :: ns => appendAll (f.append p n).2 p ns

/-- Moves what a mount shows into a new fragment. -/
def save (p : Page) (m : Mount) : NodeId × Page :=
  let (fragment, f) := p.forest.create .fragment ""
  let (nodes, f) := f.takeChildren m.container
  (fragment, { p with forest := appendAll f fragment nodes })

end Page

end LiveMarkup
