import LiveMarkup.Run.World

/-!
# Releasing nodes

A node is kept as long as something holds it: a name, the document, a slot, a mount, an event that
is being handled, a task that is to act on it, an observer that shows a value at it, or a node that
is kept and has it as a child or an attribute.  A node does not keep its parent.  What nothing holds
is released: it is taken apart, so that the nodes that were below it have no parent any more.
-/

namespace LiveMarkup

namespace Forest

/-- The nodes at and below the given nodes with their attribute nodes, to a depth of `fuel`. -/
def heldBelow (f : Forest) : Nat → List NodeId → List NodeId
  | 0, _ => []
  | fuel + 1, ns => ns.flatMap fun n => n :: f.attributes n ++ f.heldBelow fuel (f.children n)

/-- For every node, whether it is one of the given nodes or held by one. -/
def keptBy (f : Forest) (ns : List NodeId) : Array Bool :=
  (f.heldBelow (f.size + 1) ns).foldl (fun kept n => kept.setIfInBounds n true)
    (Array.replicate f.size false)

/-- Takes a node apart: its children and attribute nodes belong to nothing, and it has no
listeners. -/
def takeApart (f : Forest) (n : NodeId) : Forest :=
  let f := (f.children n ++ f.attributes n).foldl (fun f c => f.setParent c none) f
  f.modify n fun c => { c with children := [], attributes := [], listeners := [] }

end Forest

namespace World

/-- The observers that something can still run. -/
def liveObservers (w : World) : List Nat :=
  let r := w.signals.reactive
  let signals := w.signals.names.flatMap fun (_, h) => [h.whole, h.half]
  w.signals.effects.map Prod.snd ++ w.signals.observers.map Prod.snd ++ r.pending ++ r.running ++
    r.stack.filterMap id ++ signals.flatMap r.subscribers

/-- The node at which an observer shows a value. -/
def liveTarget? (w : World) (o : Nat) : Option NodeId :=
  match w.signals.reactive.observers[o]? with
  | none => none
  | some ob =>
    match w.routines[ob.routine]? with
    | some (.live _ target) => some target
    | _ => none

/-- The node on which a task is to act. -/
def taskTarget? (w : World) (task : Nat) : Option NodeId :=
  match w.tasks.scheduler.program task with
  | .deferred _ target => some target
  | _ => none

/-- The nodes that are held by something other than a node. -/
def heldNodes (w : World) : List NodeId :=
  let p := w.page
  let pool := w.tasks.scheduler.pool
  p.body :: p.nodes.map Prod.snd ++ p.slots.map Prod.snd ++
    p.mounts.map (fun (_, m) => m.container) ++
    p.events.flatMap (fun e => e.target :: e.current.toList) ++ w.held ++
    (pool.active ++ pool.incoming).filterMap w.taskTarget? ++
    w.liveObservers.filterMap w.liveTarget?

/-- The nodes that nothing holds and that have not been released. -/
def lostNodes (w : World) : List NodeId :=
  let kept := w.forest.keptBy w.heldNodes
  (List.range w.forest.size).filter fun n => !(kept.getD n false) && !w.page.gone.contains n

/-- Releases what nothing holds. -/
def release (w : World) : World :=
  let lost := w.lostNodes
  { w with
    page :=
      { w.page with
        forest := lost.foldl Forest.takeApart w.forest
        gone := lost ++ w.page.gone } }

end World

end LiveMarkup
