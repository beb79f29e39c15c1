import LiveMarkup.Run.World

/-!
# Running handlers of events

An event visits its target and then the ancestors of the target from the inside out.  At each node
it runs the listeners that were registered there when it came; those that run only once are taken
off before any of them runs.  A handler that stops the event keeps it from the ancestors, not from
the other listeners of its node.
-/

namespace LiveMarkup.Run

open Activity

/-- Runs handlers one after the other. -/
def handlers (run : Runner) : List Listener → Activity Unit
  | [] => return ()
  | l :: ls => do
    run (.routine l.handler)
    handlers run ls

/-- Takes the listeners of a node that the current event runs. -/
def takeListeners (n : NodeId) : Activity (List Listener) := fun w =>
  match w.page.events with
  | [] => some ([], w)
  | e :: _ =>
    let (ls, p) := w.page.takeListeners n e.event
    some (ls, { w with page := p })

/-- Whether the current event has been stopped. -/
def isStopped (w : World) : Bool :=
  match w.page.events with
  | [] => true
  | e :: _ => e.stopped

/-- Runs the listeners of a node for the current event, then those of its ancestors. -/
def bubble (run : Runner) (n : NodeId) : Activity Unit := do
  modify fun w => { w with page := w.page.modifyEvent fun e => { e with current := some n } }
  handlers run (← takeListeners n)
  let w ← get
  if isStopped w then return ()
  else
    match w.forest.parent n with
    | some p => run (.bubble p)
    | none => return ()

/-- Handles an event while something is done, and gives the event as it is after it. -/
def handling (event : String) (target : NodeId) (action : Activity Unit) : Activity Event := do
  let e : Event := ⟨event, target, none, false, false⟩
  modify fun w => { w with page := { w.page with events := e :: w.page.events } }
  action
  fun w =>
    match w.page.events with
    | [] => some (e, w)
    | e :: es => some ({ e with current := none }, { w with page := { w.page with events := es } })

/-- Dispatches an event at a node. -/
def dispatch (run : Runner) (target : NodeId) (event : String) : Activity Reply := do
  let e ← handling event target (run (.bubble target))
  return .event ((← get).page.report e)

/-- The text that a transition yields. -/
def transitionText (w : World) : TransitionText → String
  | .fixed s => s
  | .signal name =>
    match w.signals.signal? name false with
    | .ok g =>
      match w.signals.reactive.value g with
      | .text s => s
      | _ => ""
    | .error _ => ""

/-- Fires a transition of a machine if it is armed. -/
def transition (run : Runner) (m : Nat) (name : String) (step : Option TransitionStep) :
    Activity Unit := do
  if (← get).tasks.scheduler.isArmed m name then
    match step with
    | none => do
      let _ ← schedule (·.fire m name name)
      return ()
    | some (.mk commands text plain) => do
      body run commands
      let s := transitionText (← get) text
      if plain || !s.isEmpty then
        let _ ← schedule (·.fire m name s)
        return ()
      else return ()
  else return ()

end LiveMarkup.Run
