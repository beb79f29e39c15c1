import LiveMarkup.Cards.Command
import LiveMarkup.Page.Command
import LiveMarkup.Screen.Expression
import LiveMarkup.Screen.Placement
import LiveMarkup.Signals.Command
import LiveMarkup.Tasks.Command
import LiveMarkup.Template.Command

/-!
# The world that scripts run in

A `World` holds a page, signals, tasks, templates and cards, and the routines that handlers and
observers run.  What runs is an `Activity` on the world: it gives a result, or nothing when its fuel
has run out.

Code that runs other code does not call it directly.  It asks for a `Job`, and how jobs are done is
a parameter, the `Runner`; so each part of the machinery is a definition of its own, and the knot is
tied in one place.
-/

namespace LiveMarkup

/-- What a handler or an observer runs. -/
inductive Routine where
  | script (body : Script)
  /-- Fires a transition of a machine if it is armed. -/
  | transition (machine : Nat) (name : String) (step : Option TransitionStep)
  /-- Shows a value at a node. -/
  | live (value : Spec) (target : NodeId)
  deriving Inhabited

/-- All that scripts work on. -/
structure World where
  page : Page
  signals : Signals
  tasks : Tasks
  templates : Templates
  cabinet : Cabinet
  routines : Array Routine
  callbacks : Table Nat
  procedures : Table Script
  /-- Nodes that are held by what is going on. -/
  held : List NodeId
  /-- What has been noted, in order. -/
  log : List Reply

namespace World

/-- A fresh world, whose markers have the given base. -/
def fresh (base : String) : World :=
  ⟨.fresh, .empty, .empty, .empty base, .empty, #[], [], [], [], []⟩

/-- The forest of the page. -/
def forest (w : World) : Forest := w.page.forest

/-- Changes the forest of the page. -/
def setForest (w : World) (f : Forest) : World := { w with page := { w.page with forest := f } }

/-- Changes the signals and observers. -/
def modifyReactive (w : World) (change : Reactive → Reactive) : World :=
  { w with signals := w.signals.modify change }

/-- Changes the scheduler. -/
def setScheduler (w : World) (s : Scheduler) : World :=
  { w with tasks := { w.tasks with scheduler := s } }

/-- Adds a routine. -/
def addRoutine (w : World) (routine : Routine) : Nat × World :=
  (w.routines.size, { w with routines := w.routines.push routine })

/-- Notes a reply, unless there is nothing to report. -/
def note (w : World) (reply : Reply) : World :=
  if reply.isNothing then w else { w with log := w.log ++ [reply] }

end World

/-- Something that is done to the world. -/
abbrev Activity (α : Type) := StateT World Option α

/-- What code can ask for. -/
inductive Job where
  | command (command : Command)
  | routine (routine : Nat)
  | observer (observer : Nat)
  /-- Runs the pending observers from a place of the batch on, and closes the batch. -/
  | flush (place : Nat)
  /-- Runs all queued tasks; `count` have run before. -/
  | drain (count : Nat)
  /-- Runs the listeners of a node for the current event, then those of its ancestors. -/
  | bubble (node : NodeId)
  | build (spec : Spec)
  | apply (expression : Expression) (node : NodeId)
  /-- Goes on with the commands of a task. -/
  | resume (task : Nat)
  /-- Polls tasks that are ready; of `count` tasks in the line, `polled` have been polled and
  `yielded` of these asked to be polled again. -/
  | poll (count polled yielded : Nat)
  /-- Polls tasks until none is ready. -/
  | turn
  /-- Polls tasks and runs queued tasks until nothing can move. -/
  | settle

/-- The result of a job. -/
abbrev Job.Result : Job → Type
  | command _ => Reply
  | routine _ => Unit
  | observer _ => Unit
  | flush _ => Unit
  | drain _ => Nat
  | bubble _ => Unit
  | build _ => Expression
  | apply _ _ => Except RenderFault Unit
  | resume _ => Bool
  | poll _ _ _ => Unit
  | turn => Unit
  | settle => Bool

/-- A way of doing jobs. -/
abbrev Runner := (job : Job) → Activity job.Result

namespace Activity

/-- Notes a reply. -/
def note (reply : Reply) : Activity Unit := modify fun w => w.note reply

/-- Changes the signals and observers. -/
def reactive (change : Reactive → Reactive) : Activity Unit :=
  modify fun w => w.modifyReactive change

/-- Places a value in the forest. -/
def place (placement : Forest → Forest.Placed) : Activity (Except RenderFault Unit) := fun w =>
  let (outcome, f) := placement w.forest
  some (outcome, w.setForest f)

/-- Makes a new node. -/
def create (kind : Kind) (data : String) : Activity NodeId := fun w =>
  let (n, f) := w.forest.create kind data
  some (n, w.setForest f)

/-- Adds a routine. -/
def addRoutine (routine : Routine) : Activity Nat := fun w => some (w.addRoutine routine)

/-- Works on the scheduler. -/
def schedule {α : Type} (operation : Scheduler → α × Scheduler) : Activity α := fun w =>
  let (a, s) := operation w.tasks.scheduler
  some (a, w.setScheduler s)

/-- Holds nodes while something is done. -/
def holding {α : Type} (nodes : List NodeId) (action : Activity α) : Activity α := do
  let held := (← get).held
  modify fun w => { w with held := nodes ++ held }
  let a ← action
  modify fun w => { w with held := held }
  return a

/-- Drops expressions that are not used any more, with the receivers they hold. -/
def discard (expressions : List Expression) : Activity Unit := modify fun w =>
  w.setScheduler
    ((Expression.channelsAll expressions).foldl Scheduler.dropReceiver w.tasks.scheduler)

/-- Runs the commands of a body in order and notes what they reply. -/
def body (run : Runner) : Script → Activity Unit
  | [] => return ()
  | command :: commands => do
    note (← run (.command command))
    body run commands

end Activity

end LiveMarkup
