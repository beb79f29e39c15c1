import LiveMarkup.Run.Events
import LiveMarkup.Run.Release
import LiveMarkup.Run.Screens
import LiveMarkup.Run.Tasks

/-!
# Running commands

Commands that run no other code change one part of the world.  The others ask for jobs.
-/

namespace LiveMarkup.Run

open Activity

/-- Carries out a command on the page. -/
def onPage (c : PageCommand) : Activity Reply := fun w =>
  let (outcome, p) := (PageAction.ofCommand c).on w.page
  some (.ofExcept id outcome, { w with page := p })

/-- Carries out a command on signals. -/
def onSignals (c : SignalCommand) : Activity Reply := fun w =>
  let (reply, s) := w.signals.run c
  some (reply, { w with signals := s })

/-- Carries out a command on templates. -/
def onTemplates (c : TemplateCommand) : Activity Reply := fun w =>
  let (reply, t) := w.templates.run c
  some (reply, { w with templates := t })

/-- Carries out a command on cards. -/
def onCards (c : CardCommand) : Activity Reply := fun w =>
  let (reply, s) := w.cabinet.run c
  some (reply, { w with cabinet := s })

/-- Carries out a command on channels and machines. -/
def onTasks (c : TaskCommand) : Activity Reply := fun w =>
  let (reply, t) := w.tasks.run c
  some (reply, { w with tasks := t })

/-- Sends a message through a named channel. -/
def send (channel : String) (m : Message) : Activity Reply := fun w =>
  let (reply, t) := w.tasks.send channel m
  some (reply, { w with tasks := t })

/-- The node bound to a name. -/
def node (name : String) : Activity (Except Failure NodeId) := fun w =>
  match w.page.nodes.get? name with
  | some n => some (.ok n, w)
  | none => some (.error (.unbound name), w)

/-- Does something with the node bound to a name. -/
def withNode (name : String) (action : NodeId → Activity Reply) : Activity Reply := do
  match ← node name with
  | .ok n => action n
  | .error failure => return .failure failure

/-- Adds a listener to a node and names it if a name is given. -/
def addListener (n : NodeId) (event : String) (once : Bool) (as : Option String) (routine : Nat) :
    Activity Reply := fun w =>
  let (id, p) := w.page.listen n event routine once
  some (.nothing, { w with page := { p with listeners := p.listeners.bindTo as id } })

/-- Lets a handler listen to events at a node. -/
def listen (n : NodeId) (event : String) (h : Handler) (once : Bool) (as : Option String) :
    Activity Reply := do
  match ← handler h with
  | none => return .failure (.unbound event)
  | some routine => addListener n event once as routine

/-- Frees the name of a node and releases what nothing holds any more. -/
def drop (name : String) : Activity Reply := fun w =>
  let bound := (w.page.nodes.get? name).isSome
  let w := { w with page := { w.page with nodes := w.page.nodes.unbind name } }
  some (.flag bound, w.release)

/-- Binds the routine of a callback to a name. -/
def bindCallback (as : String) (routine : Routine) : Activity Reply := do
  let n ← addRoutine routine
  modify fun w => { w with callbacks := w.callbacks.bind as n }
  return .nothing

/-- Runs the callback bound to a name with an event of its own. -/
def callCallback (run : Runner) (name : String) (n : NodeId) (event : String) : Activity Reply := do
  match (← get).callbacks.get? name with
  | none => return .failure (.unbound name)
  | some routine => do
    let _ ← handling event n (run (.routine routine))
    return .nothing

/-- Adds an effect, runs it unless it is to run later, and names it if a name is given. -/
def effect (run : Runner) (commands : Script) (as : Option String) (later : Bool) :
    Activity Reply := do
  let o ← addObserver true (.script commands)
  unless later do run (.observer o)
  modify fun w => { w with signals := { w.signals with effects := w.signals.effects.bindTo as o } }
  return .nothing

/-- Runs the effect bound to a name. -/
def runEffect (run : Runner) (name : String) : Activity Reply := do
  match (← get).signals.effects.get? name with
  | none => return .failure (.unbound name)
  | some o => do
    run (.observer o)
    return .nothing

/-- Renders values with a template and names the fragment if a name is given.  An applier is used
with static strings only. -/
def render (run : Runner) (source : TemplateSource) (specs : List Spec) (applier : Option Applier)
    (as : Option String) : Activity Reply := do
  let es ← buildAll run specs
  let rendered ← match source with
    | .segments segments => Except.mapError Failure.render <$> renderSegments run segments es
    | .strings name => do
      let t := (← get).templates
      match t.strings? name with
      | .ok s =>
        let applier := if (t.cache.stringsAt s).owned then none else applier
        Except.mapError Failure.render <$> renderStrings run s applier es
      | .error failure => pure (.error failure)
  match rendered with
  | .ok n => do
    modify fun w => { w with page := w.page.bindTo as n }
    return .text ((← get).page.inner n)
  | .error failure => return .failure failure

/-- Binds a value to a node. -/
def applyValue (run : Runner) (n : NodeId) (spec : Spec) : Activity Reply := do
  let e ← run (.build spec)
  match ← holding (n :: e.heldNodes) (run (.apply e n)) with
  | .ok () => return .text ((← get).page.outer n)
  | .error fault => return .failure (.render fault)

/-- Describes a value. -/
def describeValue (run : Runner) (spec : Spec) : Activity Reply := do
  let e ← run (.build spec)
  let f := (← get).forest
  discard [e]
  return .texts [e.kind f, e.describe f]

/-- Shows a value at an empty text. -/
def showValue (run : Runner) (spec : Spec) : Activity Reply := do
  let e ← run (.build spec)
  let kind := e.kind (← get).forest
  let n ← create .text ""
  match ← holding (n :: e.heldNodes) (run (.apply e n)) with
  | .ok () => return .texts [kind, (← get).forest.data n]
  | .error fault => return .failure (.render fault)

/-- The mount bound to a name, or the standard mount of the document. -/
def mountNamed (name : Option String) : Activity (Except Failure Mount) := fun w =>
  let (outcome, p) := (PageAction.mount name).on w.page
  some (outcome, { w with page := p })

/-- Shows a value at a mount. -/
def mount (run : Runner) (spec : Spec) (cls name : Option String) : Activity Reply := do
  let e ← run (.build spec)
  match ← mountNamed name with
  | .error failure => do
    discard [e]
    return .failure failure
  | .ok m =>
    match ← mountAt run m e cls with
    | .error fault => return .failure (.render fault)
    | .ok () => do
      let p := (← get).page
      return .text (if name.isSome then p.outer m.container else p.inner p.body)

/-- Waits for a value until nothing can move. -/
def blockOnValue (run : Runner) (value : Awaitable) : Activity Reply := do
  let w ← get
  let (source, t) := w.tasks.take value
  set { w with tasks := t }
  match source with
  | .error failure => return .failure failure
  | .ok source => return .ofOption (← blockOn run source)

/-- Binds the callback of a transition to a name. -/
def bindTransition (machine name : String) (step : Option TransitionStep) (as : String) :
    Activity Reply := do
  match (← get).tasks.machine? machine with
  | .error failure => return .failure failure
  | .ok m => bindCallback as (.transition m name step)

/-- Names a procedure. -/
def define (as : String) (commands : Script) : Activity Reply := do
  modify fun w => { w with procedures := w.procedures.bind as commands }
  return .nothing

/-- Runs the procedure bound to a name. -/
def call (run : Runner) (procedure : String) : Activity Reply := do
  match (← get).procedures.get? procedure with
  | none => return .failure (.unbound procedure)
  | some commands => do
    body run commands
    return .nothing

/-- Adds an observer that is no effect, and names it. -/
def bindObserver (as : String) (commands : Script) : Activity Reply := do
  let o ← addObserver false (.script commands)
  modify fun w =>
    { w with signals := { w.signals with observers := w.signals.observers.bind as o } }
  return .nothing

/-- Does something that has no reply of its own. -/
def silently (action : Activity Unit) : Activity Reply := do
  action
  return .nothing

/-- Queues a script. -/
def queueScript (commands : Script) : Activity Unit := do
  let n ← addRoutine (.script commands)
  reactive (·.enqueue (.routine n))

/-- Carries out a command. -/
def command (run : Runner) : Command → Activity Reply
  | .page c => onPage c
  | .signal c => onSignals c
  | .template c => onTemplates c
  | .card c => onCards c
  | .task c => onTasks c
  | .send channel text value => send channel ⟨text, value⟩
  | .log message => return .text message
  | .define as commands => define as commands
  | .call procedure => call run procedure
  | .drop name => drop name
  | .listen on event h once as => withNode on fun n => listen n event h once as
  | .dispatch on event => withNode on fun n => dispatch run n event
  | .callback as commands => bindCallback as (.script commands)
  | .callCallback name on event => withNode on fun n => callCallback run name n event
  | .effect commands as later => effect run commands as later
  | .runEffect name => runEffect run name
  | .untrack commands => silently (observing none (body run commands))
  | .microtask commands => silently (queueScript commands)
  | .runMicrotasks => return .count (← run (.drain 0))
  | .observer as commands => bindObserver as commands
  | .flush => silently (run (.flush 0))
  | .spawn commands fallible =>
    silently do let _ ← schedule (·.spawn (.script [commands] none fallible))
  | .await _ _ => return .failure (.unbound "await")
  | .fail _ => return .failure (.unbound "fail")
  | .runUntilStalled => return .flag (← run .settle)
  | .blockOn value => blockOnValue run value
  | .transition machine name step as => bindTransition machine name step as
  | .render source specs applier as => render run source specs applier as
  | .apply target spec => withNode target fun n => applyValue run n spec
  | .describeValue spec => describeValue run spec
  | .showValue spec => showValue run spec
  | .mount spec cls name => mount run spec cls name

/-- Runs a routine. -/
def routine (run : Runner) (n : Nat) : Activity Unit := do
  match (← get).routines[n]? with
  | none => return ()
  | some (.script commands) => body run commands
  | some (.transition m name step) => transition run m name step
  | some (.live value target) => showLive run value target

end LiveMarkup.Run
