import LiveMarkup.Script.Reply
import LiveMarkup.Script.Table
import LiveMarkup.Tasks.Scheduler

/-!
# Commands on channels and machines

The scheduler with the names that scripts have given to the ends of channels, to machines and to the
values that machines yield.  What is named is held: binding a name again drops what it held before,
and an end of a channel or a value that is taken is no longer there to be taken.
-/

namespace LiveMarkup

/-- The scheduler with the names of what it holds. -/
structure Tasks where
  scheduler : Scheduler
  senders : Table Nat
  receivers : Table Nat
  machines : Table Nat
  futures : Table Source

namespace Tasks

/-- No tasks. -/
def empty : Tasks := ⟨.empty, [], [], [], []⟩

/-- Takes the sender of a named channel. -/
def takeSender (t : Tasks) (name : String) : Option Nat × Tasks :=
  (t.senders.get? name, { t with senders := t.senders.unbind name })

/-- Drops both ends of a named channel that are still there. -/
def dropChannel (t : Tasks) (name : String) : Tasks :=
  let s := match t.senders.get? name with
    | some c => t.scheduler.dropSender c
    | none => t.scheduler
  let s := match t.receivers.get? name with
    | some c => s.dropReceiver c
    | none => s
  { t with
    scheduler := s
    senders := t.senders.unbind name
    receivers := t.receivers.unbind name }

/-- Adds a channel and names both its ends. -/
def addChannel (t : Tasks) (name : String) : Tasks :=
  let t := t.dropChannel name
  let (c, s) := t.scheduler.addChannel
  { t with
    scheduler := s
    senders := t.senders.bind name c
    receivers := t.receivers.bind name c }

/-- Takes what may yield a value later. -/
def take (t : Tasks) : Awaitable → Except Failure Source × Tasks
  | .future name =>
    match t.futures.get? name with
    | some source => (.ok source, { t with futures := t.futures.unbind name })
    | none => (.error (.unbound name), t)
  | .channel name =>
    match t.receivers.get? name with
    | some c => (.ok (.channel c), { t with receivers := t.receivers.unbind name })
    | none => (.error (.unbound name), t)
  | .ready value => (.ok (.ready value), t)
  | .never => (.ok .never, t)

/-- Takes several sources; what cannot be taken never yields a value. -/
def takeAll (t : Tasks) : List Awaitable → List Source × Tasks
  | [] => ([], t)
  | value :: values =>
    match t.take value with
    | (source, t) =>
      match t.takeAll values with
      | (sources, t) => ((source.toOption.getD .never) :: sources, t)

/-- Drops the value of a machine that a name holds; false if it holds none. -/
def dropFuture (t : Tasks) (name : String) : Bool × Tasks :=
  match t.futures.get? name with
  | some source =>
    (true,
      { t with
        scheduler := t.scheduler.dropSource source
        futures := t.futures.unbind name })
  | none => (false, t)

/-- Begins a state of a machine and names its value. -/
def begin (t : Tasks) (m : Nat) (names : List String) (extras : List Awaitable) (as : String) :
    Tasks :=
  let (sources, t) := t.takeAll extras
  let (source, s) := t.scheduler.begin m names sources
  let (_, t) := { t with scheduler := s }.dropFuture as
  { t with futures := t.futures.bind as source }

/-- The machine bound to a name. -/
def machine? (t : Tasks) (name : String) : Except Failure Nat :=
  match t.machines.get? name with
  | some m => .ok m
  | none => .error (.unbound name)

/-- The names that a machine is armed with, sorted. -/
def armedNames (m : Machine) : List String := m.armed.mergeSort fun a b => decide (a ≤ b)

/-- The description of a machine. -/
def describe (m : Machine) : String :=
  "Machine \x7b armed: \x7b" ++ ", ".intercalate ((armedNames m).map Text.quoted) ++
    "\x7d, pending: " ++ (if m.pending.isSome then "true" else "false") ++ " \x7d"

/-- What is said of a channel whose sender has been used. -/
def noSender : Reply := .text "<no sender>"

/-- Sends a message through a named channel. -/
def send (t : Tasks) (name : String) (m : Message) : Reply × Tasks :=
  match t.takeSender name with
  | (some c, t) =>
    let (sent, s) := t.scheduler.send c m
    (.flag sent, { t with scheduler := s })
  | (none, t) => (noSender, t)

/-- Carries out a command on channels and machines. -/
def run (t : Tasks) : TaskCommand → Reply × Tasks
  | .channel as => (.nothing, t.addChannel as)
  | .dropSender name =>
    match t.takeSender name with
    | (some c, t) => (.flag false, { t with scheduler := t.scheduler.dropSender c })
    | (none, t) => (noSender, t)
  | .machine as =>
    let (m, s) := t.scheduler.addMachine
    (.nothing, { t with scheduler := s, machines := t.machines.bind as m })
  | .state name names extras as =>
    match t.machine? name with
    | .ok m => (.nothing, t.begin m names extras as)
    | .error f => (.failure f, t)
  | .dropFuture name =>
    let (dropped, t) := t.dropFuture name
    (.flag dropped, t)
  | .fire name transition value =>
    match t.machine? name with
    | .ok m =>
      let (fired, s) := t.scheduler.fire m transition value
      (.flag fired, { t with scheduler := s })
    | .error f => (.failure f, t)
  | .armed name =>
    match t.machine? name with
    | .ok m => (.texts (armedNames (t.scheduler.machine m)), t)
    | .error f => (.failure f, t)
  | .isArmed name transition =>
    match t.machine? name with
    | .ok m => (.flag (t.scheduler.isArmed m transition), t)
    | .error f => (.failure f, t)
  | .describeMachine name =>
    match t.machine? name with
    | .ok m => (.text (describe (t.scheduler.machine m)), t)
    | .error f => (.failure f, t)
  | .takeErrors =>
    (.texts t.scheduler.errors, { t with scheduler := { t.scheduler with errors := [] } })

end Tasks

end LiveMarkup
