import LiveMarkup.Forest.Cell
import LiveMarkup.Script.Command

/-!
# Tasks, channels and machines

The scheduler holds what tasks wait for.  A channel carries one message from its sender to its
receiver; either end can be dropped.  A machine is armed with the names of transitions and holds the
sender of a channel: the first transition that fires sends its text and settles the state.  A
`Source` is a value that may come later, and a machine state is a race between the receiver of its
own channel and other sources.

Waking a task puts it at the end of the line of tasks that are ready, unless it stands there
already. This module runs no code of a task.
-/

namespace LiveMarkup

/-- What a channel carries: a text, and the value that it stands for in a template. -/
structure Message where
  text : String
  value : Spec
  deriving Inhabited

/-- A channel for one message; `waiting` is the task to wake when the outcome is known. -/
structure Channel where
  message : Option Message
  senderGone : Bool
  receiverGone : Bool
  waiting : Option Nat
  deriving Inhabited

/-- The transitions that a state is armed with, the channel of the state while it is not settled,
and the number of states so far. -/
structure Machine where
  armed : List String
  pending : Option Nat
  generation : Nat
  deriving DecidableEq, Repr, Inhabited

/-- A text that may come later. -/
inductive Source where
  /-- The receiver of a channel. -/
  | channel (channel : Nat)
  | ready (value : String)
  | never
  /-- The receiver of the channel of a state: if its sender is dropped, no value comes. -/
  | fired (channel : Nat)
  /-- The state of a machine that began a generation: the first of the racers to have a value. -/
  | state (machine generation : Nat) (racers : List Source)
  deriving Inhabited

/-- Where the value for a hole comes from when it comes later. -/
inductive Promise where
  | value (value : Spec)
  | channel (channel : Nat)
  deriving Inhabited

/-- What a task does next. -/
inductive Program where
  /-- Commands, innermost list first, with what the task waits for before them. -/
  | script (frames : List Script) (waiting : Option (Source × List (String × Script)))
      (fallible : Bool)
  /-- Applies a value to a node when it comes. -/
  | deferred (promise : Promise) (target : NodeId)
  /-- Keeps a value when it comes. -/
  | keep (source : Source)
  deriving Inhabited

/-- The line of tasks.  New tasks join it when `incoming` is emptied; `active` tasks are those that
have joined and not finished. -/
structure Pool where
  incoming : List Nat
  active : List Nat
  ready : List Nat
  polling : Bool
  deriving DecidableEq, Repr

/-- The state of all tasks, channels and machines. -/
structure Scheduler where
  channels : Array Channel
  machines : Array Machine
  pool : Pool
  programs : Array Program
  /-- The values kept by tasks that have finished. -/
  kept : List (Nat × String)
  /-- The errors of fallible tasks, in order. -/
  errors : List String

namespace Scheduler

/-- No tasks, channels or machines. -/
def empty : Scheduler := ⟨#[], #[], ⟨[], [], [], false⟩, #[], [], []⟩

/-! ### The line of tasks -/

/-- Adds a task that has not joined the line. -/
def spawn (s : Scheduler) (p : Program) : Nat × Scheduler :=
  (s.programs.size,
    { s with
      programs := s.programs.push p
      pool := { s.pool with incoming := s.pool.incoming ++ [s.programs.size] } })

/-- Lets the new tasks join the line. -/
def joinLine (s : Scheduler) : Scheduler :=
  { s with
    pool :=
      { s.pool with
        incoming := []
        active := s.pool.active ++ s.pool.incoming
        ready := s.pool.ready ++ s.pool.incoming } }

/-- Puts a task at the end of the line unless it has finished or stands there already. -/
def wake (s : Scheduler) (task : Nat) : Scheduler :=
  if s.pool.active.contains task && !s.pool.ready.contains task then
    { s with pool := { s.pool with ready := s.pool.ready ++ [task] } }
  else s

/-- Takes the first task out of the line. -/
def next? (s : Scheduler) : Option (Nat × Scheduler) :=
  match s.pool.ready with
  | [] => none
  | task :: ready => some (task, { s with pool := { s.pool with ready := ready } })

/-- Ends a task. -/
def finish (s : Scheduler) (task : Nat) : Scheduler :=
  { s with pool := { s.pool with active := s.pool.active.erase task } }

/-- What a task does next. -/
def program (s : Scheduler) (task : Nat) : Program := s.programs.getD task default

/-- Changes what a task does next. -/
def setProgram (s : Scheduler) (task : Nat) (p : Program) : Scheduler :=
  { s with programs := s.programs.modify task fun _ => p }

/-- Records the error of a fallible task. -/
def addError (s : Scheduler) (message : String) : Scheduler :=
  { s with errors := s.errors ++ [message] }

/-! ### Channels -/

/-- Adds a channel. -/
def addChannel (s : Scheduler) : Nat × Scheduler :=
  (s.channels.size, { s with channels := s.channels.push ⟨none, false, false, none⟩ })

/-- The state of a channel. -/
def channel (s : Scheduler) (c : Nat) : Channel := s.channels.getD c default

/-- Changes the state of one channel. -/
def modifyChannel (s : Scheduler) (c : Nat) (change : Channel → Channel) : Scheduler :=
  { s with channels := s.channels.modify c change }

/-- Wakes the task that waits for a channel, which waits no longer. -/
def wakeWaiting (s : Scheduler) (c : Nat) : Scheduler :=
  match (s.channel c).waiting with
  | some task => (s.modifyChannel c fun ch => { ch with waiting := none }).wake task
  | none => s

/-- Sends a message and drops the sender; false if the receiver is gone. -/
def send (s : Scheduler) (c : Nat) (m : Message) : Bool × Scheduler :=
  if (s.channel c).receiverGone then
    (false, s.modifyChannel c fun ch => { ch with senderGone := true })
  else
    (true,
      (s.modifyChannel c fun ch => { ch with message := some m, senderGone := true }).wakeWaiting c)

/-- Drops the sender of a channel. -/
def dropSender (s : Scheduler) (c : Nat) : Scheduler :=
  if (s.channel c).senderGone then s
  else (s.modifyChannel c fun ch => { ch with senderGone := true }).wakeWaiting c

/-- Drops the receiver of a channel. -/
def dropReceiver (s : Scheduler) (c : Nat) : Scheduler :=
  s.modifyChannel c fun ch => { ch with receiverGone := true, waiting := none, message := none }

/-- What a receiver sees. -/
inductive Received where
  | message (m : Message)
  | canceled
  | nothing

/-- Looks into a channel for a task, which is woken later if nothing is there.  A receiver with an
outcome is used up. -/
def receive (s : Scheduler) (task c : Nat) : Received × Scheduler :=
  match (s.channel c).message, (s.channel c).senderGone with
  | some m, _ => (.message m, s.dropReceiver c)
  | none, true => (.canceled, s.dropReceiver c)
  | none, false => (.nothing, s.modifyChannel c fun ch => { ch with waiting := some task })

/-! ### Sources -/

mutual

/-- Drops a source with the receivers it holds. -/
def dropSource (s : Scheduler) : Source → Scheduler
  | .channel c => s.dropReceiver c
  | .fired c => s.dropReceiver c
  | .state _ _ racers => s.dropSources racers
  | .ready _ => s
  | .never => s

/-- Drops several sources. -/
def dropSources (s : Scheduler) : List Source → Scheduler
  | [] => s
  | source :: sources => (s.dropSource source).dropSources sources

end

/-- The state of a machine. -/
def machine (s : Scheduler) (m : Nat) : Machine := s.machines.getD m default

/-- Changes the state of one machine. -/
def modifyMachine (s : Scheduler) (m : Nat) (change : Machine → Machine) : Scheduler :=
  { s with machines := s.machines.modify m change }

/-- What a task sees when it looks at a source: a value, no value ever from this source, or the
source to look at again. -/
inductive Polled where
  | value (text : String)
  | canceled
  | pending (source : Source)
  deriving Inhabited

/-- The text that stands for the message of a channel whose sender was dropped. -/
def canceledText : String := "<canceled>"

/-- The first racer with an outcome: its place, its value if it has one, and all racers after they
were looked at. -/
def race (poll : Scheduler → Source → Polled × Scheduler) (s : Scheduler) :
    List Source → (Option (Nat × Option String) × List Source) × Scheduler
  | [] => ((none, []), s)
  | racer :: racers =>
    match poll s racer with
    | (.value text, s) => ((some (0, some text), racer :: racers), s)
    | (.canceled, s) => ((some (0, none), racer :: racers), s)
    | (.pending racer, s) =>
      match race poll s racers with
      | ((outcome, racers), s) => ((outcome.map fun (i, v) => (i + 1, v), racer :: racers), s)

/-- Removes the item at place `i`; the last item takes its place. -/
def swapRemove (sources : List Source) (i : Nat) : List Source :=
  match sources.getLast? with
  | some last => (sources.set i last).dropLast
  | none => []

/-- Drops the sender of the state of a machine that is not settled. -/
def dropPending (s : Scheduler) (m : Nat) : Scheduler :=
  match (s.machine m).pending with
  | some c => (s.modifyMachine m fun a => { a with pending := none }).dropSender c
  | none => s

/-- Settles a state: the machine is armed no longer, unless another state has begun. -/
def settle (s : Scheduler) (m generation : Nat) : Scheduler :=
  if (s.machine m).generation = generation then
    (s.modifyMachine m fun a => { a with armed := [] }).dropPending m
  else s

/-- Lets a task look at a source, to a depth of `fuel`.  A state that loses its own receiver goes on
with the other racers. -/
def pollTo (task : Nat) : Nat → Scheduler → Source → Polled × Scheduler
  | 0, s, source => (.pending source, s)
  | fuel + 1, s, source =>
    match source with
    | .ready text => (.value text, s)
    | .never => (.pending .never, s)
    | .channel c =>
      match s.receive task c with
      | (.message m, s) => (.value m.text, s)
      | (.canceled, s) => (.value canceledText, s)
      | (.nothing, s) => (.pending source, s)
    | .fired c =>
      match s.receive task c with
      | (.message m, s) => (.value m.text, s)
      | (.canceled, s) => (.canceled, s)
      | (.nothing, s) => (.pending source, s)
    | .state m generation racers =>
      let won (s : Scheduler) (racers : List Source) (i : Nat) (text : String) :=
        (Polled.value text, (s.dropSources (swapRemove racers i)).settle m generation)
      match race (pollTo task fuel) s racers with
      | ((none, racers), s) => (.pending (.state m generation racers), s)
      | ((some (i, some text), racers), s) => won s racers i text
      | ((some (i, none), racers), s) =>
        match race (pollTo task fuel) s (swapRemove racers i) with
        | ((some (i, some text), racers), s) => won s racers i text
        | ((_, racers), s) => (.pending (.state m generation racers), s)

mutual

/-- How deep states are nested in a source. -/
def depth : Source → Nat
  | .state _ _ racers => depths racers + 1
  | .channel _ => 0
  | .fired _ => 0
  | .ready _ => 0
  | .never => 0

/-- How deep states are nested in several sources. -/
def depths : List Source → Nat
  | [] => 0
  | source :: sources => max (depth source) (depths sources)

end

/-- Lets a task look at a source. -/
def poll (task : Nat) (s : Scheduler) (source : Source) : Polled × Scheduler :=
  pollTo task (depth source + 1) s source

/-! ### Machines -/

/-- Adds a machine in no state. -/
def addMachine (s : Scheduler) : Nat × Scheduler :=
  (s.machines.size, { s with machines := s.machines.push ⟨[], none, 0⟩ })

/-- Whether a transition can fire. -/
def isArmed (s : Scheduler) (m : Nat) (name : String) : Bool :=
  (s.machine m).pending.isSome && (s.machine m).armed.contains name

/-- Begins a state: arms the machine with names, abandons the state before it, and gives the race
between a transition and the other sources. -/
def begin (s : Scheduler) (m : Nat) (names : List String) (extras : List Source) :
    Source × Scheduler :=
  let (c, s) := s.addChannel
  let generation := (s.machine m).generation + 1
  let s := (s.modifyMachine m fun a => { a with armed := names.eraseDups }).dropPending m
  let s := s.modifyMachine m fun a => { a with pending := some c, generation := generation }
  (.state m generation (.fired c :: extras), s)

/-- Fires a transition with a text; false if it is not armed or its state was dropped. -/
def fire (s : Scheduler) (m : Nat) (name text : String) : Bool × Scheduler :=
  if s.isArmed m name then
    match (s.machine m).pending with
    | some c =>
      (s.modifyMachine m fun a => { a with pending := none }).send c ⟨text, .text text⟩
    | none => (false, s)
  else (false, s)

end Scheduler

end LiveMarkup
