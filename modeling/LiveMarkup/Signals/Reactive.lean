import LiveMarkup.Signals.Value

/-!
# Signals and their observers

A signal keeps a list of subscribers: the observers that have read it since it was last changed.
Reading a signal subscribes the current observer, the top of the stack of observers.  Changing a
signal empties its list and puts every subscriber that is not there yet into the batch of pending
observers; the first of a batch also queues a flush.

This module holds the state and the operations that run no code of an observer.  What an observer
runs is known here by number only.
-/

namespace LiveMarkup

/-- A value with the observers that have read it since it was last changed. -/
structure Signal where
  value : Value
  subscribers : List Nat
  deriving DecidableEq, Repr, Inhabited

/-- An observer, with the number of the routine it runs.  An effect is tracked while it runs: what
it reads, it observes. -/
structure Observer where
  isEffect : Bool
  routine : Nat
  deriving DecidableEq, Repr, Inhabited

/-- A queued task: the flush of a batch, or a routine. -/
inductive Microtask where
  | flush
  | routine (routine : Nat)
  deriving DecidableEq, Repr

/-- The state of all signals and observers. -/
structure Reactive where
  signals : Array Signal
  observers : Array Observer
  /-- The current observer and those it interrupted; nothing where reads are not tracked. -/
  stack : List (Option Nat)
  /-- The batch of observers that a flush runs, in order. -/
  pending : List Nat
  /-- Whether the batch already has a flush. -/
  scheduled : Bool
  queue : List Microtask
  /-- The effects whose routine has begun and not ended. -/
  running : List Nat
  deriving DecidableEq, Repr

namespace Reactive

/-- No signals and no observers. -/
def empty : Reactive := ⟨#[], #[], [], [], false, [], []⟩

/-! ### Observers -/

/-- Adds an observer. -/
def addObserver (r : Reactive) (o : Observer) : Nat × Reactive :=
  (r.observers.size, { r with observers := r.observers.push o })

/-- The observer whose reads are tracked now. -/
def current (r : Reactive) : Option Nat := r.stack.head?.join

/-- Lets an observer, or nobody, be the current one. -/
def push (r : Reactive) (o : Option Nat) : Reactive := { r with stack := o :: r.stack }

/-- Ends the last `push`. -/
def pop (r : Reactive) : Reactive := { r with stack := r.stack.tail }

/-- Marks an effect as running. -/
def start (r : Reactive) (o : Nat) : Reactive := { r with running := o :: r.running }

/-- Ends the last `start` of an effect. -/
def finish (r : Reactive) (o : Nat) : Reactive := { r with running := r.running.erase o }

/-- Queues a task. -/
def enqueue (r : Reactive) (t : Microtask) : Reactive := { r with queue := r.queue ++ [t] }

/-- Puts an observer into the batch unless it is there, and queues a flush if the batch has none. -/
def schedule (r : Reactive) (o : Nat) : Reactive :=
  let r := if r.pending.contains o then r else { r with pending := r.pending ++ [o] }
  if r.scheduled then r else { r with scheduled := true }.enqueue .flush

/-- Closes the batch after a flush. -/
def closeBatch (r : Reactive) : Reactive := { r with pending := [], scheduled := false }

/-! ### Signals -/

/-- Adds a signal. -/
def addSignal (r : Reactive) (v : Value) : Nat × Reactive :=
  (r.signals.size, { r with signals := r.signals.push ⟨v, []⟩ })

/-- The value of a signal. -/
def value (r : Reactive) (s : Nat) : Value := (r.signals.getD s default).value

/-- The observers that have read a signal since it was last changed. -/
def subscribers (r : Reactive) (s : Nat) : List Nat := (r.signals.getD s default).subscribers

/-- Changes the state of one signal. -/
def modifySignal (r : Reactive) (s : Nat) (change : Signal → Signal) : Reactive :=
  { r with signals := r.signals.modify s change }

/-- Subscribes an observer to a signal unless it is subscribed. -/
def subscribe (r : Reactive) (s o : Nat) : Reactive :=
  if (r.subscribers s).contains o then r
  else r.modifySignal s fun g => { g with subscribers := g.subscribers ++ [o] }

/-- Subscribes the current observer to a signal. -/
def track (r : Reactive) (s : Nat) : Reactive :=
  match r.current with
  | some o => r.subscribe s o
  | none => r

/-- Schedules the subscribers of a signal, which are no longer subscribed. -/
def notify (r : Reactive) (s : Nat) : Reactive :=
  (r.subscribers s).foldl schedule (r.modifySignal s fun g => { g with subscribers := [] })

/-- Writes a value to a signal. -/
def write (r : Reactive) (s : Nat) (v : Value) : Reactive :=
  r.modifySignal s fun g => { g with value := v }

/-- Sets a signal; setting it to an equal value changes nothing. -/
def set (r : Reactive) (s : Nat) (v : Value) : Reactive :=
  if (r.value s).equal v then r else (r.write s v).notify s

/-- Updates a signal with an argument; this always counts as a change. -/
def update (r : Reactive) (s : Nat) (arg : Value) : Reactive :=
  (r.write s ((r.value s).updated arg)).notify s

end Reactive

end LiveMarkup
