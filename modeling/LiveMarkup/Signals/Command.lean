import LiveMarkup.Script.Command
import LiveMarkup.Script.Reply
import LiveMarkup.Script.Table
import LiveMarkup.Signals.Reactive

/-!
# Commands on signals

Signals and observers with the names that scripts have given them.  A named signal has two handles:
the whole signal, and the halves that only read or only write.  They lead to the same signal unless
the signal was split.
-/

namespace LiveMarkup

/-- The signals that a name leads to, through the whole signal and through its halves. -/
structure SignalHandle where
  whole : Nat
  half : Nat
  deriving DecidableEq, Repr, Inhabited

/-- Signals and observers with their names. -/
structure Signals where
  reactive : Reactive
  names : Table SignalHandle
  observers : Table Nat
  effects : Table Nat

namespace Signals

/-- No signals. -/
def empty : Signals := ⟨.empty, [], [], []⟩

/-- The signal that a name leads to. -/
def signal? (s : Signals) (name : String) (half : Bool) : Except Failure Nat :=
  match s.names.get? name with
  | some h => .ok (if half then h.half else h.whole)
  | none => .error (.unbound name)

/-- The observer or the effect that a name leads to. -/
def observer? (s : Signals) (name : String) : Except Failure Nat :=
  match (s.observers.get? name).orElse fun _ => s.effects.get? name with
  | some o => .ok o
  | none => .error (.unbound name)

/-- Changes the state of signals and observers. -/
def modify (s : Signals) (change : Reactive → Reactive) : Signals :=
  { s with reactive := change s.reactive }

/-- An observer in words: its name if it has one. -/
def nameOf (s : Signals) : Option Nat → Reply
  | none => .nothing
  | some o =>
    match s.observers.nameOf? (· == o) with
    | some name => .text name
    | none => .text ((s.effects.nameOf? (· == o)).getD "<unnamed>")

/-- Adds a signal and names it.  The halves of a split signal belong to a signal of their own. -/
def create (s : Signals) (as : String) (v : Value) (split : Bool) : Signals :=
  let (whole, r) := s.reactive.addSignal v
  let (half, r) := if split then r.addSignal v else (whole, r)
  { s with reactive := r, names := s.names.bind as ⟨whole, half⟩ }

/-- Carries out a command on signals. -/
def run (s : Signals) : SignalCommand → Reply × Signals
  | .create as v split => (.nothing, s.create as v split)
  | .read name mode half =>
    match s.signal? name half with
    | .error f => (.failure f, s)
    | .ok g =>
      let s := match mode with
        | .tracked => s.modify (·.track g)
        | .untracked => s
      (.value (s.reactive.value g), s)
  | .set name v half =>
    match s.signal? name half with
    | .error f => (.failure f, s)
    | .ok g => (.nothing, s.modify (·.set g v))
  | .update name arg half =>
    match s.signal? name half with
    | .error f => (.failure f, s)
    | .ok g => (.nothing, s.modify (·.update g arg))
  | .subscriberCount name =>
    match s.signal? name false with
    | .error f => (.failure f, s)
    | .ok g => (.count (s.reactive.subscribers g).length, s)
  | .pendingCount => (.count s.reactive.pending.length, s)
  | .schedule name =>
    match s.observer? name with
    | .error f => (.failure f, s)
    | .ok o => (.nothing, s.modify (·.schedule o))
  | .pushObserver none => (.nothing, s.modify (·.push none))
  | .pushObserver (some name) =>
    match s.observer? name with
    | .error f => (.failure f, s)
    | .ok o => (.nothing, s.modify (·.push (some o)))
  | .popObserver => (s.nameOf s.reactive.current, s.modify (·.pop))
  | .currentObserver => (s.nameOf s.reactive.current, s)

end Signals

end LiveMarkup
