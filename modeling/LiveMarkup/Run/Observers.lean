import LiveMarkup.Run.World

/-!
# Running observers

An effect is tracked while it runs, and is passed over while it is already running.  A flush runs
the pending observers one after the other; those that are added meanwhile are run by the same flush.
The queue of tasks is drained until it is empty.
-/

namespace LiveMarkup.Run

open Activity

/-- Runs something while an observer, or nobody, is the current one. -/
def observing {α : Type} (o : Option Nat) (action : Activity α) : Activity α := do
  reactive (·.push o)
  let a ← action
  reactive (·.pop)
  return a

/-- Runs an observer. -/
def observer (run : Runner) (o : Nat) : Activity Unit := do
  let r := (← get).signals.reactive
  match r.observers[o]? with
  | none => return ()
  | some ob =>
    if ob.isEffect then
      if r.running.contains o then return ()
      else
        reactive (·.start o)
        observing (some o) (run (.routine ob.routine))
        reactive (·.finish o)
    else run (.routine ob.routine)

/-- Adds an effect or another observer. -/
def addObserver (isEffect : Bool) (routine : Routine) : Activity Nat := do
  let n ← addRoutine routine
  fun w =>
    let (o, r) := w.signals.reactive.addObserver ⟨isEffect, n⟩
    some (o, w.modifyReactive fun _ => r)

/-- Runs the pending observers from a place of the batch on, and closes the batch. -/
def flush (run : Runner) (place : Nat) : Activity Unit := do
  match (← get).signals.reactive.pending[place]? with
  | some o =>
    run (.observer o)
    run (.flush (place + 1))
  | none => reactive (·.closeBatch)

/-- Takes the first task out of the queue. -/
def nextMicrotask : Activity (Option Microtask) := fun w =>
  match w.signals.reactive.queue with
  | [] => some (none, w)
  | task :: queue => some (some task, w.modifyReactive fun r => { r with queue := queue })

/-- Runs all queued tasks and counts them. -/
def drain (run : Runner) (count : Nat) : Activity Nat := do
  match ← nextMicrotask with
  | none => return count
  | some .flush =>
    run (.flush 0)
    run (.drain (count + 1))
  | some (.routine n) =>
    run (.routine n)
    run (.drain (count + 1))

end LiveMarkup.Run
