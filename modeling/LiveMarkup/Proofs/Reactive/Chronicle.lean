import LiveMarkup.Proofs.Reactive.History
import LiveMarkup.Proofs.Run.Activities
import LiveMarkup.Run.Session

/-!
# Chronicles of reactive scripts

A script is reactive if all it does is to make, read and write signals, to make and run effects, to
let code run untracked or later, and to drain the queue.  `Run.deeds` is the chronicle of a job in
such a script: what it does to signals and observers, deed by deed.
The chronicle looks at the world wherever the script does, so it is a function of the job and of the
world that the job begins with.
-/

namespace LiveMarkup

mutual

/-- Whether a command is one of a reactive script. -/
def Command.isReactive : Command → Bool
  | .signal (.pushObserver _) => false
  | .signal .popObserver => false
  | .signal _ => true
  | .log _ => true
  | .effect commands _ _ => areReactive commands
  | .runEffect _ => true
  | .untrack commands => areReactive commands
  | .microtask commands => areReactive commands
  | .runMicrotasks => true
  | _ => false

/-- Whether all of several commands are ones of a reactive script. -/
def areReactive : List Command → Bool
  | [] => true
  | c :: cs => c.isReactive && areReactive cs

end

namespace Run

/-! ### Chronicles -/

/-- What a command on signals does. -/
def signalDeeds (s : Signals) : SignalCommand → History
  | .create _ v split => if split then [.addSignal v, .addSignal v] else [.addSignal v]
  | .read name .tracked half =>
    match s.signal? name half with
    | .ok g => [.track g]
    | .error _ => []
  | .set name v half =>
    match s.signal? name half with
    | .ok g => [.set g v]
    | .error _ => []
  | .update name arg half =>
    match s.signal? name half with
    | .ok g => [.update g arg]
    | .error _ => []
  | .schedule name =>
    match s.observer? name with
    | .ok o => [.schedule o]
    | .error _ => []
  | _ => []

section

variable (tell : Job → World → History) (run : Runner)

/-- What the commands of a body do. -/
def bodyDeeds : Script → World → History
  | [], _ => []
  | c :: cs, w =>
    tell (.command c) w ++
      match run (.command c) w with
      | some (reply, w) => bodyDeeds cs (w.note reply)
      | none => []

/-- What a command does. -/
def commandDeeds (w : World) : Command → History
  | .signal c => signalDeeds w.signals c
  | .effect commands _ later =>
    .addObserver ⟨true, w.routines.size⟩ ::
      if later then []
      else
        match addObserver true (.script commands) w with
        | some (o, w) => tell (.observer o) w
        | none => []
  | .runEffect name =>
    match w.signals.effects.get? name with
    | some o => tell (.observer o) w
    | none => []
  | .untrack commands =>
    .push none :: bodyDeeds tell run commands (w.modifyReactive (·.push none)) ++ [.pop]
  | .microtask _ => [.enqueue w.routines.size]
  | .runMicrotasks => tell (.drain 0) w
  | _ => []

/-- What a routine does. -/
def routineDeeds (w : World) (n : Nat) : History :=
  match w.routines[n]? with
  | some (.script commands) => bodyDeeds tell run commands w
  | _ => []

/-- What an observer does. -/
def observerDeeds (w : World) (o : Nat) : History :=
  let r := w.signals.reactive
  match r.observers[o]? with
  | none => []
  | some ob =>
    if ob.isEffect then
      if r.running.contains o then []
      else
        .start o :: .push (some o) ::
          tell (.routine ob.routine) (w.modifyReactive fun r => (r.start o).push (some o)) ++
          [.pop, .finish o]
    else tell (.routine ob.routine) w

/-- What a flush does from a place of the batch on. -/
def flushDeeds (w : World) (place : Nat) : History :=
  match w.signals.reactive.pending[place]? with
  | some o =>
    .turn o :: tell (.observer o) w ++
      match run (.observer o) w with
      | some (_, w) => tell (.flush (place + 1)) w
      | none => []
  | none => [.close]

/-- The job of a queued task. -/
def taskJob : Microtask → Job
  | .flush => .flush 0
  | .routine n => .routine n

/-- What it does to take all tasks out of the queue. -/
def drainDeeds (w : World) (count : Nat) : History :=
  match w.signals.reactive.queue with
  | [] => []
  | t :: queue =>
    let w := w.modifyReactive fun r => { r with queue := queue }
    .take t :: tell (taskJob t) w ++
      match run (taskJob t) w with
      | some (_, w) => tell (.drain (count + 1)) w
      | none => []

/-- What a job does. -/
def jobDeeds : Job → World → History
  | .command c, w => commandDeeds tell run w c
  | .routine n, w => routineDeeds tell run w n
  | .observer o, w => observerDeeds tell w o
  | .flush place, w => flushDeeds tell run w place
  | .drain count, w => drainDeeds tell run w count
  | _, _ => []

end

/-- The chronicle of a job in which jobs are nested to a depth of at most `fuel`. -/
def deeds : Nat → Job → World → History
  | 0, _, _ => []
  | fuel + 1, j, w => jobDeeds (deeds fuel) (run fuel) j w

end Run

/-- The chronicle of commands that are performed one after the other. -/
def World.deedsAll (fuel : Nat) (watch : List String) (w : World) : List Command → History
  | [] => []
  | c :: cs =>
    Run.deeds fuel (.command c) { w with log := [] } ++
      match w.perform fuel watch c with
      | some (_, w) => w.deedsAll fuel watch cs
      | none => []

end LiveMarkup
