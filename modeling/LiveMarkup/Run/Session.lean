import LiveMarkup.Run.Command

/-!
# Sessions

`Run.job` does a job with a runner for the jobs it asks for, and `Run.run` ties the knot: a job may
ask for others to a depth of `fuel`.  With enough fuel the result does not depend on it.

A session performs commands one after the other.  Each step gives the reply of its command, what was
noted while it ran, and how the watched nodes are written after it.
-/

namespace LiveMarkup

namespace Run

/-- Does a job. -/
def job (run : Runner) : Runner
  | .command c => command run c
  | .routine n => routine run n
  | .observer o => observer run o
  | .flush place => flush run place
  | .drain count => drain run count
  | .bubble n => bubble run n
  | .build spec => build run spec
  | .apply e n => apply run e n
  | .resume task => resume run task
  | .poll count polled yielded => poll run count polled yielded
  | .turn => turn run
  | .settle => settle run

/-- Does a job in which jobs are nested to a depth of at most `fuel`. -/
def run : Nat → Runner
  | 0, _, _ => none
  | fuel + 1, j, w => job (run fuel) j w

end Run

/-- What a step of a session shows: the reply, what was noted, and the watched nodes as they are
written, as far as their names are bound. -/
structure StepReport where
  reply : Reply
  log : List Reply
  watched : List (Option String)

namespace World

/-- How the node bound to a name is written. -/
def written (w : World) (name : String) : Option String :=
  (w.page.nodes.get? name).map w.page.outer

/-- Performs a command, and releases afterwards what nothing holds. -/
def perform (fuel : Nat) (watch : List String) (w : World) (c : Command) :
    Option (StepReport × World) :=
  match Run.run fuel (.command c) { w with log := [] } with
  | none => none
  | some (reply, w) =>
    let w := w.release
    some (⟨reply, w.log, watch.map w.written⟩, w)

/-- Performs commands one after the other. -/
def performAll (fuel : Nat) (watch : List String) (w : World) :
    List Command → Option (List StepReport × World)
  | [] => some ([], w)
  | c :: cs =>
    match w.perform fuel watch c with
    | none => none
    | some (report, w) =>
      match w.performAll fuel watch cs with
      | none => none
      | some (reports, w) => some (report :: reports, w)

end World

end LiveMarkup
