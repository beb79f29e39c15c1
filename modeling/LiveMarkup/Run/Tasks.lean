import LiveMarkup.Run.World

/-!
# Running tasks

Ready tasks are polled in the order in which they became ready.  New tasks join the line when a task
has finished, when two tasks asked to be polled again while they were polled, when as many polls
were made as there were tasks, or when the line is empty.  When no task is ready the queued tasks
run, and so on until nothing can move.
-/

namespace LiveMarkup.Run

open Activity

/-- The commands that follow a value: those under its text, or those under a star. -/
def armFor (arms : List (String × Script)) (value : String) : Script :=
  ((arms.lookup value).orElse fun _ => arms.lookup "*").getD []

/-- Lets a task look at a source: its value, or nothing once the task waits for it. -/
def pollSource (task : Nat) (source : Source) : Activity (Option String × Source) :=
  schedule fun s =>
    match s.poll task source with
    | (.value text, s) => ((some text, .never), s)
    | (.canceled, s) => ((none, .never), s)
    | (.pending source, s) => ((none, source), s)

/-- Sets what a task does next. -/
def setProgram (task : Nat) (p : Program) : Activity Unit :=
  schedule fun s => ((), s.setProgram task p)

/-- Lets a task wait for a source: goes on at once if its value is there.  The result says whether
the task has finished. -/
def awaitSource (run : Runner) (task : Nat) (source : Source) (arms : List (String × Script))
    (frames : List Script) (fallible : Bool) : Activity Bool := do
  match ← pollSource task source with
  | (some text, _) => do
    note (.awaited text)
    setProgram task (.script (armFor arms text :: frames) none fallible)
    run (.resume task)
  | (none, source) => do
    setProgram task (.script frames (some (source, arms)) fallible)
    return false

/-- Ends a task with an error, which is recorded if the task is fallible. -/
def failTask (fallible : Bool) (message : String) : Activity Bool := do
  if fallible then
    schedule fun s => ((), s.addError message)
    return true
  else return true

/-- Goes on with the commands of a task.  The result says whether the task has finished. -/
def resume (run : Runner) (task : Nat) : Activity Bool := do
  match (← get).tasks.scheduler.program task with
  | .script [] _ _ => return true
  | .script ([] :: frames) _ fallible => do
    setProgram task (.script frames none fallible)
    run (.resume task)
  | .script ((command :: commands) :: frames) _ fallible => do
    let frames := commands :: frames
    setProgram task (.script frames none fallible)
    match command with
    | .await value arms => do
      let w ← get
      let (source, t) := w.tasks.take value
      set { w with tasks := t }
      match source with
      | .ok source => awaitSource run task source arms frames fallible
      | .error failure => do
        note (.failure failure)
        run (.resume task)
    | .fail message => failTask fallible message
    | command => do
      note (← run (.command command))
      run (.resume task)
  | _ => return true

/-- Applies the value of a promise to a node; a fault is recorded. -/
def fulfil (run : Runner) (e : Expression) (target : NodeId) : Activity Bool := do
  match ← run (.apply e target) with
  | .ok () => return true
  | .error fault => failTask true fault.message

/-- Polls a task.  The result says whether the task has finished. -/
def pollTask (run : Runner) (task : Nat) : Activity Bool := do
  match (← get).tasks.scheduler.program task with
  | .script frames (some (source, arms)) fallible =>
    awaitSource run task source arms frames fallible
  | .script _ none _ => run (.resume task)
  | .deferred (.value value) target => do
    let e ← run (.build value)
    fulfil run e target
  | .deferred (.channel c) target => do
    match ← schedule fun s => s.receive task c with
    | .message m => do
      let e ← run (.build m.value)
      fulfil run e target
    | .canceled => fulfil run .empty target
    | .nothing => return false
  | .keep source => do
    match ← pollSource task source with
    | (some text, _) => do
      schedule fun s => ((), { s with kept := s.kept ++ [(task, text)] })
      return true
    | (none, source) => do
      setProgram task (.keep source)
      return false

/-- Polls tasks that are ready, up to the point where new tasks join the line. -/
def poll (run : Runner) (count polled yielded : Nat) : Activity Unit := do
  let w ← get
  match w.tasks.scheduler.next? with
  | none => return ()
  | some (task, s) => do
    set (w.setScheduler s)
    if s.pool.active.contains task then do
      if ← pollTask run task then
        schedule fun s => ((), s.finish task)
      else do
        let ready := (← get).tasks.scheduler.pool.ready
        let yielded := yielded + if ready.contains task then 1 else 0
        if 2 ≤ yielded ∨ polled + 1 = count then return ()
        else run (.poll count (polled + 1) yielded)
    else run (.poll count polled yielded)

/-- Polls tasks until none is ready. -/
def turn (run : Runner) : Activity Unit := do
  schedule fun s => ((), s.joinLine)
  run (.poll (← get).tasks.scheduler.pool.active.length 0 0)
  let pool := (← get).tasks.scheduler.pool
  if pool.incoming.isEmpty && pool.ready.isEmpty then return () else run .turn

/-- Marks whether tasks are being polled. -/
def setPolling (polling : Bool) : Activity Unit :=
  schedule fun s => ((), { s with pool := { s.pool with polling := polling } })

/-- Polls tasks and runs queued tasks until nothing can move; false if tasks are being polled. -/
def settle (run : Runner) : Activity Bool := do
  if (← get).tasks.scheduler.pool.polling then return false
  else
    setPolling true
    run .turn
    setPolling false
    if (← run (.drain 0)) = 0 then return true else run .settle

/-- Takes the value that a task has kept. -/
def takeKept (task : Nat) : Activity (Option String) := schedule fun s =>
  (s.kept.lookup task, { s with kept := s.kept.filter (·.1 != task) })

/-- Waits for a source until nothing can move, and gives its value if it has come. -/
def blockOn (run : Runner) (source : Source) : Activity (Option String) := do
  let task ← schedule (·.spawn (.keep source))
  let _ ← run .settle
  takeKept task

end LiveMarkup.Run
