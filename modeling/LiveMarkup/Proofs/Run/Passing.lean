import LiveMarkup.Proofs.Run.Disciplines

/-!
# Tasks while scripts run

Whatever runs, tasks make moves, one after the other, and it is noted afterwards as before whether
tasks are being polled (`Run.passes_run`).  Tasks are polled only while this is noted, and then
nothing settles: `Run.settle` alone lets tasks be polled, and only if none is being polled.

That tasks make moves is a discipline (`Discipline.tasks`), so what is left to show is that the
activities which poll tasks or walk an event along its ancestors obey it.
-/

namespace LiveMarkup

/-- Whether it is noted that tasks are being polled. -/
def World.Polling (w : World) : Prop := w.tasks.scheduler.pool.polling = true

/-- A job that polls tasks is done only while this is noted. -/
def Job.Allowed (w : World) : Job → Prop
  | .poll _ _ _ => w.Polling
  | .turn => w.Polling
  | _ => True

theorem Job.IsOrdinary.allowed {j : Job} (hj : j.IsOrdinary) (w : World) : j.Allowed w := by
  cases j <;> first | exact trivial | exact hj.elim

/-- Tasks make moves. -/
def Discipline.tasks : Discipline where
  Allows w v := w.tasks.scheduler.Passes v.tasks.scheduler
  trans := .trans
  of_lasts _ h := h

variable {α β : Type} {w v : World}

/-- Whatever an activity leads to, tasks come there by moves. -/
def Activity.Passes (w : World) (action : Activity α) : Prop :=
  ∀ a v, action w = some (a, v) → w.tasks.scheduler.Passes v.tasks.scheduler

/-- A runner whose jobs let tasks make moves. -/
def Runner.Passes (run : Runner) : Prop :=
  ∀ (job : Job) w, job.Allowed w → Activity.Passes w (run job)

open Activity

namespace Run

variable {run : Runner}

/-! ### Events -/

theorem passes_handling (event : String) (n : NodeId) {action : Activity Unit}
    (h : ∀ v, Obeys .tasks v action) : Obeys .tasks w (handling event n action) := by
  intro e u hu
  rw [handling, modify_bind, bind_eq_some_iff] at hu
  obtain ⟨⟨⟩, v, hv, hu⟩ := hu
  have hmoved := h _ _ _ hv
  dsimp only at hu
  split at hu <;> obtain ⟨-, rfl⟩ := Prod.mk.inj (Option.some.inj hu) <;> exact hmoved

theorem passes_dispatch (hr : run.Passes) (n : NodeId) (event : String) :
    Obeys .tasks w (dispatch run n event) :=
  (passes_handling event n fun v => hr (.bubble n) v trivial).bind fun _ _ => .get_bind (.pure _)

/-! ### Waiting for a source -/

/-- Waiting for a source: a new task is to keep its value, and the value is taken when all has
settled. -/
theorem blockOn_eq_some_iff {source : Source} {outcome : Option String} :
    blockOn run source w = some (outcome, v) ↔ ∃ settled u,
      run .settle (w.setScheduler (w.tasks.scheduler.spawn (.keep source)).2) =
          some (settled, u) ∧
        outcome = u.tasks.scheduler.kept.lookup w.tasks.scheduler.programs.size ∧
        v = u.setScheduler { u.tasks.scheduler with
          kept := u.tasks.scheduler.kept.filter (·.1 != w.tasks.scheduler.programs.size) } := by
  have hspawn : schedule (·.spawn (.keep source)) w = some (w.tasks.scheduler.programs.size,
      w.setScheduler (w.tasks.scheduler.spawn (.keep source)).2) := schedule_of_eq rfl
  rw [blockOn, bind_of_eq_some hspawn, bind_eq_some_iff]
  refine exists_congr fun settled => exists_congr fun u => and_congr_right fun _ => ?_
  rw [takeKept, schedule, Option.some.injEq, Prod.mk.injEq, eq_comm, @eq_comm _ v]

theorem passes_blockOn (hr : run.Passes) (source : Source) :
    Obeys .tasks w (blockOn run source) := by
  intro a u hu
  obtain ⟨settled, v, hsettle, -, rfl⟩ := blockOn_eq_some_iff.1 hu
  have hmoved := (Scheduler.passes_spawn w.tasks.scheduler (.keep source)).trans
    (hr .settle _ trivial _ _ hsettle)
  refine ⟨hmoved.polling_eq, fun hs => ?_⟩
  obtain ⟨moves, hstory, htaken⟩ := hmoved.story hs
  refine ⟨moves ++ [.collect w.tasks.scheduler.programs.size], hstory.move (.collect _ _),
    fun task hin => ?_⟩
  rcases List.mem_append.1 hin with hin | hin
  · exact htaken task hin
  · simp only [List.mem_singleton, Move.collect.injEq] at hin
    exact Nat.le_of_eq hin.symm

end Run

/-- Letting tasks make moves is a discipline that such a runner obeys. -/
theorem Runner.Passes.obeys {run : Runner} (hr : run.Passes) : run.Obeys .tasks where
  job j hj w := hr j w (hj.allowed w)
  call event n k _ := Run.passes_handling event n fun v => hr (.routine k) v trivial
  dispatch n event _ := Run.passes_dispatch hr n event
  blockOn source _ := Run.passes_blockOn hr source

namespace Run

variable {run : Runner}

theorem passes_bubble (hr : run.Passes) (n : NodeId) : Obeys .tasks w (bubble run n) := by
  refine .bind_of_eq_some rfl (Scheduler.Passes.refl _) ?_
  refine (obeys_takeListeners n).bind fun ls _ => ?_
  refine (obeys_handlers hr.obeys ls).bind fun _ v => .get_bind (.ite (.pure ()) ?_)
  split
  · next p _ => exact hr (.bubble p) v trivial
  · exact .pure ()

/-! ### Polling -/

/-- A task that does something else than to keep a value goes on so. -/
theorem passes_setProgram_bind {task : ℕ} {p : Program} {next : Unit → Activity β}
    (hp : ¬ p.IsKeep) (htask : ¬ (w.tasks.scheduler.program task).IsKeep)
    (hnext : ∀ v : World, ¬ (v.tasks.scheduler.program task).IsKeep → Obeys .tasks v (next ())) :
    Obeys .tasks w (setProgram task p >>= next) := by
  have hset : ¬ ((w.tasks.scheduler.setProgram task p).program task).IsKeep := by
    rw [Scheduler.program_setProgram]
    split_ifs
    · exact hp
    · exact htask
  intro a u hu
  have heq : setProgram task p w =
      some ((), w.setScheduler (w.tasks.scheduler.setProgram task p)) := schedule_of_eq rfl
  rw [bind_of_eq_some heq] at hu
  exact (Scheduler.stirs_setProgram _ _ (iff_of_false hp htask)).passes.trans (hnext _ hset a u hu)

/-- Looking at a source. -/
theorem pollSource_eq (w : World) (task : ℕ) (source : Source) :
    (∃ text s, w.tasks.scheduler.poll task source = (.value text, s) ∧
        pollSource task source w = some ((some text, .never), w.setScheduler s)) ∨
      ∃ rest s, (w.tasks.scheduler.poll task source).2 = s ∧
        pollSource task source w = some ((none, rest), w.setScheduler s) := by
  rcases hpoll : w.tasks.scheduler.poll task source with ⟨text | _ | rest, s⟩
  · exact Or.inl ⟨text, s, rfl, schedule_of_eq (by rw [hpoll])⟩
  · exact Or.inr ⟨.never, s, rfl, schedule_of_eq (by rw [hpoll])⟩
  · exact Or.inr ⟨rest, s, rfl, schedule_of_eq (by rw [hpoll])⟩

section Tasks

variable (hr : run.Passes)

include hr

theorem passes_awaitSource {task : ℕ} (htask : ¬ (w.tasks.scheduler.program task).IsKeep)
    (source : Source) (arms : List (String × Script)) (frames : List Script) (fallible : Bool) :
    Obeys .tasks w (awaitSource run task source arms frames fallible) := by
  have hpoll := Scheduler.stirs_poll w.tasks.scheduler task source
  have hsame : ¬ ((w.tasks.scheduler.poll task source).2.program task).IsKeep := by
    rwa [Scheduler.program_eq_of_programs (Scheduler.programs_poll _ _ _)]
  intro a u hu
  rcases pollSource_eq w task source with ⟨text, s, hlook, hsource⟩ | ⟨rest, s, rfl, hsource⟩
  · rw [hlook] at hpoll hsame
    rw [awaitSource, bind_of_eq_some hsource] at hu
    refine Obeys.onward (.bind_of_eq_some note_apply (.of_eq ?_ ?_) ?_) hu hpoll.passes
    · rw [World.page_note]
    · rw [World.tasks_note]
    · refine passes_setProgram_bind id ?_ fun v _ => hr (.resume task) v trivial
      rw [World.tasks_note]
      exact hsame
  · rw [awaitSource, bind_of_eq_some hsource] at hu
    exact (passes_setProgram_bind id hsame fun v _ => .pure false).onward hu hpoll.passes

theorem passes_resume (task : ℕ) : Obeys .tasks w (resume run task) := by
  refine .get_bind ?_
  split
  · exact .pure true
  · next frames _ fallible hprogram =>
    exact passes_setProgram_bind id (hprogram ▸ id) fun v _ => hr (.resume task) v trivial
  · next command commands frames _ fallible hprogram =>
    refine passes_setProgram_bind id (hprogram ▸ id) fun v hv => ?_
    cases command with
    | await value arms =>
      refine .get_bind ?_
      have htake := (Tasks.stirs_take v.tasks value).passes
      have hprogram : (v.tasks.take value).2.scheduler.program task =
          v.tasks.scheduler.program task :=
        Scheduler.program_eq_of_programs (Tasks.programs_take v.tasks value) task
      rcases htaken : v.tasks.take value with ⟨failure | source, t⟩
      · rw [htaken] at htake
        refine .set_bind htake ((obeys_note _).bind fun _ u => ?_)
        exact hr (.resume task) u trivial
      · rw [htaken] at htake hprogram
        exact .set_bind htake (passes_awaitSource hr (hprogram ▸ hv) source arms _ _)
    | fail message => exact obeys_failTask _ _
    | _ =>
      refine .bind (hr (.command _) v trivial) fun reply u => ?_
      exact (obeys_note reply).bind fun _ x => hr (.resume task) x trivial
  · exact .pure true

theorem passes_pollTask {task : ℕ} (htask : ¬ (w.tasks.scheduler.program task).IsKeep) :
    Obeys .tasks w (pollTask run task) := by
  refine .get_bind ?_
  split
  · exact passes_awaitSource hr htask _ _ _ _
  · exact hr (.resume task) w trivial
  · next value target _ =>
    exact .bind (hr (.build value) w trivial) fun e v => obeys_fulfil hr.obeys e target
  · next c target _ =>
    refine (obeys_schedule (Scheduler.stirs_receive _ _ _).passes).bind fun received v => ?_
    split
    · next m =>
      exact .bind (hr (.build m.value) v trivial) fun e u => obeys_fulfil hr.obeys e target
    · exact obeys_fulfil hr.obeys _ target
    · exact .pure false
  · next source hprogram =>
    rw [hprogram] at htask
    exact absurd trivial htask

end Tasks

variable (run) in
/-- Polling a task that is to keep a value: it keeps the value if that has come. -/
theorem pollTask_keep {task : ℕ} {source : Source}
    (hprogram : w.tasks.scheduler.program task = .keep source) :
    (∃ text s, w.tasks.scheduler.poll task source = (.value text, s) ∧
        pollTask run task w =
          some (true, w.setScheduler { s with kept := s.kept ++ [(task, text)] })) ∨
      ∃ rest s, (w.tasks.scheduler.poll task source).2 = s ∧
        pollTask run task w = some (false, w.setScheduler (s.setProgram task (.keep rest))) := by
  rcases pollSource_eq w task source with ⟨text, s, hlook, hsource⟩ | ⟨rest, s, rfl, hsource⟩
  · refine Or.inl ⟨text, s, hlook, ?_⟩
    rw [pollTask, get_bind]
    simp only [hprogram]
    rw [bind_of_eq_some hsource]
    rfl
  · refine Or.inr ⟨rest, _, rfl, ?_⟩
    rw [pollTask, get_bind]
    simp only [hprogram]
    rw [bind_of_eq_some hsource]
    rfl

/-- A task that has been taken out of the line is polled, and is gone if it has finished. -/
theorem passes_pollOne (hr : run.Passes) {task : ℕ} {finished : Bool}
    (hactive : task ∈ w.tasks.scheduler.pool.active)
    (h : pollTask run task w = some (finished, v)) :
    w.tasks.scheduler.Passes
      (if finished then v.tasks.scheduler.finish task else v.tasks.scheduler) := by
  by_cases hkeep : (w.tasks.scheduler.program task).IsKeep
  · obtain ⟨source, hprogram⟩ := Program.isKeep_iff.1 hkeep
    have hpoll := Scheduler.stirs_poll w.tasks.scheduler task source
    rcases pollTask_keep run hprogram with
      ⟨text, s, hlook, heq⟩ | ⟨rest, s, rfl, heq⟩
    · obtain ⟨rfl, rfl⟩ := Prod.mk.inj (Option.some.inj (heq.symm.trans h))
      rw [hlook] at hpoll
      rw [← hpoll.pool_eq.1] at hactive
      exact hpoll.passes.trans (.of_makes (.conclude hactive hprogram hlook) rfl (by simp))
    · obtain ⟨rfl, rfl⟩ := Prod.mk.inj (Option.some.inj (heq.symm.trans h))
      refine (hpoll.trans (Scheduler.stirs_setProgram _ _ (iff_of_true ?_ ?_))).passes
      · trivial
      · rwa [Scheduler.program_eq_of_programs (Scheduler.programs_poll _ _ _)]
  · have hpolled := passes_pollTask hr hkeep _ _ h
    cases finished with
    | false => exact hpolled
    | true =>
      refine .of_numbered hpolled.polling_eq fun hs => hpolled.trans (.of_makes (.finish ?_) rfl ?_)
      · rwa [hpolled.isKeep_iff hs (hs.lt_size task (List.mem_append_left _ hactive))]
      · simp

/-- The mark of polling is made, and taken away after the moves. -/
theorem passes_marked {s s' : Scheduler} (hs : s.pool.polling = false)
    (h : Scheduler.Passes { s with pool := { s.pool with polling := true } } s') :
    s.Passes { s' with pool := { s'.pool with polling := false } } := by
  refine ⟨hs.symm, fun hn => ?_⟩
  obtain ⟨moves, hstory, htaken⟩ := h.story ((Scheduler.Makes.mark s true).numbered hn)
  refine ⟨[.mark true] ++ moves ++ [.mark false],
    ((Scheduler.Story.single (.mark s true)).append hstory).move (.mark s' false),
    fun task hin => htaken task ?_⟩
  simpa using hin

section Tasks

variable (hr : run.Passes)

include hr

theorem passes_poll (hw : w.Polling) (count polled yielded : ℕ) :
    Obeys .tasks w (poll run count polled yielded) := by
  intro a u hu
  rw [poll, get_bind] at hu
  rcases hnext : w.tasks.scheduler.next? with _ | ⟨task, s⟩
  · simp only [hnext] at hu
    exact Obeys.pure () a u hu
  · simp only [hnext, set_bind] at hu
    obtain ⟨ready, -, hs⟩ := Scheduler.next?_eq_some_iff.1 hnext
    have hactive : s.pool.active = w.tasks.scheduler.pool.active := by rw [hs]
    have hpolling : s.pool.polling = w.tasks.scheduler.pool.polling := by rw [hs]
    by_cases hmem : task ∈ s.pool.active
    · have hmove : w.tasks.scheduler.Passes s :=
        .of_makes (.poll hnext (hactive ▸ hmem) hw) hpolling (by simp)
      rw [if_pos (List.contains_iff_mem.2 hmem), bind_eq_some_iff] at hu
      obtain ⟨finished, v, htask, hu⟩ := hu
      have hpolled := hmove.trans (passes_pollOne hr (w := w.setScheduler s) hmem htask)
      cases finished with
      | true =>
        obtain ⟨-, rfl⟩ := Prod.mk.inj (Option.some.inj hu)
        exact hpolled
      | false =>
        refine Obeys.onward (.get_bind (.ite (.pure ()) ?_)) hu hpolled
        exact hr (.poll _ _ _) v (hpolled.polling_eq.trans hw)
    · have hmove : w.tasks.scheduler.Passes s :=
        .of_makes (.skip hnext (hactive ▸ hmem)) hpolling (by simp)
      rw [if_neg (by simpa using hmem)] at hu
      exact hmove.trans (hr (.poll _ _ _) (w.setScheduler s) (hpolling.trans hw) a u hu)

theorem passes_turn (hw : w.Polling) : Obeys .tasks w (turn run) := by
  refine (obeys_schedule (Scheduler.passes_joinLine _)).bind_of_allows fun _ v hv => .get_bind ?_
  have hpolling : v.Polling := hv.polling_eq.trans hw
  refine .bind_of_allows (hr (.poll _ 0 0) v hpolling) fun _ u hu => .get_bind ?_
  exact .ite (.pure ()) (hr .turn u (hu.polling_eq.trans hpolling))

/-- Settling marks that tasks are being polled, and takes the mark away again. -/
theorem passes_settle : Obeys .tasks w (settle run) := by
  refine .get_bind ?_
  split_ifs with hw
  · exact .pure false
  · intro a u hu
    obtain ⟨⟨⟩, w₁, hmark, hu⟩ := bind_eq_some_iff.1 hu
    obtain ⟨⟨⟩, w₂, hturn, hu⟩ := bind_eq_some_iff.1 hu
    obtain ⟨⟨⟩, w₃, hunmark, hu⟩ := bind_eq_some_iff.1 hu
    obtain ⟨-, rfl⟩ := Prod.mk.inj (Option.some.inj hmark)
    obtain ⟨-, rfl⟩ := Prod.mk.inj (Option.some.inj hunmark)
    have hpolled := fun hpolling => hr .turn _ hpolling _ _ hturn
    have hround := passes_marked (Bool.eq_false_iff.2 hw) (hpolled rfl)
    refine Obeys.onward (.bind (hr.obeys.job (.drain 0) trivial _) fun count y => ?_) hu hround
    exact .ite (.pure true) (hr .settle y trivial)

theorem passes_job : Runner.Passes (job run) := by
  intro j w hj
  cases j with
  | command c => exact obeys_command hr.obeys c
  | routine n => exact obeys_routine hr.obeys n
  | observer o => exact obeys_observer hr.obeys o
  | flush place => exact obeys_flush hr.obeys place
  | drain count => exact obeys_drain hr.obeys count
  | bubble n => exact passes_bubble hr n
  | build spec => exact obeys_build hr.obeys spec
  | apply e n => exact obeys_apply hr.obeys e n
  | resume task => exact passes_resume hr task
  | poll count polled yielded => exact passes_poll hr hj count polled yielded
  | turn => exact passes_turn hr hj
  | settle => exact passes_settle hr

end Tasks

/-- Every job lets tasks move, and does nothing else to them. -/
theorem passes_run (fuel : ℕ) : Runner.Passes (Run.run fuel) := by
  induction fuel with
  | zero => exact fun j w _ a v h => by cases h
  | succ fuel ih => exact fun j w hj => passes_job ih j w hj

end Run

end LiveMarkup
