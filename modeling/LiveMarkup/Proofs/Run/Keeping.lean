import LiveMarkup.Proofs.Run.Sealed
import LiveMarkup.Run.Session

/-!
# Running keeps nodes sealed off

Every job that a world does leaves sealed nodes as they are, and sealed off
(`Run.keeps_run`): one lemma for each activity, with a runner that keeps the seal for the jobs it
asks for, and then induction on the depth to which jobs are nested.
-/

namespace LiveMarkup

variable {S : Set NodeId} {m n p : NodeId} {ns : List NodeId} {w v : World} {e : Expression}
  {es : List Expression} {α : Type} {run : Runner}

/-! ### Jobs -/

/-- A job brings along nodes outside only. -/
def Job.Fits (w : World) (S : Set NodeId) : Job → Prop
  | .bubble n => w.forest.Open S n
  | .apply e n => e.Open w.forest S ∧ w.forest.Open S n
  | _ => True

/-- What a job gives leads to nodes outside only. -/
def Job.Gives (S : Set NodeId) : (job : Job) → job.Result → World → Prop
  | .build _ => fun e w => e.Open w.forest S
  | _ => Activity.Anything

/-- A runner that leaves sealed nodes as they are, and sealed off. -/
def Runner.Keeps (run : Runner) (S : Set NodeId) : Prop :=
  ∀ (job : Job) {w : World}, w.Sealed S → job.Fits w S →
    Activity.Keeps S w (run job) (job.Gives S)

namespace Activity

variable (hw : w.Sealed S)

include hw

theorem keeps_note (reply : Reply) : Keeps S w (note reply) Anything :=
  .of_eq rfl (hw.note reply) trivial

theorem keeps_reactive (change : Reactive → Reactive) : Keeps S w (reactive change) Anything :=
  .of_eq rfl (hw.modifyReactive change) trivial

theorem keeps_place {placement : Forest → Forest.Placed}
    (h : Forest.Avoids S w.forest (placement w.forest).2) : Keeps S w (place placement) Anything :=
  .of_eq rfl (hw.setForest h) trivial

theorem keeps_create (k : Kind) (s : String) :
    Keeps S w (create k s) fun n v => v.forest.Open S n :=
  .of_eq rfl (hw.setForest (.create hw.forest k s)) (Forest.Avoids.open_create hw.forest k s)

theorem keeps_addRoutine {r : Routine} (hr : ∀ n, r.target? = some n → w.forest.Open S n) :
    Keeps S w (addRoutine r) Anything :=
  .of_eq rfl (hw.addRoutine hr) trivial

/-- The scheduler does something that does not change what tasks do next. -/
theorem keeps_schedule {operation : Scheduler → α × Scheduler}
    (h : (operation w.tasks.scheduler).2.programs = w.tasks.scheduler.programs) :
    Keeps S w (schedule operation) Anything :=
  .of_eq (schedule_of_eq rfl) (hw.setTasks h) trivial

theorem keeps_spawn {promise : Program} (hp : ∀ n, promise.target? = some n → w.forest.Open S n) :
    Keeps S w (schedule (·.spawn promise)) Anything :=
  .of_eq (schedule_of_eq rfl) (hw.spawn hp) trivial

theorem keeps_discard (es : List Expression) : Keeps S w (discard es) Anything := by
  refine .of_eq rfl (hw.setTasks ?_) trivial
  induction Expression.channelsAll es using List.reverseRecOn with
  | nil => rfl
  | append_singleton cs c ih => rw [List.foldl_append]; exact ih

/-- Nodes are held while something is done, and then as before. -/
theorem keeps_holding {nodes : List NodeId} {action : Activity α}
    (h : Keeps S { w with held := nodes ++ w.held } action Anything) :
    Keeps S w (holding nodes action) Anything := by
  intro a u ha
  rw [holding, get_bind, modify_bind, bind_eq_some_iff] at ha
  obtain ⟨b, v, hb, ha⟩ := ha
  obtain ⟨rfl, rfl⟩ := Prod.mk.inj (Option.some.inj ha)
  obtain ⟨hv, -⟩ := h b v hb
  refine ⟨⟨⟨hv.seals.page, hw.guards.avoids hv.forest, hv.seals.routines, hv.seals.programs,
    hv.seals.templates⟩, hv.forest, hv.templates, rfl⟩, trivial⟩

omit hw in
theorem keeps_body (hr : run.Keeps S) (commands : Script) (hw : w.Sealed S) :
    Keeps S w (body run commands) Anything := by
  induction commands generalizing w with
  | nil => exact .pure hw trivial
  | cons c commands ih =>
    refine (hr (.command c) hw trivial).then_ fun reply v hv => ?_
    exact (keeps_note hv reply).then_ fun _ u hu => ih hu

end Activity

open Activity

namespace Run

/-! ### Observers -/

section Observers

theorem keeps_observing {o : Option ℕ} {action : Activity α} {post : α → World → Prop}
    (hw : w.Sealed S) (h : Keeps S (w.modifyReactive (·.push o)) action post)
    (hpost : ∀ {a v}, post a v → post a (v.modifyReactive (·.pop))) :
    Keeps S w (observing o action) post :=
  .bind_of_eq rfl (hw.modifyReactive _) (h.bind fun _ _ hv ha =>
    .of_eq rfl (hv.seals.modifyReactive _) (hpost ha))

theorem keeps_addObserver (hw : w.Sealed S) (isEffect : Bool) {r : Routine}
    (hrt : ∀ n, r.target? = some n → w.forest.Open S n) :
    Keeps S w (addObserver isEffect r) Anything :=
  (keeps_addRoutine hw hrt).then_ fun _ _ hv => .of_eq rfl (hv.modifyReactive _) trivial

theorem keeps_nextMicrotask (hw : w.Sealed S) : Keeps S w nextMicrotask Anything := by
  cases hqueue : w.signals.reactive.queue with
  | nil => exact .of_eq (by rw [nextMicrotask, hqueue]) hw.refl trivial
  | cons task queue =>
    have hrun : nextMicrotask w =
        some (some task, w.modifyReactive fun r => { r with queue := queue }) := by
      rw [nextMicrotask, hqueue]
    exact .of_eq hrun (hw.modifyReactive _) trivial

variable (hr : run.Keeps S) (hw : w.Sealed S)

include hr hw

theorem keeps_observer (o : ℕ) : Keeps S w (observer run o) Anything := by
  refine .get_bind ?_
  dsimp only
  split
  · exact .pure hw trivial
  · next ob _ =>
    split_ifs
    · exact .pure hw trivial
    · refine (keeps_reactive hw _).then_ fun _ v hv => ?_
      have hrun := hr (.routine ob.routine) (hv.modifyReactive (·.push (some o))).seals trivial
      exact (keeps_observing hv hrun id).then_ fun _ u hu => keeps_reactive hu _
    · exact hr (.routine _) hw trivial

theorem keeps_flush (place : ℕ) : Keeps S w (flush run place) Anything := by
  refine .get_bind ?_
  split
  · exact (hr (.observer _) hw trivial).then_ fun _ v hv => hr (.flush _) hv trivial
  · exact keeps_reactive hw _

theorem keeps_drain (count : ℕ) : Keeps S w (drain run count) Anything := by
  refine (keeps_nextMicrotask hw).then_ fun task v hv => ?_
  split
  · exact .pure hv trivial
  · exact (hr (.flush 0) hv trivial).then_ fun _ u hu => hr (.drain _) hu trivial
  · exact (hr (.routine _) hv trivial).then_ fun _ u hu => hr (.drain _) hu trivial

end Observers

/-! ### Events -/

section Events

theorem keeps_takeListeners (hw : w.Sealed S) (hn : n ∉ S) :
    Keeps S w (takeListeners n) Anything := by
  cases hevents : w.page.events with
  | nil => exact .of_eq (by rw [takeListeners, hevents]) hw.refl trivial
  | cons e es =>
    have hrun : takeListeners n w = some (w.page.listenersFor n e.event,
        { w with page := (w.page.takeListeners n e.event).2 }) := by
      rw [takeListeners, hevents]
      rfl
    exact .of_eq hrun (hw.setPage (hw.page.modifyListeners hn _)) trivial

/-- An event is handled while something is done. -/
theorem keeps_handling {event : String} {action : Activity Unit} (hw : w.Sealed S)
    (hn : w.forest.Open S n)
    (h : ∀ {v : World}, World.Avoids S w v → Keeps S v action Anything) :
    Keeps S w (handling event n action) Anything := by
  have hevent : Event.Open w.forest S ⟨event, n, none, false, false⟩ := ⟨hn, nofun⟩
  have hset := hw.setPage (hw.page.setEvents (List.forall_mem_cons.2 ⟨hevent, hw.page.events⟩))
  refine .modify_bind hset ((h hset).then_ fun _ v hv => ?_)
  intro e u hu
  dsimp only at hu
  split at hu
  · obtain ⟨-, rfl⟩ := Prod.mk.inj (Option.some.inj hu)
    exact ⟨hv.refl, trivial⟩
  · next _ es hevents =>
    obtain ⟨-, rfl⟩ := Prod.mk.inj (Option.some.inj hu)
    have hes := (List.forall_mem_cons.1 (hevents ▸ hv.page.events)).2
    exact ⟨hv.setPage (hv.page.setEvents hes), trivial⟩

variable (hr : run.Keeps S) (hw : w.Sealed S)

include hr

theorem keeps_handlers (ls : List Listener) (hw : w.Sealed S) :
    Keeps S w (handlers run ls) Anything := by
  induction ls generalizing w with
  | nil => exact .pure hw trivial
  | cons l ls ih => exact (hr (.routine l.handler) hw trivial).then_ fun _ v hv => ih hv

include hw

theorem keeps_bubble (hn : w.forest.Open S n) : Keeps S w (bubble run n) Anything := by
  have hset : World.Avoids S w { w with page := w.page.modifyEvent fun e =>
      { e with current := some n } } := hw.setPage (hw.page.modifyEvent fun e he =>
    ⟨he.target, fun hm => Option.some.inj hm ▸ hn⟩)
  refine .modify_bind hset ?_
  refine (keeps_takeListeners hset.seals hn.not_mem).bind fun ls v hv _ => ?_
  refine (keeps_handlers hr ls hv.seals).bind fun _ u hu _ => .get_bind ?_
  split_ifs
  · exact .pure hu.seals trivial
  · split
    · next p hp =>
      exact hr (.bubble p) hu.seals (hu.seals.forest.parent hn.not_mem hp)
    · exact .pure hu.seals trivial

theorem keeps_dispatch (hn : w.forest.Open S n) (event : String) :
    Keeps S w (dispatch run n event) Anything := by
  refine (keeps_handling hw hn fun hv => hr (.bubble n) hv.seals (hv.open_mono hn)).then_ ?_
  exact fun _ v hv => .get_bind (.pure hv trivial)

theorem keeps_transition (machine : ℕ) (name : String) (step : Option TransitionStep) :
    Keeps S w (transition run machine name step) Anything := by
  refine .get_bind ?_
  split_ifs
  · split
    · exact (keeps_schedule hw (by simp)).then_ fun _ v hv => .pure hv trivial
    · refine (keeps_body hr _ hw).then_ fun _ v hv => .get_bind ?_
      dsimp only
      split_ifs
      · exact (keeps_schedule hv (by simp)).then_ fun _ u hu => .pure hu trivial
      · exact .pure hv trivial
  · exact .pure hw trivial

end Events

/-! ### Tasks -/

section Tasks

theorem keeps_pollSource (hw : w.Sealed S) (task : ℕ) (source : Source) :
    Keeps S w (pollSource task source) Anything := by
  refine keeps_schedule hw ?_
  have hpoll := w.tasks.scheduler.programs_poll task source
  split <;> next heq => rw [heq] at hpoll; exact hpoll

theorem keeps_setProgram (hw : w.Sealed S) (task : ℕ) {promise : Program}
    (hp : promise.target? = none) : Keeps S w (setProgram task promise) Anything :=
  .of_eq (schedule_of_eq rfl) (hw.setProgram task fun n hn => by rw [hp] at hn; cases hn) trivial

theorem keeps_failTask (hw : w.Sealed S) (fallible : Bool) (message : String) :
    Keeps S w (failTask fallible message) Anything := by
  unfold failTask
  split_ifs
  · exact (keeps_schedule hw rfl).then_ fun _ v hv => .pure hv trivial
  · exact .pure hw trivial

theorem keeps_setPolling (hw : w.Sealed S) (polling : Bool) :
    Keeps S w (setPolling polling) Anything := keeps_schedule hw rfl

variable (hr : run.Keeps S) (hw : w.Sealed S)

include hr hw

theorem keeps_awaitSource (task : ℕ) (source : Source) (arms : List (String × Script))
    (frames : List Script) (fallible : Bool) :
    Keeps S w (awaitSource run task source arms frames fallible) Anything := by
  refine (keeps_pollSource hw task source).then_ fun outcome v hv => ?_
  split
  · refine (keeps_note hv _).then_ fun _ u hu => ?_
    refine (keeps_setProgram hu task rfl).then_ fun _ x hx => ?_
    exact hr (.resume task) hx trivial
  · exact (keeps_setProgram hv task rfl).then_ fun _ u hu => .pure hu trivial

theorem keeps_resume (task : ℕ) : Keeps S w (resume run task) Anything := by
  refine .get_bind ?_
  split
  · exact .pure hw trivial
  · exact (keeps_setProgram hw task rfl).then_ fun _ v hv => hr (.resume task) hv trivial
  · next command commands frames _ fallible _ =>
    refine (keeps_setProgram hw task rfl).then_ fun _ v hv => ?_
    cases command with
    | await value arms =>
      have htake := hv.setTasks (v.tasks.programs_take value)
      refine .get_bind ?_
      generalize v.tasks.take value = taken at htake ⊢
      rcases taken with ⟨failure | source, t⟩
      · refine .set_bind htake ((keeps_note htake.seals _).then_ fun _ x hx => ?_)
        exact hr (.resume task) hx trivial
      · exact .set_bind htake (keeps_awaitSource hr htake.seals task source arms _ _)
    | fail message => exact keeps_failTask hv _ _
    | _ =>
      refine (hr (.command _) hv trivial).then_ fun reply u hu => ?_
      exact (keeps_note hu reply).then_ fun _ x hx => hr (.resume task) hx trivial
  · exact .pure hw trivial

theorem keeps_fulfil (he : e.Open w.forest S) (hn : w.forest.Open S n) :
    Keeps S w (fulfil run e n) Anything := by
  refine (hr (.apply e n) hw ⟨he, hn⟩).then_ fun outcome v hv => ?_
  split
  · exact .pure hv trivial
  · exact keeps_failTask hv true _

theorem keeps_pollTask (task : ℕ) : Keeps S w (pollTask run task) Anything := by
  refine .get_bind ?_
  split
  · exact keeps_awaitSource hr hw task _ _ _ _
  · exact hr (.resume task) hw trivial
  · next value target hprogram =>
    refine (hr (.build value) hw trivial).bind fun e v hv he => ?_
    exact keeps_fulfil hr hv.seals he (hv.open_mono (hw.program_target hprogram))
  · next c target hprogram =>
    have hn := hw.program_target hprogram
    refine (keeps_schedule hw (by simp)).bind fun received v hv _ => ?_
    split
    · refine (hr (.build _) hv.seals trivial).bind fun e u hu he => ?_
      exact keeps_fulfil hr hu.seals he (hu.open_mono (hv.open_mono hn))
    · exact keeps_fulfil hr hv.seals (.of_none rfl) (hv.open_mono hn)
    · exact .pure hv.seals trivial
  · refine (keeps_pollSource hw task _).then_ fun outcome v hv => ?_
    split
    · exact (keeps_schedule hv rfl).then_ fun _ u hu => .pure hu trivial
    · exact (keeps_setProgram hv task rfl).then_ fun _ u hu => .pure hu trivial

theorem keeps_poll (count polled yielded : ℕ) :
    Keeps S w (poll run count polled yielded) Anything := by
  refine .get_bind ?_
  split
  · exact .pure hw trivial
  · next task s hnext =>
    have hset := hw.setTasks (t := { w.tasks with scheduler := s })
      (Scheduler.programs_next? hnext)
    refine .set_bind hset ?_
    split_ifs
    · refine (keeps_pollTask hr hset.seals task).then_ fun finished v hv => ?_
      refine .ite (keeps_schedule hv rfl) (.get_bind ?_)
      exact .ite (.pure hv trivial) (hr (.poll _ _ _) hv trivial)
    · exact hr (.poll _ _ _) hset.seals trivial

theorem keeps_turn : Keeps S w (turn run) Anything := by
  refine (keeps_schedule hw rfl).then_ fun _ v hv => .get_bind ?_
  refine (hr (.poll _ _ _) hv trivial).then_ fun _ u hu => .get_bind ?_
  dsimp only
  split_ifs
  · exact .pure hu trivial
  · exact hr .turn hu trivial

theorem keeps_settle : Keeps S w (settle run) Anything := by
  refine .get_bind ?_
  split_ifs
  · exact .pure hw trivial
  · refine (keeps_setPolling hw true).then_ fun _ v hv => ?_
    refine (hr .turn hv trivial).then_ fun _ u hu => ?_
    refine (keeps_setPolling hu false).then_ fun _ x hx => ?_
    refine (hr (.drain 0) hx trivial).then_ fun count y hy => ?_
    split_ifs
    · exact .pure hy trivial
    · exact hr .settle hy trivial

theorem keeps_blockOn (source : Source) : Keeps S w (blockOn run source) Anything := by
  refine (keeps_spawn hw fun n hn => by cases hn).then_ fun task v hv => ?_
  exact (hr .settle hv trivial).then_ fun _ u hu => keeps_schedule hu rfl

end Tasks

end Run

end LiveMarkup
