import LiveMarkup.Proofs.Run.Disciplines

/-!
# Events in the hands of handlers

Whatever runs while an event is handled, the events that were being handled before are the ones that
are being handled after it; none of them has another type, target or current node, and one that had
been stopped stays so (`Run.putsBack_run`): a dispatch puts its event on top of the others and takes
it off when it is over.  Only the walk of an event to the ancestors of its target moves the current
node, and only that of the event on top.

That the events last is a discipline (`Discipline.events`), so what is left to show is that the
activities which push an event obey it, and what the walk of an event leaves.
-/

namespace LiveMarkup

/-- The page as if the event that is being handled had come to no node yet. -/
def Page.uncalled (p : Page) : Page := p.modifyEvent fun e => { e with current := none }

/-- What a job leaves of the events that are being handled: the walk of an event moves its current
node, and no other job does. -/
def Job.Lasts : Job → Page → Page → Prop
  | .bubble _ => fun p q => p.uncalled.Lasts q.uncalled
  | _ => Page.Lasts

theorem Job.IsOrdinary.lasts_iff {j : Job} (hj : j.IsOrdinary) {p q : Page} :
    j.Lasts p q ↔ p.Lasts q := by
  cases j <;> first | exact Iff.rfl | exact hj.elim

/-- The events that were being handled are being handled still. -/
def Discipline.events : Discipline where
  Allows w v := w.page.Lasts v.page
  trans := .trans
  of_lasts h _ := h

variable {α β : Type} {w v : World}

/-- Whatever an activity leads to, the events that were being handled are being handled still. -/
def Activity.PutsBack (w : World) (action : Activity α) : Prop :=
  ∀ a v, action w = some (a, v) → w.page.Lasts v.page

/-- A runner whose jobs put back the events that they push. -/
def Runner.PutsBack (run : Runner) : Prop :=
  ∀ (job : Job) w a v, run job w = some (a, v) → job.Lasts w.page v.page

open Activity

/-- An event that comes to another node is the same but for its current node. -/
theorem Page.uncalled_modifyEvent_current (p : Page) (current : Option NodeId) :
    (p.modifyEvent fun e => { e with current := current }).uncalled = p.uncalled := by
  cases h : p.events <;> simp [uncalled, modifyEvent, h]

theorem Page.Lasts.uncalled {p q : Page} (h : p.Lasts q) : p.uncalled.Lasts q.uncalled := by
  unfold Lasts Page.uncalled modifyEvent at *
  generalize hes : p.events = es, hes' : q.events = es' at h
  cases h with
  | nil => simp [hes, hes']
  | @cons e e' _ _ h hrest =>
    have hframe : e'.event = e.event ∧ e'.target = e.target ∧ e'.current = e.current := by
      simpa [Event.frame] using h.frame_eq
    exact .cons ⟨by simp [Event.frame, hframe], h.stopped⟩ hrest

/-- The event that is being handled goes on being handled, but for its current node. -/
theorem Page.Lasts.exists_of_uncalled {p q : Page} (h : p.uncalled.Lasts q.uncalled) {e : Event}
    {es : List Event} (he : p.events = e :: es) :
    ∃ e' es', q.events = e' :: es' ∧ { e with current := none : Event }.Lasts
      { e' with current := none } ∧ List.Forall₂ Event.Lasts es es' := by
  simp only [Lasts, Page.uncalled, modifyEvent, he] at h
  rcases hes' : q.events with _ | ⟨e', es'⟩
  · simp only [hes'] at h
    cases h
  · simp only [hes'] at h
    cases h with
    | cons hfirst hrest => exact ⟨e', es', rfl, hfirst, hrest⟩

/-- An operation on tasks does not touch events. -/
theorem Activity.putsBack_schedule (operation : Scheduler → α × Scheduler) :
    Obeys .events w (schedule operation) := .of_allows (schedule_of_eq rfl) (Page.Lasts.refl _)

namespace Run

variable {run : Runner}

/-- What is done while an event is handled may move its current node, and the event is then taken
off again. -/
theorem putsBack_handling (event : String) (n : NodeId) {action : Activity Unit}
    (h : ∀ w v, action w = some ((), v) → w.page.uncalled.Lasts v.page.uncalled) :
    PutsBack w (handling event n action) := by
  refine fun e u hu => ?_
  rw [handling, modify_bind, bind_eq_some_iff] at hu
  obtain ⟨⟨⟩, v, hv, hu⟩ := hu
  obtain ⟨e', es', hes, -, hrest⟩ := (h _ v hv).exists_of_uncalled rfl
  simp only [hes] at hu
  obtain ⟨-, rfl⟩ := Prod.mk.inj (Option.some.inj hu)
  exact hrest

theorem putsBack_dispatch (hr : run.PutsBack) (n : NodeId) (event : String) :
    Obeys .events w (dispatch run n event) :=
  Obeys.bind (putsBack_handling event n fun w v h => hr (.bubble n) w () v h) fun _ _ =>
    .get_bind (.pure _)

theorem putsBack_blockOn (hr : run.PutsBack) (source : Source) :
    Obeys .events w (blockOn run source) :=
  (putsBack_schedule _).bind fun _ v => .bind (hr .settle v) fun _ _ => putsBack_schedule _

end Run

/-- Putting back events is a discipline that such a runner obeys. -/
theorem Runner.PutsBack.obeys {run : Runner} (hr : run.PutsBack) : run.Obeys .events where
  job j hj w a v h := hj.lasts_iff.1 (hr j w a v h)
  call event n k _ := Run.putsBack_handling event n fun w v h =>
    Page.Lasts.uncalled (hr (.routine k) w () v h)
  dispatch n event _ := Run.putsBack_dispatch hr n event
  blockOn source _ := Run.putsBack_blockOn hr source

namespace Run

variable {run : Runner} (hr : run.PutsBack)

include hr

/-- The walk of an event to the ancestors of its target moves the current node of this event. -/
theorem lasts_bubble {n : NodeId} (h : bubble run n w = some ((), v)) :
    w.page.uncalled.Lasts v.page.uncalled := by
  rw [bubble, modify_bind, bind_eq_some_iff] at h
  obtain ⟨ls, w₂, htake, h⟩ := h
  rw [bind_eq_some_iff] at h
  obtain ⟨⟨⟩, w₃, hhandlers, h⟩ := h
  rw [get_bind] at h
  have htaken : (w.page.modifyEvent fun e => { e with current := some n }).Lasts w₂.page :=
    obeys_takeListeners (d := .events) n _ _ htake
  have hhandled : w₂.page.Lasts w₃.page := obeys_handlers hr.obeys ls _ _ hhandlers
  have hcome : w.page.uncalled.Lasts w₃.page.uncalled := by
    rw [← Page.uncalled_modifyEvent_current w.page (some n)]
    exact (htaken.trans hhandled).uncalled
  split_ifs at h
  · obtain ⟨-, rfl⟩ := Prod.mk.inj (Option.some.inj h)
    exact hcome
  · rcases hp : w₃.forest.parent n with _ | p
    · rw [hp] at h
      obtain ⟨-, rfl⟩ := Prod.mk.inj (Option.some.inj h)
      exact hcome
    · rw [hp] at h
      exact hcome.trans (hr (.bubble p) w₃ () v h)

/-! ### Tasks -/

theorem putsBack_awaitSource (task : ℕ) (source : Source) (arms : List (String × Script))
    (frames : List Script) (fallible : Bool) :
    Obeys .events w (awaitSource run task source arms frames fallible) := by
  refine .bind (putsBack_schedule _) fun outcome v => ?_
  split
  · refine (obeys_note _).bind fun _ _ => ?_
    exact .bind (putsBack_schedule _) fun _ u => hr (.resume task) u
  · exact .bind (putsBack_schedule _) fun _ _ => .pure false

theorem putsBack_resume (task : ℕ) : Obeys .events w (resume run task) := by
  refine .get_bind ?_
  split
  · exact .pure true
  · exact .bind (putsBack_schedule _) fun _ v => hr (.resume task) v
  · next command commands frames _ fallible _ =>
    refine .bind (putsBack_schedule _) fun _ v => ?_
    cases command with
    | await value arms =>
      refine .get_bind ?_
      generalize v.tasks.take value = taken
      rcases taken with ⟨failure | source, t⟩
      · refine .set_bind (Page.Lasts.refl _) ((obeys_note _).bind fun _ u => ?_)
        exact hr (.resume task) u
      · exact .set_bind (Page.Lasts.refl _) (putsBack_awaitSource hr task source arms _ _)
    | fail message => exact obeys_failTask _ _
    | _ =>
      refine .bind (hr (.command _) v) fun reply u => ?_
      exact (obeys_note reply).bind fun _ x => hr (.resume task) x
  · exact .pure true

theorem putsBack_pollTask (task : ℕ) : Obeys .events w (pollTask run task) := by
  refine .get_bind ?_
  split
  · exact putsBack_awaitSource hr task _ _ _ _
  · exact hr (.resume task) w
  · next value target _ =>
    exact .bind (hr (.build value) w) fun e v => obeys_fulfil hr.obeys e target
  · next c target _ =>
    refine (putsBack_schedule _).bind fun received v => ?_
    split
    · next m => exact .bind (hr (.build m.value) v) fun e u => obeys_fulfil hr.obeys e target
    · exact obeys_fulfil hr.obeys _ target
    · exact .pure false
  · refine .bind (putsBack_schedule _) fun outcome v => ?_
    split
    · exact (putsBack_schedule _).bind fun _ _ => .pure true
    · exact .bind (putsBack_schedule _) fun _ _ => .pure false

theorem putsBack_poll (count polled yielded : ℕ) :
    Obeys .events w (poll run count polled yielded) := by
  refine .get_bind ?_
  split
  · exact .pure ()
  · next task s _ =>
    refine .set_bind (Page.Lasts.refl _) (.ite ?_ (hr (.poll count polled yielded) _))
    refine (putsBack_pollTask hr task).bind fun finished v => ?_
    refine .ite (putsBack_schedule _) (.get_bind ?_)
    exact .ite (.pure ()) (hr (.poll _ _ _) v)

theorem putsBack_turn : Obeys .events w (turn run) := by
  refine (putsBack_schedule _).bind fun _ v => .get_bind ?_
  refine .bind (hr (.poll _ 0 0) v) fun _ u => .get_bind ?_
  exact .ite (.pure ()) (hr .turn u)

theorem putsBack_settle : Obeys .events w (settle run) := by
  refine .get_bind (.ite (.pure false) ?_)
  refine .bind (putsBack_schedule _) fun _ v => .bind (hr .turn v) fun _ u => ?_
  refine .bind (putsBack_schedule _) fun _ x => .bind (hr (.drain 0) x) fun count y => ?_
  exact .ite (.pure true) (hr .settle y)

theorem putsBack_job : Runner.PutsBack (job run) := by
  intro j
  cases j with
  | command c => exact fun w => obeys_command hr.obeys c
  | routine n => exact fun w => obeys_routine hr.obeys n
  | observer o => exact fun w => obeys_observer hr.obeys o
  | flush place => exact fun w => obeys_flush hr.obeys place
  | drain count => exact fun w => obeys_drain hr.obeys count
  | bubble n => exact fun w a v h => lasts_bubble hr h
  | build spec => exact fun w => obeys_build hr.obeys spec
  | apply e n => exact fun w => obeys_apply hr.obeys e n
  | resume task => exact fun w => putsBack_resume hr task
  | poll count polled yielded => exact fun w => putsBack_poll hr count polled yielded
  | turn => exact fun w => putsBack_turn hr
  | settle => exact fun w => putsBack_settle hr

omit hr in
/-- Every job puts back the events that it pushes. -/
theorem putsBack_run (fuel : ℕ) : Runner.PutsBack (Run.run fuel) := by
  induction fuel with
  | zero => exact fun j w a v h => by cases h
  | succ fuel ih => exact fun j w => putsBack_job ih j w

end Run

end LiveMarkup
