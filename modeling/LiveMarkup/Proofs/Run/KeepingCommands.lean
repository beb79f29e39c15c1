import LiveMarkup.Proofs.Run.KeepingScreens

/-!
# Sessions keep nodes sealed off

Every command leaves sealed nodes as they are, and sealed off, so that every job and every session
does (`Run.keeps_run`, `World.Sealed.performAll`).
-/

namespace LiveMarkup

open Activity

namespace Run

variable {S : Set NodeId} {n : NodeId} {w : World} {run : Runner}

/-! ### Commands that run no other code -/

section Plain

variable (hw : w.Sealed S)

include hw

theorem keeps_onPage (c : PageCommand) : Keeps S w (onPage c) Anything :=
  .of_eq rfl (hw.setPage (PageAction.keeps_ofCommand hw.page c)) trivial

theorem keeps_onSignals (c : SignalCommand) : Keeps S w (onSignals c) Anything :=
  .of_eq rfl (hw.of_eq rfl rfl rfl rfl rfl) trivial

theorem keeps_onTemplates (c : TemplateCommand) : Keeps S w (onTemplates c) Anything :=
  .of_eq rfl (hw.setTemplates (hw.templates.run c)) trivial

theorem keeps_onCards (c : CardCommand) : Keeps S w (onCards c) Anything :=
  .of_eq rfl (hw.of_eq rfl rfl rfl rfl rfl) trivial

theorem keeps_onTasks (c : TaskCommand) : Keeps S w (onTasks c) Anything :=
  .of_eq rfl (hw.setTasks (w.tasks.programs_run c)) trivial

theorem keeps_send (channel : String) (message : Message) :
    Keeps S w (send channel message) Anything :=
  .of_eq rfl (hw.setTasks (w.tasks.programs_sendTo channel message)) trivial

/-- What is done with the node of a name is done with a node outside. -/
theorem keeps_withNode (name : String) {action : NodeId → Activity Reply}
    (h : ∀ n, w.forest.Open S n → Keeps S w (action n) Anything) :
    Keeps S w (withNode name action) Anything := by
  cases hname : w.page.nodes.get? name with
  | none =>
    have hrun : node name w = some (.error (.unbound name), w) := by rw [node, hname]
    exact .bind_of_eq hrun hw.refl (.pure hw trivial)
  | some n =>
    have hrun : node name w = some (.ok n, w) := by rw [node, hname]
    exact .bind_of_eq hrun hw.refl (h n (hw.page.nodes.get? hname))

theorem keeps_listen (hn : w.forest.Open S n) (event : String) (h : Handler) (once : Bool)
    (as : Option String) : Keeps S w (listen n event h once as) Anything := by
  refine (keeps_handler hw h).bind fun routine v hv _ => ?_
  split
  · exact .pure hv.seals trivial
  · next k _ =>
    have hlisten := hv.seals.page.listen (hv.open_mono hn).not_mem event k once
    exact .of_eq rfl (hv.seals.setPage (hlisten.setRest _ _ _)) trivial

theorem keeps_drop (name : String) : Keeps S w (drop name) Anything := by
  have hfree := hw.setPage (hw.page.unbind name)
  exact .of_eq rfl (hfree.trans hfree.seals.release) trivial

theorem keeps_bindCallback (as : String) {r : Routine} (hr : r.target? = none) :
    Keeps S w (bindCallback as r) Anything := by
  refine (keeps_addRoutine hw fun n hn => by rw [hr] at hn; cases hn).then_ fun k v hv => ?_
  have hbind := hv.of_eq (v := { v with callbacks := v.callbacks.bind as k }) rfl rfl rfl rfl rfl
  exact .modify_bind hbind (.pure hbind.seals trivial)

theorem keeps_bindTransition (machine name : String) (step : Option TransitionStep) (as : String) :
    Keeps S w (bindTransition machine name step as) Anything := by
  refine .get_bind ?_
  split
  · exact .pure hw trivial
  · exact keeps_bindCallback hw as rfl

theorem keeps_define (as : String) (commands : Script) :
    Keeps S w (define as commands) Anything := by
  have hbind := hw.of_eq (v := { w with procedures := w.procedures.bind as commands })
    rfl rfl rfl rfl rfl
  exact .modify_bind hbind (.pure hbind.seals trivial)

theorem keeps_bindObserver (as : String) (commands : Script) :
    Keeps S w (bindObserver as commands) Anything := by
  refine (keeps_addObserver hw false fun n hn => by cases hn).then_ fun o v hv => ?_
  have hbind := hv.of_eq (v := { v with
    signals := { v.signals with observers := v.signals.observers.bind as o } }) rfl rfl rfl rfl rfl
  exact .modify_bind hbind (.pure hbind.seals trivial)

omit hw in
theorem keeps_silently {action : Activity Unit} (h : Keeps S w action Anything) :
    Keeps S w (silently action) Anything :=
  h.then_ fun _ _ hv => .pure hv trivial

theorem keeps_queueScript (commands : Script) : Keeps S w (queueScript commands) Anything :=
  (keeps_addRoutine hw fun n hn => by cases hn).then_ fun _ _ hv => keeps_reactive hv _

/-- A mount that is found is at a node outside. -/
theorem keeps_mountNamed (name : Option String) :
    Keeps S w (mountNamed name) fun outcome v =>
      ∀ m, outcome = .ok m → v.forest.Open S m.container := by
  obtain ⟨outcome, hon, hopen⟩ := PageAction.on_mount hw.page name
  have hrun : mountNamed name w = some (outcome, w) := by rw [mountNamed, hon]
  exact .of_eq hrun hw.refl hopen

end Plain

/-! ### Commands that ask for jobs -/

section Asking

variable (hr : run.Keeps S) (hw : w.Sealed S)

include hr hw

theorem keeps_callCallback (name : String) (hn : w.forest.Open S n) (event : String) :
    Keeps S w (callCallback run name n event) Anything := by
  refine .get_bind ?_
  split
  · exact .pure hw trivial
  · exact (keeps_handling hw hn fun hv => hr (.routine _) hv.seals trivial).then_
      fun _ _ hv => .pure hv trivial

theorem keeps_effect (commands : Script) (as : Option String) (later : Bool) :
    Keeps S w (effect run commands as later) Anything := by
  refine (keeps_addObserver hw true fun n hn => by cases hn).then_ fun o v hv => ?_
  have hname : ∀ u : World, u.Sealed S → Keeps S u (do
      modify fun w =>
        { w with signals := { w.signals with effects := w.signals.effects.bindTo as o } }
      return .nothing : Activity Reply) Anything := fun u hu => by
    have hbind := hu.of_eq (v := { u with
      signals := { u.signals with effects := u.signals.effects.bindTo as o } }) rfl rfl rfl rfl rfl
    exact .modify_bind hbind (.pure hbind.seals trivial)
  cases later with
  | true => exact hname v hv
  | false => exact (hr (.observer o) hv trivial).then_ fun _ u hu => hname u hu

theorem keeps_runEffect (name : String) : Keeps S w (runEffect run name) Anything := by
  refine .get_bind ?_
  split
  · exact .pure hw trivial
  · exact (hr (.observer _) hw trivial).then_ fun _ _ hv => .pure hv trivial

theorem keeps_call (procedure : String) : Keeps S w (call run procedure) Anything := by
  refine .get_bind ?_
  split
  · exact .pure hw trivial
  · exact (keeps_body hr _ hw).then_ fun _ _ hv => .pure hv trivial

theorem keeps_render (source : TemplateSource) (specs : List Spec) (applier : Option Applier)
    (as : Option String) : Keeps S w (render run source specs applier as) Anything := by
  refine (keeps_buildAll hr hw specs).bind fun es v hv hes => ?_
  have hname {root : NodeId} {u : World} (hu : u.Sealed S) (hroot : u.forest.Open S root) :
      Keeps S u (modify (fun w => { w with page := w.page.bindTo as root }) >>= fun _ =>
        get >>= fun w => Pure.pure (Reply.text (w.page.inner root))) Anything := by
    have hbound := hu.setPage (hu.page.bindTo as hroot)
    exact .modify_bind hbound (.get_bind (.pure hbound.seals trivial))
  cases source with
  | segments segments =>
    refine ((keeps_renderSegments hr hv.seals segments hes).map RootOpen.mapError).bind
      fun rendered u hu hroot => ?_
    cases rendered with
    | error failure => exact .pure hu.seals trivial
    | ok root => exact hname hu.seals (hroot root rfl)
  | strings name =>
    refine .get_bind ?_
    dsimp only
    split
    · next s hs =>
      have hin := hv.seals.templates.strings? hs
      refine ((keeps_renderStrings hr hv.seals hin _ hes).map RootOpen.mapError).bind
        fun rendered u hu hroot => ?_
      cases rendered with
      | error failure => exact .pure hu.seals trivial
      | ok root => exact hname hu.seals (hroot root rfl)
    · exact .pure hv.seals trivial

theorem keeps_applyValue (hn : w.forest.Open S n) (spec : Spec) :
    Keeps S w (applyValue run n spec) Anything := by
  refine (hr (.build spec) hw trivial).bind fun e v hv he => ?_
  refine (keeps_holding hv.seals (hr (.apply e n) (hv.seals.holding _)
    ⟨he, hv.open_mono hn⟩)).then_ fun outcome u hu => ?_
  split
  · exact .get_bind (.pure hu trivial)
  · exact .pure hu trivial

theorem keeps_describeValue (spec : Spec) : Keeps S w (describeValue run spec) Anything := by
  refine (hr (.build spec) hw trivial).then_ fun e v hv => .get_bind ?_
  exact (keeps_discard hv [e]).then_ fun _ _ hu => .pure hu trivial

theorem keeps_showValue (spec : Spec) : Keeps S w (showValue run spec) Anything := by
  refine (hr (.build spec) hw trivial).bind fun e v hv he => .get_bind ?_
  refine (keeps_create hv.seals .text "").bind fun n u hu hn => ?_
  refine (keeps_holding hu.seals (hr (.apply e n) (hu.seals.holding _)
    ⟨he.mono hu.size_le, hn⟩)).then_ fun outcome x hx => ?_
  split
  · exact .get_bind (.pure hx trivial)
  · exact .pure hx trivial

theorem keeps_mount (spec : Spec) (cls name : Option String) :
    Keeps S w (mount run spec cls name) Anything := by
  refine (hr (.build spec) hw trivial).bind fun e v hv he => ?_
  refine (keeps_mountNamed hv.seals name).bind fun outcome u hu hm => ?_
  split
  · exact keeps_giveUp hu.seals [e] fun _ => trivial
  · next m =>
    refine (keeps_mountAt hr hu.seals m (hm m rfl) (he.mono hu.size_le) cls).then_
      fun outcome x hx => ?_
    split
    · exact .pure hx trivial
    · exact .get_bind (.pure hx trivial)

theorem keeps_blockOnValue (value : Awaitable) : Keeps S w (blockOnValue run value) Anything := by
  have htake := hw.setTasks (w.tasks.programs_take value)
  refine .get_bind ?_
  generalize w.tasks.take value = taken at htake ⊢
  rcases taken with ⟨failure | source, t⟩
  · exact .set_bind htake (.pure htake.seals trivial)
  · refine .set_bind htake ((keeps_blockOn hr htake.seals source).then_ fun _ _ hv => ?_)
    exact .pure hv trivial

theorem keeps_command (c : Command) : Keeps S w (command run c) Anything := by
  cases c with
  | page c => exact keeps_onPage hw c
  | signal c => exact keeps_onSignals hw c
  | template c => exact keeps_onTemplates hw c
  | card c => exact keeps_onCards hw c
  | task c => exact keeps_onTasks hw c
  | send channel text value => exact keeps_send hw channel _
  | log message => exact .pure hw trivial
  | define as commands => exact keeps_define hw as commands
  | call procedure => exact keeps_call hr hw procedure
  | drop name => exact keeps_drop hw name
  | listen on event h once as =>
    exact keeps_withNode hw on fun n hn => keeps_listen hw hn event h once as
  | dispatch on event => exact keeps_withNode hw on fun n hn => keeps_dispatch hr hw hn event
  | callback as commands => exact keeps_bindCallback hw as rfl
  | callCallback name on event =>
    exact keeps_withNode hw on fun n hn => keeps_callCallback hr hw name hn event
  | effect commands as later => exact keeps_effect hr hw commands as later
  | runEffect name => exact keeps_runEffect hr hw name
  | untrack commands =>
    exact keeps_silently (keeps_observing hw
      (keeps_body hr commands (hw.modifyReactive _).seals) id)
  | microtask commands => exact keeps_silently (keeps_queueScript hw commands)
  | runMicrotasks => exact (hr (.drain 0) hw trivial).then_ fun _ _ hv => .pure hv trivial
  | observer as commands => exact keeps_bindObserver hw as commands
  | flush => exact keeps_silently (hr (.flush 0) hw trivial)
  | spawn commands fallible =>
    exact keeps_silently ((keeps_spawn hw fun n hn => by cases hn).then_ fun _ _ hv =>
      .pure hv trivial)
  | await value arms => exact .pure hw trivial
  | fail message => exact .pure hw trivial
  | runUntilStalled => exact (hr .settle hw trivial).then_ fun _ _ hv => .pure hv trivial
  | blockOn value => exact keeps_blockOnValue hr hw value
  | transition machine name step as => exact keeps_bindTransition hw machine name step as
  | render source specs applier as => exact keeps_render hr hw source specs applier as
  | apply target spec => exact keeps_withNode hw target fun n hn => keeps_applyValue hr hw hn spec
  | describeValue spec => exact keeps_describeValue hr hw spec
  | showValue spec => exact keeps_showValue hr hw spec
  | mount spec cls name => exact keeps_mount hr hw spec cls name

theorem keeps_routine (k : ℕ) : Keeps S w (routine run k) Anything := by
  refine .get_bind ?_
  split
  · exact .pure hw trivial
  · exact keeps_body hr _ hw
  · exact keeps_transition hr hw _ _ _
  · next value target hk =>
    exact keeps_showLive hr hw value (hw.routines (Array.mem_of_getElem? hk) rfl)

end Asking

/-! ### Jobs and sessions -/

/-- Every job keeps sealed nodes as they are, and sealed off, if the jobs it asks for do. -/
theorem keeps_job (hr : run.Keeps S) : (job run).Keeps S := by
  intro j w hw hj
  cases j with
  | command c => exact keeps_command hr hw c
  | routine k => exact keeps_routine hr hw k
  | observer o => exact keeps_observer hr hw o
  | flush place => exact keeps_flush hr hw place
  | drain count => exact keeps_drain hr hw count
  | bubble n => exact keeps_bubble hr hw hj
  | build spec => exact keeps_build hr hw spec
  | apply e n => exact keeps_apply hr hw hj.1 hj.2
  | resume task => exact keeps_resume hr hw task
  | poll count polled yielded => exact keeps_poll hr hw count polled yielded
  | turn => exact keeps_turn hr hw
  | settle => exact keeps_settle hr hw

theorem keeps_run (fuel : ℕ) : (Run.run fuel).Keeps S := by
  induction fuel with
  | zero => exact fun _ _ _ _ _ _ h => by cases h
  | succ fuel ih => exact keeps_job ih

end Run

namespace World.Sealed

variable {S : Set NodeId} {w v : World} {fuel : ℕ} {watch : List String}

theorem perform {c : Command} {report : StepReport} (hw : w.Sealed S)
    (h : w.perform fuel watch c = some (report, v)) : Avoids S w v := by
  have hlog := hw.of_eq (v := { w with log := [] }) rfl rfl rfl rfl rfl
  unfold World.perform at h
  split at h
  · cases h
  · next reply u hu =>
    obtain ⟨-, rfl⟩ := Prod.mk.inj (Option.some.inj h)
    obtain ⟨hkept, -⟩ := Run.keeps_run fuel (.command c) hlog.seals trivial reply u hu
    exact hlog.trans (hkept.trans hkept.seals.release)

/-- A session leaves sealed nodes as they are, and sealed off. -/
theorem performAll {cs : List Command} {reports : List StepReport} (hw : w.Sealed S)
    (h : w.performAll fuel watch cs = some (reports, v)) : Avoids S w v := by
  induction cs generalizing w reports with
  | nil =>
    obtain ⟨-, rfl⟩ := Prod.mk.inj (Option.some.inj h)
    exact hw.refl
  | cons c cs ih =>
    rw [World.performAll] at h
    split at h
    · cases h
    · next report u hu =>
      split at h
      · cases h
      · next rest x hx =>
        obtain ⟨-, rfl⟩ := Prod.mk.inj (Option.some.inj h)
        have hstep := perform hw hu
        exact hstep.trans (ih hstep.seals hx)

end World.Sealed

end LiveMarkup
