import LiveMarkup.Proofs.Page.Listening
import LiveMarkup.Proofs.Run.Activities
import LiveMarkup.Proofs.Tasks.Moved
import LiveMarkup.Run.Session

/-!
# What everything that runs obeys

A discipline is a transitive relation between worlds that demands something only of the events that
are being handled and of tasks (`Discipline`).  Whatever runs obeys it (`Activity.Obeys`) as soon as
the few activities do that push an event, walk it along the ancestors of its target or poll tasks
(`Runner.Obeys`).  The walk through all the other activities is here, once for every discipline
(`Run.obeys_command`, `Run.obeys_build`, `Run.obeys_apply`, `Run.obeys_routine`).
-/

namespace LiveMarkup

/-- A transitive relation between a world and a later one, which allows whatever goes on with the
events that are being handled and only lets tasks make moves. -/
structure Discipline where
  Allows : World → World → Prop
  trans : ∀ {u v w}, Allows u v → Allows v w → Allows u w
  of_lasts : ∀ {v w}, v.page.Lasts w.page → v.tasks.scheduler.Passes w.tasks.scheduler →
    Allows v w

/-- The jobs that obey every discipline, whatever goes on: all but those that walk an event along
the ancestors of its target or poll tasks. -/
def Job.IsOrdinary : Job → Prop
  | .bubble _ | .poll _ _ _ | .turn => False
  | _ => True

variable {α β : Type} {d : Discipline} {w v : World}

theorem Discipline.Allows.of_eq (hevents : v.page.events = w.page.events)
    (htasks : v.tasks.scheduler = w.tasks.scheduler) : d.Allows w v :=
  d.of_lasts (.of_eq hevents) (.of_eq htasks)

/-- What has to do with tasks alone. -/
theorem Discipline.Allows.of_passes {t : Tasks} (h : w.tasks.scheduler.Passes t.scheduler) :
    d.Allows w { w with tasks := t } :=
  d.of_lasts (.refl _) h

namespace Activity

/-- Whatever an activity leads to, the discipline allows it. -/
def Obeys (d : Discipline) (w : World) (action : Activity α) : Prop :=
  ∀ a v, action w = some (a, v) → d.Allows w v

namespace Obeys

variable {action : Activity α} {next : α → Activity β}

theorem of_allows {a : α} (h : action w = some (a, v)) (hv : d.Allows w v) :
    Obeys d w action := by
  intro b u hb
  obtain ⟨rfl, rfl⟩ := Prod.mk.inj (Option.some.inj (h.symm.trans hb))
  exact hv

/-- An activity that is begun in a world which the discipline allows. -/
theorem onward {a : α} {u : World} (h : Obeys d v action) (hu : action v = some (a, u))
    (hv : d.Allows w v) : d.Allows w u := d.trans hv (h a u hu)

theorem of_eq {a : α} (h : action w = some (a, v)) (hevents : v.page.events = w.page.events)
    (htasks : v.tasks.scheduler = w.tasks.scheduler) : Obeys d w action :=
  of_allows h (.of_eq hevents htasks)

theorem pure (a : α) : Obeys d w (Pure.pure a) := of_eq rfl rfl rfl

/-- What comes next may rely on the discipline of what came before it. -/
theorem bind_of_allows (h : Obeys d w action)
    (hnext : ∀ a v, d.Allows w v → Obeys d v (next a)) : Obeys d w (action >>= next) := by
  intro b u hb
  obtain ⟨a, v, ha, hb⟩ := bind_eq_some_iff.1 hb
  exact d.trans (h a v ha) (hnext a v (h a v ha) b u hb)

theorem bind (h : Obeys d w action) (hnext : ∀ a v, Obeys d v (next a)) :
    Obeys d w (action >>= next) := h.bind_of_allows fun a v _ => hnext a v

theorem bind_of_eq_some {a : α} (h : action w = some (a, v)) (hv : d.Allows w v)
    (hnext : Obeys d v (next a)) : Obeys d w (action >>= next) := by
  intro b u hb
  rw [Activity.bind_of_eq_some h] at hb
  exact d.trans hv (hnext b u hb)

theorem map (h : Obeys d w action) (f : α → β) : Obeys d w (f <$> action) := by
  rw [map_eq_pure_bind]
  exact h.bind fun a _ => pure (f a)

theorem ite {c : Prop} [Decidable c] {other : Activity α} (hyes : Obeys d w action)
    (hno : Obeys d w other) : Obeys d w (if c then action else other) := by
  split_ifs
  · exact hyes
  · exact hno

theorem get_bind {next : World → Activity β} (hnext : Obeys d w (next w)) :
    Obeys d w (get >>= next) := hnext

theorem modify_bind {change : World → World} {next : Unit → Activity β}
    (hevents : (change w).page.events = w.page.events)
    (htasks : (change w).tasks.scheduler = w.tasks.scheduler)
    (hnext : Obeys d (change w) (next ())) : Obeys d w (modify change >>= next) :=
  bind_of_eq_some rfl (.of_eq hevents htasks) hnext

theorem set_bind {next : PUnit → Activity β} (hset : d.Allows w v)
    (hnext : Obeys d v (next ⟨⟩)) : Obeys d w (set v >>= next) :=
  bind_of_eq_some rfl hset hnext

end Obeys

end Activity

open Activity

/-- A runner whose ordinary jobs obey a discipline, as do the activities that ask for others. -/
structure Runner.Obeys (run : Runner) (d : Discipline) : Prop where
  job : ∀ j : Job, j.IsOrdinary → ∀ w, Activity.Obeys d w (run j)
  call : ∀ event n k w, Activity.Obeys d w (Run.handling event n (run (.routine k)))
  dispatch : ∀ n event w, Activity.Obeys d w (Run.dispatch run n event)
  blockOn : ∀ source w, Activity.Obeys d w (Run.blockOn run source)

theorem World.page_note (w : World) (reply : Reply) : (w.note reply).page = w.page := by
  unfold World.note
  split_ifs <;> rfl

theorem World.tasks_note (w : World) (reply : Reply) : (w.note reply).tasks = w.tasks := by
  unfold World.note
  split_ifs <;> rfl

namespace Activity

theorem obeys_note (reply : Reply) : Obeys d w (note reply) :=
  .of_eq rfl (by rw [World.page_note]) (by rw [World.tasks_note])

theorem obeys_reactive (change : Reactive → Reactive) : Obeys d w (reactive change) :=
  .of_eq rfl rfl rfl

theorem obeys_place (placement : Forest → Forest.Placed) : Obeys d w (place placement) :=
  .of_eq rfl rfl rfl

theorem obeys_create (k : Kind) (s : String) : Obeys d w (create k s) := .of_eq rfl rfl rfl

theorem obeys_addRoutine (r : Routine) : Obeys d w (addRoutine r) := .of_eq rfl rfl rfl

theorem obeys_schedule {operation : Scheduler → α × Scheduler}
    (h : w.tasks.scheduler.Passes (operation w.tasks.scheduler).2) :
    Obeys d w (schedule operation) := .of_allows (schedule_of_eq rfl) (.of_passes h)

theorem obeys_discard (es : List Expression) : Obeys d w (discard es) := by
  refine .of_allows rfl (.of_passes ?_)
  change w.tasks.scheduler.Passes
    ((Expression.channelsAll es).foldl Scheduler.dropReceiver w.tasks.scheduler)
  generalize Expression.channelsAll es = cs, w.tasks.scheduler = s
  induction cs generalizing s with
  | nil => exact .refl s
  | cons c cs ih => exact (Scheduler.stirs_dropReceiver s c).passes.trans (ih _)

theorem obeys_holding {nodes : List NodeId} {action : Activity α}
    (h : ∀ v, Obeys d v action) : Obeys d w (holding nodes action) :=
  .get_bind (.modify_bind rfl rfl ((h _).bind fun a _ => .modify_bind rfl rfl (.pure a)))

/-- What fails drops the values that were not bound. -/
theorem obeys_giveUp (es : List Expression) (a : α) :
    Obeys d w (do discard es; return a) :=
  (obeys_discard es).bind fun _ _ => .pure a

end Activity

namespace Run

variable {run : Runner}

theorem obeys_body (hr : run.Obeys d) (commands : Script) : Obeys d w (body run commands) := by
  induction commands generalizing w with
  | nil => exact .pure ()
  | cons c commands ih =>
    refine .bind (hr.job (.command c) trivial w) fun reply v => ?_
    exact (obeys_note reply).bind fun _ u => ih

/-! ### Observers -/

theorem obeys_observing (o : Option ℕ) {action : Activity α} (h : ∀ v, Obeys d v action) :
    Obeys d w (observing o action) :=
  (obeys_reactive _).bind fun _ v => (h v).bind fun a _ =>
    (obeys_reactive _).bind fun _ _ => .pure a

theorem obeys_addObserver (isEffect : Bool) (r : Routine) :
    Obeys d w (addObserver isEffect r) :=
  (obeys_addRoutine r).bind fun _ _ => .of_eq rfl rfl rfl

theorem obeys_nextMicrotask : Obeys d w nextMicrotask := by
  intro a v h
  unfold nextMicrotask at h
  split at h <;> obtain ⟨-, rfl⟩ := Prod.mk.inj (Option.some.inj h) <;> exact .of_eq rfl rfl

section Observers

variable (hr : run.Obeys d)

include hr

theorem obeys_observer (o : ℕ) : Obeys d w (observer run o) := by
  refine .get_bind ?_
  dsimp only
  split
  · exact .pure ()
  · next ob _ =>
    split_ifs
    · exact .pure ()
    · refine (obeys_reactive _).bind fun _ _ => ?_
      refine (obeys_observing _ (hr.job (.routine ob.routine) trivial)).bind fun _ _ => ?_
      exact obeys_reactive _
    · exact hr.job (.routine ob.routine) trivial w

theorem obeys_flush (place : ℕ) : Obeys d w (flush run place) := by
  refine .get_bind ?_
  split
  · next o _ =>
    refine .bind (hr.job (.observer o) trivial w) fun _ v => ?_
    exact hr.job (.flush (place + 1)) trivial v
  · exact obeys_reactive _

theorem obeys_drain (count : ℕ) : Obeys d w (drain run count) := by
  refine obeys_nextMicrotask.bind fun task v => ?_
  have hrest : ∀ u, Obeys d u (run (.drain (count + 1))) := hr.job (.drain (count + 1)) trivial
  split
  · exact .pure count
  · exact .bind (hr.job (.flush 0) trivial v) fun _ => hrest
  · next n => exact .bind (hr.job (.routine n) trivial v) fun _ => hrest

end Observers

/-! ### Parts of what handles events and polls tasks -/

theorem obeys_takeListeners (n : NodeId) : Obeys d w (takeListeners n) := by
  intro a v h
  unfold takeListeners at h
  split at h <;> obtain ⟨-, rfl⟩ := Prod.mk.inj (Option.some.inj h) <;> exact .of_eq rfl rfl

theorem obeys_handlers (hr : run.Obeys d) (ls : List Listener) :
    Obeys d w (handlers run ls) := by
  induction ls generalizing w with
  | nil => exact .pure ()
  | cons l ls ih => exact .bind (hr.job (.routine l.handler) trivial w) fun _ v => ih

theorem obeys_failTask (fallible : Bool) (message : String) :
    Obeys d w (failTask fallible message) :=
  .ite ((obeys_schedule (Scheduler.stirs_addError _ _).passes).bind fun _ _ => .pure true)
    (.pure true)

theorem obeys_fulfil (hr : run.Obeys d) (e : Expression) (n : NodeId) :
    Obeys d w (fulfil run e n) := by
  refine .bind (hr.job (.apply e n) trivial w) fun outcome v => ?_
  split
  · exact .pure true
  · exact obeys_failTask _ _

/-! ### Binding values -/

theorem obeys_readSignal (name : String) (mode : ReadMode) :
    Obeys d w (readSignal name mode) := by
  intro a v h
  unfold readSignal at h
  split at h
  · obtain ⟨-, rfl⟩ := Prod.mk.inj (Option.some.inj h)
    exact .of_eq rfl rfl
  · split at h <;> obtain ⟨-, rfl⟩ := Prod.mk.inj (Option.some.inj h) <;>
    exact .of_eq rfl rfl

theorem obeys_handler (h : Handler) : Obeys d w (handler h) := by
  cases h with
  | script commands => exact (obeys_addRoutine _).bind fun _ _ => .pure _
  | callback name => exact .get_bind (.pure _)

section Binding

variable {binding : Binding → NodeId → Activity (Except RenderFault Unit)}

mutual

theorem obeys_applyTo (hb : ∀ b n w, Obeys d w (binding b n)) (w : World) (n : NodeId)
    (e : Expression) : Obeys d w (applyTo run binding n e) := by
  cases e with
  | empty => exact .pure _
  | text s | number x | bigint i | node m | capability name value =>
    rw [applyTo]
    exact obeys_place _
  | function b => exact hb b n w
  | deferred promise =>
    exact (obeys_schedule (Scheduler.passes_spawn _ _)).bind fun _ _ => .pure _
  | iterable items =>
    refine .get_bind ?_
    dsimp only
    split
    · next p _ _ =>
      refine (obeys_applySlots hb w p n items).bind fun outcome v => ?_
      split
      · exact .modify_bind rfl rfl (.pure _)
      · exact .pure _
    · exact obeys_applyAll hb w n items
    · exact obeys_giveUp items _

theorem obeys_applySlots (hb : ∀ b n w, Obeys d w (binding b n)) (w : World)
    (p anchor : NodeId) (items : List Expression) :
    Obeys d w (applySlots run binding p anchor items) := by
  cases items with
  | nil => exact .pure _
  | cons item items =>
    intro a u hu
    rw [applySlots] at hu
    dsimp only at hu
    rcases hadd : w.forest.addSlot p anchor with ⟨slot, fault | ⟨⟩, f⟩
    · rw [hadd] at hu
      exact (obeys_giveUp (item :: items) _).onward hu (.of_eq rfl rfl)
    · rw [hadd] at hu
      refine ((obeys_applyTo hb _ slot item).bind fun outcome v => ?_).onward hu (.of_eq rfl rfl)
      split
      · exact obeys_applySlots hb v p anchor items
      · exact obeys_giveUp items _

theorem obeys_applyAll (hb : ∀ b n w, Obeys d w (binding b n)) (w : World) (n : NodeId)
    (items : List Expression) : Obeys d w (applyAll run binding n items) := by
  cases items with
  | nil => exact .pure _
  | cons item items =>
    refine (obeys_applyTo hb w n item).bind fun outcome v => ?_
    split
    · exact obeys_applyAll hb v n items
    · exact obeys_giveUp items _

end

end Binding

section Screens

variable (hr : run.Obeys d)

include hr

theorem obeys_bindLive (value : Spec) (n : NodeId) : Obeys d w (bindLive run value n) := by
  refine .get_bind ?_
  generalize w.forest.liveTarget n = found
  rcases found with ⟨fault | target, f⟩
  · exact .set_bind (.of_eq rfl rfl) (.pure _)
  · refine .set_bind (.of_eq rfl rfl) ((obeys_addObserver true _).bind fun o v => ?_)
    exact .bind (hr.job (.observer o) trivial v) fun _ _ => .pure _

theorem obeys_bind (b : Binding) (n : NodeId) : Obeys d w (bind run b n) := by
  cases b with
  | fail fault => exact .pure _
  | function as commands result =>
    refine .modify_bind rfl rfl ((obeys_body hr commands).bind fun _ v => ?_)
    exact .bind (hr.job (.build result) trivial v) fun e u => hr.job (.apply e n) trivial u
  | setAttr name value => exact obeys_place (w := w) (·.placeAttr n name value)
  | listen event routine once =>
    exact .get_bind (.ite (.modify_bind rfl rfl (.pure _)) (.pure _))
  | capture slot => exact .modify_bind rfl rfl (.pure _)
  | live value => exact obeys_bindLive hr value n

theorem obeys_apply (e : Expression) (n : NodeId) : Obeys d w (apply run e n) :=
  obeys_applyTo (fun b n _ => obeys_bind hr b n) w n e

theorem obeys_showLive (value : Spec) (target : NodeId) :
    Obeys d w (showLive run value target) :=
  .bind (hr.job (.build value) trivial w) fun e v =>
    .bind (hr.job (.apply e target) trivial v) fun _ _ => .pure ()

/-! ### Rendering -/

theorem obeys_applyWith (applier : Option Applier) (e : Expression) (n : NodeId) :
    Obeys d w (applyWith run applier e n) := by
  cases applier with
  | none => exact hr.job (.apply e n) trivial w
  | some applier =>
    refine .get_bind ((obeys_note _).bind fun _ v => ?_)
    cases applier with
    | apply => exact hr.job (.apply e n) trivial v
    | skip | fail => exact obeys_giveUp [e] _

theorem obeys_applyEach (applier : Option Applier) (es : List Expression) (ns : List NodeId) :
    Obeys d w (applyEach run applier es ns) := by
  induction es generalizing w ns with
  | nil => exact .pure _
  | cons e es ih =>
    cases ns with
    | nil => exact .pure _
    | cons n ns =>
      refine (obeys_applyWith hr applier e n).bind fun outcome v => ?_
      split
      · exact ih ns
      · exact obeys_giveUp es _

theorem obeys_fill (t : Template) (applier : Option Applier) (es : List Expression) :
    Obeys d w (fill run t applier es) := by
  refine .bind (.of_eq rfl rfl rfl) fun copied v => ?_
  split
  · exact obeys_giveUp es _
  · refine .ite ?_ (obeys_giveUp es _)
    refine (obeys_holding fun u => obeys_applyEach hr applier es _).bind fun outcome u => ?_
    split
    · exact .pure _
    · exact .pure _

theorem obeys_renderStrings (strings : ℕ) (applier : Option Applier) (es : List Expression) :
    Obeys d w (renderStrings run strings applier es) := by
  refine .bind (.of_eq rfl rfl rfl) fun fetched v => ?_
  split
  · exact obeys_giveUp es _
  · exact obeys_fill hr _ applier es

theorem obeys_renderSegments (segments : List String) (es : List Expression) :
    Obeys d w (renderSegments run segments es) :=
  .get_bind (.set_bind (.of_eq rfl rfl) ((obeys_renderStrings hr _ none es).bind fun rendered _ =>
    .modify_bind rfl rfl (.pure rendered)))

/-! ### Building values -/

theorem obeys_buildAll (specs : List Spec) : Obeys d w (buildAll run specs) := by
  induction specs generalizing w with
  | nil => exact .pure _
  | cons spec specs ih =>
    exact .bind (hr.job (.build spec) trivial w) fun e v => ih.bind fun es _ => .pure (e :: es)

theorem obeys_build (spec : Spec) : Obeys d w (build run spec) := by
  cases spec with
  | empty | text | integer | single | double | error | capability | function | setAttr | capture
    | live | deferred => exact .pure _
  | list items => exact (obeys_buildAll hr items).bind fun es _ => .pure _
  | concat parts => exact (obeys_buildAll hr parts).bind fun es _ => .pure _
  | node name =>
    refine .get_bind ?_
    split
    · exact .pure _
    · exact .pure _
  | element tag | attrNode name value => exact (obeys_create _ _).bind fun n _ => .pure _
  | markup segments values =>
    refine (obeys_buildAll hr values).bind fun es v => ?_
    refine (obeys_renderSegments hr segments es).bind fun rendered u => ?_
    split
    · exact .pure _
    · exact .pure _
  | listen event h once =>
    refine (obeys_handler h).bind fun routine v => ?_
    split
    · exact .pure _
    · exact .pure _
  | received name =>
    intro a v h
    have htake := (Tasks.stirs_take w.tasks (.channel name)).passes
    unfold build at h
    dsimp only at h
    split at h <;> next heq =>
      obtain ⟨-, rfl⟩ := Prod.mk.inj (Option.some.inj h)
      rw [heq] at htake
      exact .of_passes htake
  | signal name mode =>
    refine (obeys_readSignal name mode).bind fun value v => ?_
    split
    · exact .pure _
    · exact .pure _
  | untracked value => exact obeys_observing none fun v => hr.job (.build value) trivial v
  | log message value => exact (obeys_note _).bind fun _ v => hr.job (.build value) trivial v
  | choose name value same other =>
    refine (obeys_readSignal name .tracked).bind fun read v => ?_
    split
    · exact hr.job (.build _) trivial v
    · exact .pure _

theorem obeys_mountAt (m : Mount) (e : Expression) (cls : Option String) :
    Obeys d w (mountAt run m e cls) := by
  intro a u hu
  unfold mountAt at hu
  dsimp only at hu
  split at hu
  · exact (obeys_giveUp [e] _).onward hu (.of_eq rfl rfl)
  · split at hu
    · exact (obeys_giveUp [e] _).onward hu (.of_eq rfl rfl)
    · exact (obeys_holding (hr.job (.apply e _) trivial)).onward hu (.of_eq rfl rfl)

end Screens

/-! ### Commands -/

theorem obeys_onPage (c : PageCommand) : Obeys d w (onPage c) :=
  .of_allows rfl (d.of_lasts (PageAction.lasts_ofCommand c w.page) (.refl _))

theorem obeys_node (name : String) : Obeys d w (node name) := by
  intro a v h
  unfold node at h
  split at h <;> obtain ⟨-, rfl⟩ := Prod.mk.inj (Option.some.inj h) <;>
    exact .of_eq rfl rfl

theorem obeys_withNode (name : String) {action : NodeId → Activity Reply}
    (h : ∀ n v, Obeys d v (action n)) : Obeys d w (withNode name action) := by
  refine (obeys_node name).bind fun outcome v => ?_
  split
  · exact h _ v
  · exact .pure _

theorem obeys_listen (n : NodeId) (event : String) (h : Handler) (once : Bool)
    (as : Option String) : Obeys d w (listen n event h once as) := by
  refine (obeys_handler h).bind fun routine v => ?_
  split
  · exact .pure _
  · exact .of_eq rfl rfl rfl

theorem obeys_bindCallback (as : String) (r : Routine) : Obeys d w (bindCallback as r) :=
  (obeys_addRoutine r).bind fun _ _ => .modify_bind rfl rfl (.pure _)

theorem obeys_mountNamed (name : Option String) : Obeys d w (mountNamed name) :=
  .of_allows rfl (d.of_lasts (PageAction.Tends.mount name w.page).lasts (.refl _))

section Commands

variable (hr : run.Obeys d)

include hr

theorem obeys_callCallback (name : String) (n : NodeId) (event : String) :
    Obeys d w (callCallback run name n event) := by
  refine .get_bind ?_
  split
  · exact .pure _
  · next routine _ =>
    exact (hr.call event n routine w).bind fun _ _ => .pure _

theorem obeys_effect (commands : Script) (as : Option String) (later : Bool) :
    Obeys d w (effect run commands as later) := by
  refine (obeys_addObserver true _).bind fun o v => ?_
  cases later with
  | true => exact .modify_bind rfl rfl (.pure _)
  | false => exact .bind (hr.job (.observer o) trivial v) fun _ _ => .modify_bind rfl rfl (.pure _)

theorem obeys_runEffect (name : String) : Obeys d w (runEffect run name) := by
  refine .get_bind ?_
  split
  · exact .pure _
  · next o _ => exact .bind (hr.job (.observer o) trivial w) fun _ _ => .pure _

theorem obeys_render (source : TemplateSource) (specs : List Spec) (applier : Option Applier)
    (as : Option String) : Obeys d w (render run source specs applier as) := by
  refine (obeys_buildAll hr specs).bind fun es v => ?_
  have hname (root : NodeId) (u : World) :
      Obeys d u (modify (fun w => { w with page := w.page.bindTo as root }) >>= fun _ =>
        get >>= fun w => Pure.pure (Reply.text (w.page.inner root))) :=
    .modify_bind rfl rfl (.get_bind (.pure _))
  cases source with
  | segments segments =>
    refine ((obeys_renderSegments hr segments es).map _).bind fun rendered u => ?_
    cases rendered with
    | error failure => exact .pure _
    | ok root => exact hname root u
  | strings name =>
    refine .get_bind ?_
    dsimp only
    split
    · refine ((obeys_renderStrings hr _ _ es).map _).bind fun rendered u => ?_
      cases rendered with
      | error failure => exact .pure _
      | ok root => exact hname root u
    · exact .pure _

theorem obeys_applyValue (n : NodeId) (spec : Spec) : Obeys d w (applyValue run n spec) := by
  refine .bind (hr.job (.build spec) trivial w) fun e v => ?_
  refine (obeys_holding fun v => hr.job (.apply e n) trivial v).bind fun outcome u => ?_
  split
  · exact .get_bind (.pure _)
  · exact .pure _

theorem obeys_describeValue (spec : Spec) : Obeys d w (describeValue run spec) :=
  .bind (hr.job (.build spec) trivial w) fun e _ =>
    .get_bind ((obeys_discard [e]).bind fun _ _ => .pure _)

theorem obeys_showValue (spec : Spec) : Obeys d w (showValue run spec) := by
  refine .bind (hr.job (.build spec) trivial w) fun e v => .get_bind ?_
  refine (obeys_create _ _).bind fun n u => ?_
  refine (obeys_holding fun v => hr.job (.apply e n) trivial v).bind fun outcome u => ?_
  split
  · exact .get_bind (.pure _)
  · exact .pure _

theorem obeys_mount (spec : Spec) (cls name : Option String) :
    Obeys d w (mount run spec cls name) := by
  refine .bind (hr.job (.build spec) trivial w) fun e v => ?_
  refine (obeys_mountNamed name).bind fun found u => ?_
  split
  · exact obeys_giveUp [e] _
  · refine (obeys_mountAt hr _ e cls).bind fun outcome x => ?_
    split
    · exact .pure _
    · exact .get_bind (.pure _)

theorem obeys_blockOnValue (value : Awaitable) : Obeys d w (blockOnValue run value) := by
  refine .get_bind ?_
  have htake := (Tasks.stirs_take w.tasks value).passes
  generalize w.tasks.take value = taken at htake
  rcases taken with ⟨failure | source, t⟩
  · exact .set_bind (.of_passes htake) (.pure _)
  · exact .set_bind (.of_passes htake) ((hr.blockOn source _).bind fun _ _ => .pure _)

theorem obeys_call (procedure : String) : Obeys d w (call run procedure) := by
  refine .get_bind ?_
  split
  · exact .pure _
  · exact (obeys_body hr _).bind fun _ _ => .pure _

theorem obeys_command (c : Command) : Obeys d w (command run c) := by
  cases c with
  | page c => exact obeys_onPage c
  | signal | template | card | drop => exact .of_eq rfl rfl rfl
  | task c => exact .of_allows rfl (.of_passes (Tasks.stirs_run w.tasks c).passes)
  | send channel text value =>
    exact .of_allows rfl (.of_passes (Tasks.stirs_send w.tasks _ _).passes)
  | log | await | fail => exact .pure _
  | define as commands => exact .modify_bind rfl rfl (.pure _)
  | call procedure => exact obeys_call hr procedure
  | listen on event h once as =>
    exact obeys_withNode on fun n v => obeys_listen n event h once as
  | dispatch on event => exact obeys_withNode on fun n v => hr.dispatch n event v
  | callback as commands => exact obeys_bindCallback as _
  | callCallback name on event =>
    exact obeys_withNode on fun n v => obeys_callCallback hr name n event
  | effect commands as later => exact obeys_effect hr commands as later
  | runEffect name => exact obeys_runEffect hr name
  | untrack commands =>
    exact (obeys_observing none fun v => obeys_body hr commands).bind fun _ _ => .pure _
  | microtask commands =>
    exact Obeys.bind ((obeys_addRoutine _).bind fun _ _ => obeys_reactive _) fun _ _ =>
      .pure _
  | runMicrotasks => exact .bind (hr.job (.drain 0) trivial w) fun _ _ => .pure _
  | observer as commands =>
    exact (obeys_addObserver false _).bind fun _ _ => .modify_bind rfl rfl (.pure _)
  | flush => exact .bind (hr.job (.flush 0) trivial w) fun _ _ => .pure _
  | spawn commands fallible =>
    exact Obeys.bind ((obeys_schedule (Scheduler.passes_spawn _ _)).bind fun _ _ => .pure _)
      fun _ _ => .pure _
  | runUntilStalled => exact .bind (hr.job .settle trivial w) fun _ _ => .pure _
  | blockOn value => exact obeys_blockOnValue hr value
  | transition machine name step as =>
    refine .get_bind ?_
    split
    · exact .pure _
    · exact obeys_bindCallback as _
  | render source specs applier as => exact obeys_render hr source specs applier as
  | apply target spec => exact obeys_withNode target fun n v => obeys_applyValue hr n spec
  | describeValue spec => exact obeys_describeValue hr spec
  | showValue spec => exact obeys_showValue hr spec
  | mount spec cls name => exact obeys_mount hr spec cls name

theorem obeys_transition (machine : ℕ) (name : String) (step : Option TransitionStep) :
    Obeys d w (transition run machine name step) := by
  have hfire (v : World) (text : String) :
      Obeys d v (schedule fun s => s.fire machine name text) :=
    obeys_schedule (Scheduler.stirs_fire _ _ _ _).passes
  refine .get_bind (.ite ?_ (.pure ()))
  split
  · exact (hfire _ _).bind fun _ _ => .pure ()
  · refine (obeys_body hr _).bind fun _ v => .get_bind ?_
    exact .ite ((hfire _ _).bind fun _ _ => .pure ()) (.pure ())

theorem obeys_routine (n : ℕ) : Obeys d w (routine run n) := by
  refine .get_bind ?_
  split
  · exact .pure ()
  · exact obeys_body hr _
  · exact obeys_transition hr _ _ _
  · exact obeys_showLive hr _ _

end Commands

end Run

end LiveMarkup
