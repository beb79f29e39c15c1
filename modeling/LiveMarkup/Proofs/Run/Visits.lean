import LiveMarkup.Proofs.Forest.History
import LiveMarkup.Proofs.Run.Frames

/-!
# The way of an event

A dispatch takes its event to the target and from there to one ancestor after the other.
`Run.visits` has the nodes that the event comes to and the listeners that it invokes there, each
with the world before and after it; listeners may do whatever they like in between.

If every listener comes to an end and leaves the parents and listeners of all nodes as they are,
then so does the dispatch, and the way is the one that the tree prescribes (`Run.exists_inOrder`).
-/

namespace LiveMarkup

/-- A forest in which all nodes have the parents and the listeners they had in another. -/
structure Forest.Spared (f g : Forest) : Prop where
  parent_eq (n : NodeId) : g.parent n = f.parent n
  listeners_eq (n : NodeId) : g.listeners n = f.listeners n

namespace Forest

variable {f g h : Forest}

theorem Spared.refl (f : Forest) : f.Spared f := ⟨fun _ => rfl, fun _ => rfl⟩

theorem Spared.trans (hfg : f.Spared g) (hgh : g.Spared h) : f.Spared h :=
  ⟨fun n => (hgh.parent_eq n).trans (hfg.parent_eq n),
    fun n => (hgh.listeners_eq n).trans (hfg.listeners_eq n)⟩

/-- The nodes above a node are a matter of parents. -/
theorem lineage_congr (h : ∀ n, g.parent n = f.parent n) (fuel : ℕ) (n : NodeId) :
    g.lineage fuel n = f.lineage fuel n := by
  induction fuel generalizing n with
  | zero => rfl
  | succ fuel ih =>
    rw [lineage, lineage, h]
    cases f.parent n with
    | none => rfl
    | some p => exact congrArg _ (ih p)

end Forest

namespace World

/-- The world in which an event is being handled that has come to no node yet. -/
def handle (w : World) (event : String) (target : NodeId) : World :=
  { w with page := { w.page with events := ⟨event, target, none, false, false⟩ :: w.page.events } }

/-- The world in which the event that is being handled has come to a node and collected its
listeners. -/
def arrive (w : World) (n : NodeId) (event : String) : World :=
  { w with
    page := ((w.page.modifyEvent fun e => { e with current := some n }).takeListeners n event).2 }

end World

variable {w v : World} {run : Runner} {fuel : ℕ} {n target : NodeId} {event : String} {e : Event}
  {es : List Event} {l : Listener}

/-- What an event that comes to a node leaves of the events that are being handled. -/
theorem World.events_arrive (h : w.page.events = e :: es) (n : NodeId) (event : String) :
    (w.arrive n event).page.events = { e with current := some n } :: es := by
  simp [arrive, Page.takeListeners, Page.modifyEvent, h]

theorem World.parent_arrive (w : World) (n m : NodeId) (event : String) :
    (w.arrive n event).forest.parent m = w.forest.parent m := by
  unfold arrive forest Page.takeListeners Page.modifyEvent
  split <;> exact Forest.parent_modify_listeners ..

theorem World.listeners_arrive (w : World) (n m : NodeId) (event : String) :
    (w.arrive n event).forest.listeners m = if m = n then
      (w.forest.listeners n).filter fun l => !(l.once && l.event == event)
    else w.forest.listeners m := by
  unfold arrive forest Page.takeListeners Page.modifyEvent
  split <;> exact Forest.listeners_filter_listeners ..

namespace Run

open Activity

/-! ### Invocations -/

/-- A listener that is invoked, with the world before it, and the world after it if it comes to an
end. -/
structure Invocation where
  listener : Listener
  before : World
  after : Option World

/-- A node that an event comes to, and the listeners that it invokes there. -/
structure Visit where
  node : NodeId
  invocations : List Invocation

/-- The invocations of listeners, one after the other. -/
def invocations (run : Runner) : List Listener → World → List Invocation
  | [], _ => []
  | l :: ls, w =>
    match run (.routine l.handler) w with
    | some ((), v) => ⟨l, w, some v⟩ :: invocations run ls v
    | none => [⟨l, w, none⟩]

/-- The way of the event that is being handled, from a node on. -/
def visits : ℕ → NodeId → World → List Visit
  | 0, _, _ => []
  | fuel + 1, n, w =>
    match w.page.events with
    | [] => []
    | e :: _ =>
      let ls := w.page.listenersFor n e.event
      ⟨n, invocations (Run.run fuel) ls (w.arrive n e.event)⟩ ::
        match handlers (Run.run fuel) ls (w.arrive n e.event) with
        | none => []
        | some ((), v) =>
          if isStopped v then []
          else
            match v.forest.parent n with
            | some p => visits fuel p v
            | none => []

/-- An invocation that comes to an end and leaves the parents and listeners of all nodes as they
are. -/
def Invocation.Spares (i : Invocation) : Prop :=
  ∃ v, i.after = some v ∧ i.before.forest.Spared v.forest

/-- Whether the event that is being handled has been stopped when an invocation is over. -/
def Invocation.Stops (i : Invocation) : Prop := ∃ v, i.after = some v ∧ isStopped v = true

/-! ### Listeners of one node -/

/-- What the invocations of listeners come to when each of them comes to an end and spares the
tree. -/
structure Invoked (ls : List Listener) (w v : World) (is : List Invocation) : Prop where
  listeners_eq : is.map Invocation.listener = ls
  spared : w.forest.Spared v.forest
  lasts : w.page.Lasts v.page
  frames_eq : ∀ i ∈ is, i.before.page.frames = w.page.frames
  stopped : isStopped w = false → (isStopped v = true ↔ ∃ i ∈ is, i.Stops)

/-- An event that has been stopped stays so. -/
theorem isStopped_of_lasts (h : w.page.Lasts v.page) (hw : isStopped w = true) :
    isStopped v = true := by
  unfold isStopped at *
  generalize hes : w.page.events = es, hes' : v.page.events = es' at hw
  rw [Page.Lasts, hes, hes'] at h
  cases h with
  | nil => rfl
  | cons h _ => exact h.stopped hw

theorem exists_invoked (hr : run.PutsBack) {ls : List Listener}
    (h : ∀ i ∈ invocations run ls w, i.Spares) :
    ∃ v, handlers run ls w = some ((), v) ∧ Invoked ls w v (invocations run ls w) := by
  induction ls generalizing w with
  | nil =>
    refine ⟨w, rfl, rfl, .refl _, .refl _, fun i hi => (List.not_mem_nil hi).elim, fun hw => ?_⟩
    simp [invocations, hw]
  | cons l ls ih =>
    rw [invocations] at h ⊢
    cases hl : run (.routine l.handler) w with
    | none =>
      obtain ⟨v, hv, -⟩ := h ⟨l, w, none⟩ (by rw [hl]; exact List.mem_cons_self)
      cases hv
    | some result =>
      obtain ⟨⟨⟩, u⟩ := result
      simp only [hl] at h ⊢
      obtain ⟨u', hu', hspared⟩ := h _ List.mem_cons_self
      obtain rfl : u = u' := Option.some.inj hu'
      obtain ⟨v, hv, hrest⟩ := ih fun i hi => h i (List.mem_cons_of_mem _ hi)
      have hlasts : w.page.Lasts u.page := hr (.routine l.handler) w () u hl
      refine ⟨v, by rw [handlers, bind_of_eq_some hl, hv], ?_⟩
      refine ⟨by rw [List.map_cons, hrest.listeners_eq], hspared.trans hrest.spared,
        hlasts.trans hrest.lasts, ?_, fun hw => ?_⟩
      · rintro i (_ | ⟨_, hi⟩)
        · rfl
        · exact (hrest.frames_eq i hi).trans hlasts.frames_eq
      · have hfirst : (⟨l, w, some u⟩ : Invocation).Stops ↔ isStopped u = true :=
          ⟨fun ⟨u', hu', hstop⟩ => Option.some.inj hu' ▸ hstop, fun hstop => ⟨u, rfl, hstop⟩⟩
        simp only [List.mem_cons, or_and_right, exists_or, exists_eq_left, hfirst]
        cases hu : isStopped u with
        | false => simp [hrest.stopped hu]
        | true => simp [isStopped_of_lasts hrest.lasts hu]

/-! ### The ancestors -/

/-- Where an event goes when the listeners of a node have come to an end. -/
def ascend (run : Runner) (n : NodeId) : Activity Unit := fun w =>
  if isStopped w then some ((), w)
  else
    match w.forest.parent n with
    | some p => run (.bubble p) w
    | none => some ((), w)

/-- An event that comes to a node invokes its listeners and goes on to the parent, unless it has
been stopped. -/
theorem bubble_of_events (he : w.page.events = e :: es) :
    bubble run n w = (handlers run (w.page.listenersFor n e.event) >>= fun _ => ascend run n)
      (w.arrive n e.event) := by
  have htake : takeListeners n { w with
      page := w.page.modifyEvent fun e => { e with current := some n } } =
        some (w.page.listenersFor n e.event, w.arrive n e.event) := by
    simp [takeListeners, World.arrive, Page.takeListeners, Page.listenersFor, Page.modifyEvent, he]
  rw [bubble, modify_bind, bind_of_eq_some htake]
  refine congrFun (congrArg (handlers run _ >>= ·) (funext fun _ => funext fun v => ?_)) _
  rw [get_bind, ascend]
  cases isStopped v with
  | true => rfl
  | false => cases v.forest.parent n <;> rfl

/-- The way of an event along the nodes `up`, from a world `w` to the world `v` in which it is over,
while the events in `outer` wait: it goes from the inside out, invokes at each node the listeners of
its type in the order of registration, with this node as the current one, and goes on until it is
stopped or comes to the end. -/
structure InOrder (outer : List Frame) (target : NodeId) (event : String) (up : List NodeId)
    (w v : World) (vs : List Visit) : Prop where
  nodes : vs.map Visit.node <+: up
  listeners_eq : ∀ x ∈ vs, x.invocations.map Invocation.listener =
    w.page.listenersFor x.node event
  frames_eq : ∀ x ∈ vs, ∀ i ∈ x.invocations,
    i.before.page.frames = ⟨event, target, some x.node⟩ :: outer
  ends : ∃ init last, vs = init ++ [last] ∧ (∀ x ∈ init, ∀ i ∈ x.invocations, ¬ i.Stops) ∧
    ((∃ i ∈ last.invocations, i.Stops) ∨ vs.map Visit.node = up)
  parent_eq : ∀ m, v.forest.parent m = w.forest.parent m
  unregistered : ∀ m, v.forest.listeners m = if m ∈ vs.map Visit.node then
      (w.forest.listeners m).filter fun l => !(l.once && l.event == event)
    else w.forest.listeners m

/-- The listeners that are registered when the way is over are those that run more than once or have
not been invoked. -/
theorem InOrder.mem_listeners_iff {outer : List Frame} {up : List NodeId} {vs : List Visit}
    (h : InOrder outer target event up w v vs) {m : NodeId} :
    l ∈ v.forest.listeners m ↔ l ∈ w.forest.listeners m ∧
      ¬ (l.once = true ∧ ∃ x ∈ vs, x.node = m ∧ ∃ i ∈ x.invocations, i.listener = l) := by
  have hinvoked : ∀ x ∈ vs, (∃ i ∈ x.invocations, i.listener = l) ↔
      l ∈ w.forest.listeners x.node ∧ l.event = event := fun x hx => by
    rw [← List.mem_map, h.listeners_eq x hx, Page.listenersFor, List.mem_filter, beq_iff_eq]
    rfl
  rw [h.unregistered]
  split_ifs with hm
  · obtain ⟨x, hx, rfl⟩ := List.mem_map.1 hm
    rw [List.mem_filter]
    refine and_congr_right fun hl => ?_
    have hvisit : (∃ y ∈ vs, y.node = x.node ∧ ∃ i ∈ y.invocations, i.listener = l) ↔
        l.event = event :=
      ⟨fun ⟨y, hy, _, hi⟩ => ((hinvoked y hy).1 hi).2,
        fun he => ⟨x, hx, rfl, (hinvoked x hx).2 ⟨hl, he⟩⟩⟩
    rw [hvisit]
    cases l.once <;> simp
  · refine (and_iff_left ?_).symm
    rintro ⟨-, x, hx, rfl, -⟩
    exact hm (List.mem_map_of_mem hx)

/-- The frames that listeners of a node see. -/
theorem frames_arrive (he : w.page.events = e :: es) (n : NodeId) :
    (w.arrive n e.event).page.frames = ⟨e.event, e.target, some n⟩ :: es.map Event.frame := by
  rw [Page.frames, World.events_arrive he]
  rfl

/-- The way comes to its end at a node whose listeners have stopped the event, or that has no
parent. -/
theorem Invoked.inOrder {is : List Invocation} {up : List NodeId} (he : w.page.events = e :: es)
    (his : Invoked (w.page.listenersFor n e.event) (w.arrive n e.event) v is)
    (hends : (∃ i ∈ is, i.Stops) ∨ up = []) :
    InOrder (es.map Event.frame) e.target e.event (n :: up) w v [⟨n, is⟩] where
  nodes := ⟨up, rfl⟩
  listeners_eq x hx := by
    rw [List.mem_singleton.1 hx]
    exact his.listeners_eq
  frames_eq x hx i hi := by
    rw [List.mem_singleton.1 hx] at hi ⊢
    rw [his.frames_eq i hi, frames_arrive he]
  ends := ⟨[], ⟨n, is⟩, rfl, fun x hx => (List.not_mem_nil hx).elim,
    hends.imp_right fun hup => by rw [hup]; rfl⟩
  parent_eq m := (his.spared.parent_eq m).trans (w.parent_arrive n m _)
  unregistered m := by
    rw [his.spared.listeners_eq, w.listeners_arrive]
    by_cases hm : m = n <;> simp [hm]

/-- The way goes on from a node whose listeners have not stopped the event. -/
theorem Invoked.inOrder_cons {is : List Invocation} {up : List NodeId} {u : World}
    {vs : List Visit} (he : w.page.events = e :: es)
    (his : Invoked (w.page.listenersFor n e.event) (w.arrive n e.event) u is)
    (hgo : ∀ i ∈ is, ¬ i.Stops)
    (hrest : InOrder (es.map Event.frame) e.target e.event up u v vs) (hn : n ∉ up) :
    InOrder (es.map Event.frame) e.target e.event (n :: up) w v (⟨n, is⟩ :: vs) := by
  have hlisteners : ∀ m ∈ up, u.forest.listeners m = w.forest.listeners m := fun m hm => by
    rw [his.spared.listeners_eq, w.listeners_arrive, if_neg fun h : m = n => hn (h ▸ hm)]
  have hnodes : ∀ m ∈ vs.map Visit.node, m ∈ up := fun m hm => hrest.nodes.subset hm
  obtain ⟨init, last, hvs, hinit, hlast⟩ := hrest.ends
  exact {
    nodes := List.cons_prefix_cons.2 ⟨rfl, hrest.nodes⟩
    listeners_eq := fun x hx => by
      rcases List.mem_cons.1 hx with rfl | hx
      · exact his.listeners_eq
      · rw [hrest.listeners_eq x hx]
        exact congrArg (List.filter _) (hlisteners _ (hnodes _ (List.mem_map_of_mem hx)))
    frames_eq := fun x hx i hi => by
      rcases List.mem_cons.1 hx with rfl | hx
      · rw [his.frames_eq i hi, frames_arrive he]
      · exact hrest.frames_eq x hx i hi
    ends := by
      refine ⟨⟨n, is⟩ :: init, last, by rw [hvs, List.cons_append], fun x hx => ?_, ?_⟩
      · rcases List.mem_cons.1 hx with rfl | hx
        · exact hgo
        · exact hinit x hx
      · exact hlast.imp_right fun h => by rw [List.map_cons, h]
    parent_eq := fun m => (hrest.parent_eq m).trans
      ((his.spared.parent_eq m).trans (w.parent_arrive n m _))
    unregistered := fun m => by
      rw [hrest.unregistered, his.spared.listeners_eq, w.listeners_arrive, List.map_cons]
      by_cases hm : m = n
      · have hout : m ∉ vs.map Visit.node := fun h => hn (hm ▸ hnodes m h)
        rw [if_neg hout, if_pos hm, if_pos (hm ▸ List.mem_cons_self), hm]
      · simp only [List.mem_cons, hm, false_or, if_false] }

/-- The event that is being handled goes on being handled. -/
theorem exists_events_of_lasts (h : w.page.Lasts v.page) (he : w.page.events = e :: es) :
    ∃ e' es', v.page.events = e' :: es' ∧ e.Lasts e' ∧
      es'.map Event.frame = es.map Event.frame := by
  have hframes := h.frames_eq
  rw [Page.Lasts, he] at h
  obtain ⟨e', es', hlasts, -, hes'⟩ := List.forall₂_cons_left_iff.1 h
  rw [Page.frames, Page.frames, hes', he, List.map_cons, List.map_cons] at hframes
  exact ⟨e', es', hes', hlasts, (List.cons.inj hframes).2⟩

/-- If every listener on the way comes to an end and spares the tree, then so does the walk. -/
theorem exists_inOrder_from (he : w.page.events = e :: es) (hw : isStopped w = false)
    (hnodup : (w.forest.lineage fuel n).Nodup)
    (htop : ∃ top ∈ w.forest.lineage fuel n, w.forest.parent top = none)
    (hspares : ∀ x ∈ visits fuel n w, ∀ i ∈ x.invocations, i.Spares) :
    ∃ v, Run.run fuel (.bubble n) w = some ((), v) ∧
      InOrder (es.map Event.frame) e.target e.event (w.forest.lineage fuel n) w v
        (visits fuel n w) := by
  induction fuel generalizing w n e es with
  | zero =>
    obtain ⟨top, hm, -⟩ := htop
    cases hm
  | succ fuel ih =>
    have harrive : isStopped (w.arrive n e.event) = false := by
      rw [isStopped, he] at hw
      rw [isStopped, World.events_arrive he]
      exact hw
    rw [visits, he] at hspares ⊢
    obtain ⟨u, hu, his⟩ := exists_invoked (putsBack_run fuel) (hspares _ List.mem_cons_self)
    have hrun : Run.run (fuel + 1) (.bubble n) w = ascend (Run.run fuel) n u :=
      (bubble_of_events he).trans (bind_of_eq_some hu)
    rw [hrun, ascend]
    have hparents : ∀ m, u.forest.parent m = w.forest.parent m := fun m =>
      (his.spared.parent_eq m).trans (w.parent_arrive n m _)
    simp only [hu] at hspares ⊢
    rw [Forest.lineage] at hnodup htop ⊢
    cases hstop : isStopped u with
    | true =>
      simp only [if_true]
      refine ⟨u, rfl, ?_⟩
      exact his.inOrder he (.inl ((his.stopped harrive).1 hstop))
    | false =>
      have hgo : ∀ i ∈ invocations (Run.run fuel) (w.page.listenersFor n e.event)
          (w.arrive n e.event), ¬ i.Stops := fun i hi hstops => by
        rw [(his.stopped harrive).2 ⟨i, hi, hstops⟩] at hstop
        cases hstop
      simp only [hstop, Bool.false_eq_true, if_false, hparents] at hspares ⊢
      cases hp : w.forest.parent n with
      | none => exact ⟨u, rfl, his.inOrder he (.inr rfl)⟩
      | some p =>
        rw [hp] at hnodup htop hspares
        obtain ⟨hn, hnodup⟩ := List.nodup_cons.1 hnodup
        have hlineage : u.forest.lineage fuel p = w.forest.lineage fuel p :=
          Forest.lineage_congr hparents _ p
        obtain ⟨e', es', he', hlasts, houter⟩ := exists_events_of_lasts his.lasts
          (World.events_arrive he n e.event)
        have hevent : e'.event = e.event := congrArg Frame.event hlasts.frame_eq
        have htarget : e'.target = e.target := congrArg Frame.target hlasts.frame_eq
        have hup : ∃ top ∈ u.forest.lineage fuel p, u.forest.parent top = none := by
          obtain ⟨top, hm, htop⟩ := htop
          rcases List.mem_cons.1 hm with rfl | hm
          · rw [hp] at htop
            cases htop
          · exact ⟨top, hlineage ▸ hm, (hparents top).trans htop⟩
        obtain ⟨v, hv, hrest⟩ := ih he' hstop (hlineage ▸ hnodup) hup fun x hx =>
          hspares x (List.mem_cons_of_mem _ hx)
        rw [hevent, htarget, houter, hlineage] at hrest
        exact ⟨v, hv, his.inOrder_cons he hgo hrest hn⟩

/-- If every listener on the way comes to an end and spares the tree, then a dispatch comes to an
end, and its event has gone from its target through the ancestors in order; it has no current node
any more, and the events that were being handled before are being handled again. -/
theorem exists_inOrder (hf : w.forest.Sound)
    (hfuel : (w.forest.ancestors target).length ≤ fuel)
    (hspares : ∀ x ∈ visits fuel target (w.handle event target), ∀ i ∈ x.invocations, i.Spares) :
    ∃ e v, dispatch (Run.run fuel) target event w = some (.event (v.page.report e), v) ∧
      e.frame = ⟨event, target, none⟩ ∧ w.page.Lasts v.page ∧
      InOrder w.page.frames target event (w.forest.ancestors target) w v
        (visits fuel target (w.handle event target)) := by
  have htop := hf.exists_top target
  have hup : w.forest.lineage fuel target = w.forest.ancestors target :=
    Forest.Sound.lineage_of_top htop hfuel
  have hnodup : (w.forest.lineage fuel target).Nodup := hf.nodup_lineage fuel target
  obtain ⟨v, hv, horder⟩ := exists_inOrder_from (w := w.handle event target) (n := target) rfl rfl
    hnodup (hup ▸ htop) hspares
  obtain ⟨e', es', hes, hlasts, houter⟩ :=
    (putsBack_run fuel (.bubble target) _ () v hv).exists_of_uncalled rfl
  refine ⟨{ e' with current := none }, { v with page := { v.page with events := es' } }, ?_,
    hlasts.frame_eq, houter, ?_⟩
  · have hhandling : handling event target (Run.run fuel (.bubble target)) w =
        some ({ e' with current := none }, { v with page := { v.page with events := es' } }) := by
      rw [handling, modify_bind]
      refine (bind_of_eq_some hv).trans ?_
      simp only [hes]
    rw [dispatch, bind_of_eq_some hhandling]
    rfl
  · exact ⟨hup ▸ horder.nodes, horder.listeners_eq, horder.frames_eq, hup ▸ horder.ends,
      horder.parent_eq, horder.unregistered⟩

end Run

end LiveMarkup
