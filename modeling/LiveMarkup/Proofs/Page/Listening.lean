import LiveMarkup.Proofs.Forest.Listeners
import LiveMarkup.Proofs.Page.Sealed

/-!
# Listeners and events of a page

Of the commands on a page only one changes the listeners of a node, the one that removes a listener
(`PageAction.tends_ofCommand`, `PageAction.on_unlisten`).  None of them begins or ends the handling
of an event: what they can do to the event that is being handled is to stop it or to prevent what it
does by default (`PageAction.lasts_ofCommand`).
-/

namespace LiveMarkup

/-- What no handler can change of an event that is being handled. -/
structure Frame where
  event : String
  target : NodeId
  current : Option NodeId

/-- The frame of an event. -/
def Event.frame (e : Event) : Frame := ⟨e.event, e.target, e.current⟩

/-- What a handler can make of an event that is being handled: its frame stays, and it is still
stopped if it was. -/
structure Event.Lasts (e e' : Event) : Prop where
  frame_eq : e'.frame = e.frame
  stopped : e.stopped = true → e'.stopped = true

theorem Event.Lasts.refl (e : Event) : e.Lasts e := ⟨rfl, id⟩

theorem Event.Lasts.trans {e e' e'' : Event} (h : e.Lasts e') (h' : e'.Lasts e'') : e.Lasts e'' :=
  ⟨h'.frame_eq.trans h.frame_eq, h'.stopped ∘ h.stopped⟩

namespace Page

variable {p q r : Page}

/-- The frames of the events that are being handled, the innermost first. -/
def frames (p : Page) : List Frame := p.events.map Event.frame

/-- Whether the events that were being handled are being handled still. -/
def Lasts (p q : Page) : Prop := List.Forall₂ Event.Lasts p.events q.events

theorem Lasts.of_eq (h : q.events = p.events) : Lasts p q := by
  rw [Lasts, h]
  exact List.forall₂_same.2 fun e _ => Event.Lasts.refl e

theorem Lasts.refl (p : Page) : Lasts p p := .of_eq rfl

theorem Lasts.trans (hpq : Lasts p q) (hqr : Lasts q r) : Lasts p r := by
  unfold Lasts at hpq hqr ⊢
  generalize p.events = es, q.events = es', r.events = es'' at hpq hqr ⊢
  induction hpq generalizing es'' with
  | nil => exact hqr
  | cons h _ ih =>
    cases hqr with
    | cons h' hrest => exact .cons (h.trans h') (ih _ hrest)

theorem Lasts.frames_eq (h : Lasts p q) : q.frames = p.frames := by
  unfold Lasts at h
  unfold frames
  generalize p.events = es, q.events = es' at h ⊢
  induction h with
  | nil => rfl
  | cons h _ ih => rw [List.map_cons, List.map_cons, ih, h.frame_eq]

theorem lasts_modifyEvent (p : Page) {change : Event → Event}
    (h : ∀ e : Event, e.Lasts (change e)) : Lasts p (p.modifyEvent change) := by
  unfold modifyEvent
  split
  · exact .refl p
  · next e es hes =>
    rw [Lasts, hes]
    exact .cons (h e) (List.forall₂_same.2 fun e _ => Event.Lasts.refl e)

/-- A change of a page that leaves all listeners as they are, and the events as far as it must. -/
structure Tends (p q : Page) : Prop where
  listeners_eq (n : NodeId) : q.forest.listeners n = p.forest.listeners n
  nextListener_eq : q.nextListener = p.nextListener
  lasts : p.Lasts q

theorem Tends.refl (p : Page) : Tends p p := ⟨fun _ => rfl, rfl, .refl p⟩

theorem Tends.trans (hpq : Tends p q) (hqr : Tends q r) : Tends p r :=
  ⟨fun n => (hqr.listeners_eq n).trans (hpq.listeners_eq n),
    hqr.nextListener_eq.trans hpq.nextListener_eq, hpq.lasts.trans hqr.lasts⟩

/-- A change of a page that has to do with neither listeners nor events. -/
theorem Tends.of_eq (hforest : ∀ n, q.forest.listeners n = p.forest.listeners n)
    (hnext : q.nextListener = p.nextListener) (hevents : q.events = p.events) : Tends p q :=
  ⟨hforest, hnext, .of_eq hevents⟩

theorem tends_modifyEvent (p : Page) {change : Event → Event}
    (h : ∀ e : Event, e.Lasts (change e)) : Tends p (p.modifyEvent change) := by
  refine ⟨fun n => ?_, ?_, p.lasts_modifyEvent h⟩ <;> (unfold modifyEvent; split <;> rfl)

/-- Operations on nodes, and nothing else. -/
theorem Tends.of_changes (hforest : Forest.Changes (fun _ => True) p.forest q.forest)
    (hnext : q.nextListener = p.nextListener) (hevents : q.events = p.events) : Tends p q :=
  .of_eq (Forest.listeners_of_changes hforest) hnext hevents

theorem tends_save (p : Page) (m : Mount) : Tends p (p.save m).2 :=
  .of_changes (.save .refl m) rfl rfl

theorem tends_bindEach (p : Page) (names : List String) (ns : List NodeId) :
    Tends p (PageAction.bindEach p names ns) := by
  induction names generalizing p ns with
  | nil => exact .refl p
  | cons name names ih =>
    cases ns with
    | nil => exact .refl p
    | cons n ns =>
      have hbind : Tends p (p.bind name n) := .of_eq (fun _ => rfl) rfl rfl
      exact hbind.trans (ih (p.bind name n) ns)

end Page

namespace PageAction

variable {α β : Type} {action : PageAction α} {next : α → PageAction β}

/-- Whatever comes of an action, it leaves all listeners as they are, and the events as far as it
must. -/
def Tends (action : PageAction α) : Prop := ∀ p : Page, p.Tends (action.on p).2

namespace Tends

theorem pure (a : α) : Tends (Pure.pure a) := Page.Tends.refl

theorem throw (failure : Failure) : Tends (MonadExcept.throw failure : PageAction α) :=
  Page.Tends.refl

theorem bind (h : Tends action) (hnext : ∀ a, Tends (next a)) : Tends (action >>= next) := by
  intro p
  have hp := h p
  rw [on_bind]
  split
  · next a q heq =>
    rw [heq] at hp
    exact hp.trans (hnext a q)
  · next failure q heq =>
    rw [heq] at hp
    exact hp

theorem get_bind {next : Page → PageAction β} (hnext : ∀ p, Tends (next p)) :
    Tends (get >>= next) := fun p => hnext p p

theorem modify_bind {change : Page → Page} {next : PUnit → PageAction β}
    (hchange : ∀ p, Page.Tends p (change p)) (hnext : Tends (next ⟨⟩)) :
    Tends (modify change >>= next) := fun p => (hchange p).trans (hnext (change p))

/-- A change at the end of an action. -/
theorem modify_pure {change : Page → Page} (hchange : ∀ p, Page.Tends p (change p)) {b : β} :
    Tends (modify change >>= fun _ => Pure.pure b) :=
  modify_bind hchange (pure b)

/-- An action that leaves the page as it is. -/
theorem of_on (h : ∀ p, ∃ outcome, action.on p = (outcome, p)) : Tends action := fun p => by
  obtain ⟨outcome, hon⟩ := h p
  rw [hon]
  exact .refl p

theorem edit {operation : Forest → Edit α}
    (h : ∀ f, Forest.Changes (fun _ => True) f (operation f).2) : Tends (edit operation) :=
  fun p => by
    rw [on_edit]
    exact .of_changes (h p.forest) rfl rfl

theorem node (name : String) : Tends (node name) := .of_on fun p => ⟨_, on_node p name⟩

theorem nodes (names : List String) : Tends (nodes names) :=
  .of_on fun p => (on_nodes p names).imp fun _ h => h.1

theorem nodeIf (name : Option String) : Tends (nodeIf name) := by
  cases name with
  | none => exact .pure none
  | some name =>
    rw [PageAction.nodeIf, map_eq_pure_bind]
    exact (node name).bind fun n => .pure (some n)

theorem mount (name : Option String) : Tends (mount name) := by
  cases name with
  | some name =>
    refine get_bind fun p => ?_
    split
    · exact .pure _
    · exact .throw _
  | none =>
    refine get_bind fun p => ?_
    split
    · exact .pure _
    · exact .throw _

theorem found (as : Option String) (o : Option NodeId) : Tends (found as o) := by
  cases o with
  | none => exact .pure _
  | some n =>
    refine .modify_bind (fun p => ?_) (.get_bind fun p => .pure _)
    exact .of_eq (fun _ => rfl) rfl rfl

theorem create (as : String) (k : Kind) (s : String) : Tends (create as k s) := by
  refine .modify_pure fun p => ?_
  exact .of_eq (fun _ => Forest.listeners_create p.forest k s) rfl rfl

theorem onEvent (c : EventCommand) : Tends (onEvent c) := by
  cases c with
  | stop =>
    refine .modify_pure fun p => ?_
    exact p.tends_modifyEvent fun _ => ⟨rfl, fun _ => rfl⟩
  | prevent =>
    refine .modify_pure fun p => ?_
    exact p.tends_modifyEvent fun _ => ⟨rfl, id⟩
  | info | describe =>
    refine get_bind fun p => ?_
    split
    · exact .pure _
    · exact .throw _

theorem setDocument (source : DocumentSource) : Tends (setDocument source) := fun _ =>
  .of_changes (.plant .refl _) rfl rfl

theorem mountFrom (source container defaultClass : Option String) (as : String) :
    Tends (mountFrom source container defaultClass as) := by
  have hmount (container defaultClass : Option String) :
      Tends (PageAction.mountFrom none container defaultClass as) := by
    simp only [PageAction.mountFrom, pure_bind]
    refine get_bind fun p => ?_
    split
    · refine .modify_pure fun p => ?_
      exact .of_eq (fun _ => rfl) rfl rfl
    · exact .throw _
  cases source with
  | none => exact hmount container defaultClass
  | some source =>
    cases hs : Settings.ofToml? source with
    | none =>
      unfold PageAction.mountFrom
      simp only [hs]
      exact .throw _
    | some settings => exact Keeps.mountFrom_some hs container defaultClass as ▸ hmount _ _

end Tends

/-- No command on a page changes listeners, but for the one that removes a listener. -/
theorem tends_ofCommand (c : PageCommand) (hc : ∀ of id, c ≠ .unlisten of id) :
    Tends (ofCommand c) := by
  cases c with
  | unlisten of id => exact absurd rfl (hc of id)
  | element _ as | text _ as | comment _ as | fragment as | attr _ _ as => exact .create as _ _
  | parse markup as brief =>
    refine .modify_pure fun p => ?_
    exact .of_changes (.plantFragment .refl _) rfl rfl
  | escape | isVoid | selector | coalesce => exact .pure _
  | queryAll | describeDocument => exact .get_bind fun p => .pure _
  | markup | rows | describe | info | getAttr | listenerCount | selects =>
    exact .bind (.node _) fun n => .get_bind fun p => .pure _
  | navigate of relation as =>
    exact .bind (.node of) fun n => .get_bind fun p => .found as _
  | contains of other =>
    exact .bind (.node of) fun n => .bind (.node other) fun m => .get_bind fun p => .pure _
  | same a b => exact .bind (.node a) fun n => .bind (.node b) fun m => .pure _
  | weaken of as =>
    refine .bind (.node of) fun n => .modify_pure fun p => ?_
    exact .of_eq (fun _ => rfl) rfl rfl
  | upgrade weak as =>
    refine .get_bind fun p => ?_
    split
    · exact .found as _
    · exact .throw _
  | append parent name =>
    exact .bind (.node parent) fun n => .bind (.node name) fun m =>
      .bind (.edit fun f => .append .refl n m) fun _ => .pure _
  | insertBefore parent name reference =>
    exact .bind (.node parent) fun n => .bind (.node name) fun m =>
      .bind (.nodeIf reference) fun r =>
        .bind (.edit fun f => .insertBefore .refl n m r) fun _ => .pure _
  | removeChild of name =>
    exact .bind (.node of) fun n => .bind (.node name) fun m =>
      .bind (.edit fun f => .removeChild .refl n m) fun _ => .pure _
  | remove name =>
    exact .bind (.node name) fun n => .bind (.edit fun f => .remove .refl n) fun _ => .pure _
  | replaceWith name others =>
    exact .bind (.node name) fun n => .bind (.nodes others) fun ms =>
      .bind (.edit fun f => .replaceWith .refl n ms) fun _ => .pure _
  | normalize of =>
    exact .bind (.node of) fun n =>
      .bind (.edit fun f => .normalize .refl trivial n) fun _ => .pure _
  | clone of deep as =>
    refine .bind (.node of) fun n => .modify_pure fun p => ?_
    exact .of_changes (.copy .refl n deep) rfl rfl
  | setData of data =>
    exact .bind (.node of) fun n =>
      .bind (.edit fun f => .setData .refl (fun _ => trivial) data) fun _ => .pure _
  | setValue of value =>
    exact .bind (.node of) fun n =>
      .bind (.edit fun f => .setValue .refl (fun _ => trivial) value) fun _ => .pure _
  | takeChildren of as =>
    exact .bind (.node of) fun n => .bind (.edit fun f => .takeChildren .refl n) fun taken =>
      .modify_bind (fun p => p.tends_bindEach as taken) (.get_bind fun p => .pure _)
  | setAttr of name value =>
    exact .bind (.node of) fun n =>
      .bind (.edit fun f => .setAttr .refl (fun _ _ => trivial) name value) fun _ => .pure _
  | removeAttr of name as =>
    exact .bind (.node of) fun n => .bind (.edit fun f => .removeAttr .refl n name)
      (.found as)
  | attrNode of name as =>
    exact .bind (.node of) fun n => .get_bind fun p => .found as _
  | setAttrNode of attr as =>
    exact .bind (.node of) fun n => .bind (.node attr) fun a =>
      .bind (.edit fun f => .setAttrNode .refl n a) (.found as)
  | removeAttrNode of attr =>
    exact .bind (.node of) fun n => .bind (.node attr) fun a =>
      .bind (.edit fun f => .removeAttrNode .refl n a) fun _ => .pure _
  | setClass of name =>
    exact .bind (.node of) fun n =>
      .bind (.edit fun f => .setAttr .refl (fun _ _ => trivial) _ name) fun _ => .pure _
  | event command => exact .onEvent command
  | setDocument source => exact .setDocument source
  | body as => exact .get_bind fun p => .found as _
  | query selector as => exact .get_bind fun p => .found as _
  | captured slot as => exact .get_bind fun p => .found as _
  | pathTo target root attr =>
    refine .bind (.node target) fun n => .bind (.node root) fun r => .get_bind fun p => ?_
    split
    · exact .pure _
    · exact .throw _
  | descend root paths =>
    refine .bind (.node root) fun r => .get_bind fun p => ?_
    split
    · exact .pure _
    · exact .throw _
  | mountNew container as =>
    refine .bind (.node container) fun n => .modify_pure fun p => ?_
    exact .of_eq (fun _ => rfl) rfl rfl
  | mountFrom source container defaultClass as => exact .mountFrom source container defaultClass as
  | describeMount name => exact .bind (.mount _) fun m => .get_bind fun p => .pure _
  | save name as =>
    refine .bind (.mount name) fun m p => ?_
    exact (p.tends_save m).trans (.of_eq (fun _ => rfl) rfl rfl)
  | settings source =>
    rw [ofCommand]
    split
    · exact .pure _
    · exact .throw _

/-- The command that removes a listener takes it from the node that it names, and replies whether
it was there. -/
theorem on_unlisten (p : Page) (of id : String) :
    (ofCommand (.unlisten of id)).on p =
      match p.nodes.get? of with
      | some n =>
        match p.listeners.get? id with
        | some l => (.ok (.flag (p.unlisten n l).1), (p.unlisten n l).2)
        | none => (.error (.unbound id), p)
      | none => (.error (.unbound of), p) := by
  rw [ofCommand, on_bind, on_node]
  cases p.nodes.get? of with
  | none => rfl
  | some n =>
    refine Eq.trans (b := PageAction.on (match p.listeners.get? id with
      | some l => _
      | none => _) p) rfl ?_
    cases p.listeners.get? id <;> rfl

/-- After any command on a page the events that were being handled are being handled still. -/
theorem lasts_ofCommand (c : PageCommand) (p : Page) : p.Lasts ((ofCommand c).on p).2 := by
  by_cases hc : ∀ of id, c ≠ .unlisten of id
  · exact (tends_ofCommand c hc p).lasts
  · push Not at hc
    obtain ⟨of, id, rfl⟩ := hc
    rw [on_unlisten]
    split
    · split <;> exact .of_eq rfl
    · exact .of_eq rfl

end PageAction

end LiveMarkup
