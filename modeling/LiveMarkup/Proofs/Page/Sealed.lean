import LiveMarkup.Page.Command
import LiveMarkup.Proofs.Forest.Sealed
import LiveMarkup.Proofs.Script.Names

/-!
# Pages that keep nodes sealed off

A page keeps nodes sealed off if neither its names, slots and mounts nor the events that are being
handled lead to one of them (`Page.Sealed`).  Commands on pages get at nodes by names, and from
there along links, so they leave sealed nodes alone (`PageAction.keeps_ofCommand`).
-/

namespace LiveMarkup

/-! ### Tables -/

namespace Table

variable {α : Type} {t : Table α} {P Q : α → Prop} {a : α}

/-- All objects that are bound to names have a property. -/
def All (t : Table α) (P : α → Prop) : Prop := ∀ e ∈ t, P e.2

theorem All.mono (h : t.All P) (hPQ : ∀ a, P a → Q a) : t.All Q := fun e he => hPQ _ (h e he)

theorem All.get? (h : t.All P) {name : String} (ha : t.get? name = some a) : P a :=
  h _ (mem_of_lookup ha)

theorem All.unbind (h : t.All P) (name : String) : (t.unbind name).All P :=
  fun e he => h e (List.mem_of_mem_filter he)

theorem All.bind (h : t.All P) (name : String) (ha : P a) : (t.bind name a).All P :=
  List.forall_mem_cons.2 ⟨ha, h.unbind name⟩

theorem All.bindTo (h : t.All P) (name : Option String) (ha : P a) : (t.bindTo name a).All P := by
  cases name with
  | none => exact h
  | some name => exact h.bind name ha

end Table

/-! ### Pages -/

variable {S : Set NodeId} {p q r : Page} {n m : NodeId} {α β : Type}

/-- An event leads to nodes outside only. -/
structure Event.Open (f : Forest) (S : Set NodeId) (e : Event) : Prop where
  target : f.Open S e.target
  current {n : NodeId} : e.current = some n → f.Open S n

/-- The sealed nodes of a page are sealed off, and the page leads to none of them. -/
structure Page.Sealed (p : Page) (S : Set NodeId) : Prop where
  forest : p.forest.Sealed S
  body : p.forest.Open S p.body
  nodes : p.nodes.All (p.forest.Open S)
  weak : p.weak.All (p.forest.Open S)
  slots : p.slots.All (p.forest.Open S)
  mounts : p.mounts.All fun m => p.forest.Open S m.container
  events : ∀ e ∈ p.events, e.Open p.forest S

/-- A change of a page that leaves the sealed nodes as they are, and sealed off. -/
structure Page.Avoids (S : Set NodeId) (p q : Page) : Prop where
  seals : q.Sealed S
  forest : Forest.Avoids S p.forest q.forest

namespace Page

theorem Avoids.trans (hpq : Avoids S p q) (hqr : Avoids S q r) : Avoids S p r :=
  ⟨hqr.seals, hpq.forest.trans hqr.forest⟩

/-- The listeners' names and numbers and the list of what has been released lead to no nodes. -/
theorem Avoids.setRest (h : Avoids S p q) (listeners : Table ℕ) (nextListener : ℕ)
    (gone : List NodeId) : Avoids S p { q with
      listeners := listeners, nextListener := nextListener, gone := gone } :=
  ⟨⟨h.seals.forest, h.seals.body, h.seals.nodes, h.seals.weak, h.seals.slots, h.seals.mounts,
    h.seals.events⟩, h.forest⟩

namespace Sealed

variable (hp : p.Sealed S)

include hp

theorem refl : Avoids S p p := ⟨hp, hp.forest.refl⟩

/-- Another forest, in which whatever was outside is outside what is sealed off there. -/
theorem transfer {T : Set NodeId} {f : Forest} (hf : f.Sealed T)
    (hopen : ∀ n, p.forest.Open S n → f.Open T n) : ({ p with forest := f } : Page).Sealed T :=
  ⟨hf, hopen _ hp.body, hp.nodes.mono hopen, hp.weak.mono hopen, hp.slots.mono hopen,
    hp.mounts.mono fun _ => hopen _, fun e he =>
      ⟨hopen _ (hp.events e he).target, fun hn => hopen _ ((hp.events e he).current hn)⟩⟩

theorem setForest {f : Forest} (hf : Forest.Avoids S p.forest f) :
    Avoids S p { p with forest := f } :=
  ⟨hp.transfer hf.seals fun _ => hf.open_mono, hf⟩

theorem bindTo (name : Option String) (hn : p.forest.Open S n) : Avoids S p (p.bindTo name n) :=
  ⟨⟨hp.forest, hp.body, hp.nodes.bindTo name hn, hp.weak, hp.slots, hp.mounts, hp.events⟩,
    hp.forest.refl⟩

theorem unbind (name : String) : Avoids S p { p with nodes := p.nodes.unbind name } :=
  ⟨⟨hp.forest, hp.body, hp.nodes.unbind name, hp.weak, hp.slots, hp.mounts, hp.events⟩,
    hp.forest.refl⟩

theorem bindWeak (name : String) (hn : p.forest.Open S n) :
    Avoids S p { p with weak := p.weak.bind name n } :=
  ⟨⟨hp.forest, hp.body, hp.nodes, hp.weak.bind name hn, hp.slots, hp.mounts, hp.events⟩,
    hp.forest.refl⟩

theorem bindSlot (name : String) (hn : p.forest.Open S n) :
    Avoids S p { p with slots := p.slots.bind name n } :=
  ⟨⟨hp.forest, hp.body, hp.nodes, hp.weak, hp.slots.bind name hn, hp.mounts, hp.events⟩,
    hp.forest.refl⟩

theorem bindMount (name : String) {m : Mount} (hm : p.forest.Open S m.container) :
    Avoids S p { p with mounts := p.mounts.bind name m } :=
  ⟨⟨hp.forest, hp.body, hp.nodes, hp.weak, hp.slots, hp.mounts.bind name hm, hp.events⟩,
    hp.forest.refl⟩

theorem setBody (hn : p.forest.Open S n) : Avoids S p { p with body := n } :=
  ⟨⟨hp.forest, hn, hp.nodes, hp.weak, hp.slots, hp.mounts, hp.events⟩, hp.forest.refl⟩

theorem setEvents {es : List Event} (hes : ∀ e ∈ es, e.Open p.forest S) :
    Avoids S p { p with events := es } :=
  ⟨⟨hp.forest, hp.body, hp.nodes, hp.weak, hp.slots, hp.mounts, hes⟩, hp.forest.refl⟩

theorem modifyEvent {change : Event → Event}
    (h : ∀ e, e.Open p.forest S → (change e).Open p.forest S) :
    Avoids S p (p.modifyEvent change) := by
  unfold Page.modifyEvent
  split
  · exact hp.refl
  · next e es hes =>
    obtain ⟨he, hrest⟩ := List.forall_mem_cons.1 (hes ▸ hp.events)
    exact hp.setEvents (List.forall_mem_cons.2 ⟨h e he, hrest⟩)

theorem bindEach (names : List String) {ns : List NodeId} (hns : ∀ n ∈ ns, p.forest.Open S n) :
    Avoids S p (PageAction.bindEach p names ns) := by
  induction names generalizing p ns with
  | nil => exact hp.refl
  | cons name names ih =>
    cases ns with
    | nil => exact hp.refl
    | cons n ns =>
      obtain ⟨hn, hns⟩ := List.forall_mem_cons.1 hns
      have hfirst := hp.bindTo (some name) hn
      exact hfirst.trans (ih hfirst.seals hns)

theorem mountFor {settings : Settings} {m : Mount} (hm : p.mountFor settings = .ok m) :
    p.forest.Open S m.container := by
  unfold Page.mountFor at hm
  split at hm
  · next n hn =>
    obtain rfl := Except.ok.inj hm
    exact hp.forest.select? hp.body hn
  · cases hm

/-- A change of the listeners of a node. -/
theorem modifyListeners (hn : n ∉ S) (change : List Listener → List Listener) :
    Avoids S p { p with
      forest := p.forest.modify n fun c => { c with listeners := change c.listeners } } :=
  hp.setForest (.modify hp.forest hn fun h => ⟨h.parent, h.children, h.attributes⟩)

theorem listen (hn : n ∉ S) (event : String) (handler : ℕ) (once : Bool) :
    Avoids S p (p.listen n event handler once).2 := by
  have hset := hp.modifyListeners hn fun ls => ls ++ [⟨p.nextListener, event, once, handler⟩]
  exact hset.setRest p.listeners (p.nextListener + 1) p.gone

end Sealed

theorem avoids_appendAll {f : Forest} {ns : List NodeId} (hf : f.Sealed S) (hn : f.Open S n)
    (hns : ∀ m ∈ ns, f.Open S m) : Forest.Avoids S f (appendAll f n ns) := by
  induction ns generalizing f with
  | nil => exact hf.refl
  | cons m ns ih =>
    obtain ⟨hm, hns⟩ := List.forall_mem_cons.1 hns
    have hfirst := Forest.Avoids.append hf hn hm
    exact hfirst.trans (ih hfirst.seals (hfirst.open_mono hn) (hfirst.all_mono hns))

theorem Sealed.save (hp : p.Sealed S) {m : Mount} (hm : p.forest.Open S m.container) :
    Avoids S p (p.save m).2 ∧ (p.save m).2.forest.Open S (p.save m).1 := by
  have hnew := Forest.Avoids.create hp.forest .fragment ""
  have hn := Forest.Avoids.open_create hp.forest .fragment ""
  have hm' := hnew.open_mono hm
  have htake := Forest.Avoids.takeChildren hnew.seals hm'.not_mem
  have hall := avoids_appendAll htake.seals (htake.open_mono hn)
    (htake.all_mono fun k hk => hnew.seals.child hm'.not_mem hk)
  exact ⟨hp.setForest (hnew.trans (htake.trans hall)), hall.open_mono (htake.open_mono hn)⟩

end Page

/-! ### Actions -/

namespace PageAction

/-- Whatever comes of an action on a page, it leaves the sealed nodes as they are, and sealed
off. -/
def Keeps (S : Set NodeId) (p : Page) (action : PageAction α) : Prop :=
  Page.Avoids S p (action.on p).2

theorem on_bind (action : PageAction α) (next : α → PageAction β) (p : Page) :
    (action >>= next).on p =
      match action.on p with
      | (.ok a, q) => (next a).on q
      | (.error failure, q) => (.error failure, q) := by
  simp only [on, ExceptT.run_bind, StateT.run_bind]
  rcases action.run.run p with ⟨_ | _, q⟩ <;> rfl

namespace Keeps

variable {action : PageAction α} {next : α → PageAction β}

theorem pure (hp : p.Sealed S) {a : α} : Keeps S p (Pure.pure a) := hp.refl

theorem throw (hp : p.Sealed S) {failure : Failure} :
    Keeps S p (MonadExcept.throw failure : PageAction α) := hp.refl

theorem bind (h : Keeps S p action)
    (hnext : ∀ a, (action.on p).1 = .ok a → Keeps S (action.on p).2 (next a)) :
    Keeps S p (action >>= next) := by
  unfold Keeps at *
  rw [on_bind]
  split
  · next a q heq =>
    rw [heq] at h hnext
    exact h.trans (hnext a rfl)
  · next failure q heq =>
    rw [heq] at h
    exact h

theorem get_bind {next : Page → PageAction β} (hnext : Keeps S p (next p)) :
    Keeps S p (get >>= next) := hnext

theorem modify_bind {change : Page → Page} {next : PUnit → PageAction β}
    (hchange : Page.Avoids S p (change p)) (hnext : Keeps S (change p) (next ⟨⟩)) :
    Keeps S p (modify change >>= next) := hchange.trans hnext

/-- A change at the end of an action. -/
theorem modify_pure {change : Page → Page} (hchange : Page.Avoids S p (change p)) {b : β} :
    Keeps S p (modify change >>= fun _ => Pure.pure b) :=
  modify_bind hchange (pure hchange.seals)

theorem set_bind {next : PUnit → PageAction β} (hset : Page.Avoids S p q)
    (hnext : Keeps S q (next ⟨⟩)) : Keeps S p (set q >>= next) := hset.trans hnext

/-- An action that only looks at the page. -/
theorem bind_of_on (hp : p.Sealed S) {outcome : Except Failure α}
    (hon : action.on p = (outcome, p)) (hnext : ∀ a, outcome = .ok a → Keeps S p (next a)) :
    Keeps S p (action >>= next) := by
  refine bind ?_ fun a ha => ?_
  · rw [Keeps, hon]
    exact hp.refl
  · rw [hon] at ha ⊢
    exact hnext a ha

end Keeps

theorem on_edit (p : Page) (operation : Forest → Edit α) :
    (edit operation).on p = ((operation p.forest).1.mapError .forest,
      { p with forest := (operation p.forest).2 }) := by
  rw [edit, on_bind]
  change PageAction.on (match operation p.forest with | _ => _) p = _
  rcases operation p.forest with ⟨_ | _, f⟩ <;> rfl

namespace Keeps

variable {operation : Forest → Edit α}

theorem edit_bind (hp : p.Sealed S) {next : α → PageAction β}
    (hedit : Forest.Avoids S p.forest (operation p.forest).2)
    (hnext : ∀ a, (operation p.forest).1 = .ok a →
      ({ p with forest := (operation p.forest).2 } : Page).Sealed S →
        Keeps S { p with forest := (operation p.forest).2 } (next a)) :
    Keeps S p (edit operation >>= next) := by
  refine bind ?_ fun a ha => ?_
  · rw [Keeps, on_edit]
    exact hp.setForest hedit
  · rw [on_edit] at ha ⊢
    refine hnext a ?_ (hp.setForest hedit).seals
    cases hout : (operation p.forest).1 with
    | error fault =>
      rw [hout] at ha
      cases ha
    | ok b =>
      rw [hout] at ha
      obtain rfl : b = a := Except.ok.inj ha
      rfl

/-- An edit that gives no node. -/
theorem edit_pure (hp : p.Sealed S) (hedit : Forest.Avoids S p.forest (operation p.forest).2)
    {b : β} : Keeps S p (edit operation >>= fun _ => Pure.pure b) :=
  edit_bind hp hedit fun _ _ hq => pure hq

end Keeps

/-! ### Finding nodes -/

theorem on_node (p : Page) (name : String) :
    (node name).on p = ((p.nodes.get? name).elim (.error (.unbound name)) .ok, p) := by
  unfold node
  rw [on_bind]
  change PageAction.on (match p.nodes.get? name with | _ => _) p = _
  cases p.nodes.get? name <;> rfl

theorem on_nodes (p : Page) (names : List String) :
    ∃ outcome, (nodes names).on p = (outcome, p) ∧
      ∀ ns, outcome = .ok ns → ∀ n ∈ ns, ∃ name, p.nodes.get? name = some n := by
  induction names with
  | nil => exact ⟨.ok [], rfl, fun ns hns => Except.ok.inj hns ▸ List.forall_mem_nil _⟩
  | cons name names ih =>
    obtain ⟨outcome, hon, hfound⟩ := ih
    have hcons : nodes (name :: names) = node name >>= fun n =>
        nodes names >>= fun ns => Pure.pure (n :: ns) := List.mapM_cons
    rw [hcons, on_bind, on_node]
    cases hname : p.nodes.get? name with
    | none => exact ⟨_, rfl, by simp⟩
    | some n =>
      dsimp only [Option.elim]
      rw [on_bind, hon]
      cases outcome with
      | error failure => exact ⟨_, rfl, by simp⟩
      | ok ns =>
        refine ⟨_, rfl, fun ms hms => ?_⟩
        obtain rfl := Except.ok.inj hms
        exact List.forall_mem_cons.2 ⟨⟨name, hname⟩, hfound ns rfl⟩

theorem on_mount (hp : p.Sealed S) (name : Option String) :
    ∃ outcome, (mount name).on p = (outcome, p) ∧
      ∀ m, outcome = .ok m → p.forest.Open S m.container := by
  cases name with
  | some name =>
    unfold mount
    rw [on_bind]
    change ∃ outcome, PageAction.on (match p.mounts.get? name with | _ => _) p = _ ∧ _
    cases hm : p.mounts.get? name with
    | none => exact ⟨_, rfl, by simp⟩
    | some m => exact ⟨_, rfl, fun k hk => Except.ok.inj hk ▸ hp.mounts.get? hm⟩
  | none =>
    unfold mount
    rw [on_bind]
    change ∃ outcome, PageAction.on (match p.mountFor .standard with | _ => _) p = _ ∧ _
    cases hm : p.mountFor .standard with
    | error fault => exact ⟨_, rfl, by simp⟩
    | ok m => exact ⟨_, rfl, fun k hk => Except.ok.inj hk ▸ hp.mountFor hm⟩

namespace Keeps

variable (hp : p.Sealed S)

include hp

/-- A node that is found by its name is outside. -/
theorem node_bind {name : String} {next : NodeId → PageAction β}
    (hnext : ∀ n, p.forest.Open S n → Keeps S p (next n)) : Keeps S p (node name >>= next) := by
  refine bind_of_on hp (on_node p name) fun n hn => hnext n ?_
  cases hname : p.nodes.get? name with
  | none =>
    rw [hname] at hn
    cases hn
  | some m =>
    rw [hname] at hn
    exact Except.ok.inj hn ▸ hp.nodes.get? hname

theorem nodes_bind {names : List String} {next : List NodeId → PageAction β}
    (hnext : ∀ ns, (∀ n ∈ ns, p.forest.Open S n) → Keeps S p (next ns)) :
    Keeps S p (nodes names >>= next) := by
  obtain ⟨outcome, hon, hfound⟩ := on_nodes p names
  refine bind_of_on hp hon fun ns hns => hnext ns fun n hn => ?_
  obtain ⟨name, hname⟩ := hfound ns hns n hn
  exact hp.nodes.get? hname

theorem nodeIf_bind {name : Option String} {next : Option NodeId → PageAction β}
    (hnext : ∀ o, Keeps S p (next o)) : Keeps S p (nodeIf name >>= next) := by
  cases name with
  | none => exact bind_of_on hp rfl fun o _ => hnext o
  | some name =>
    have hon : (nodeIf (some name)).on p =
        (((p.nodes.get? name).elim (Except.error (Failure.unbound name)) .ok).map some, p) := by
      rw [nodeIf, map_eq_pure_bind, on_bind, on_node]
      cases p.nodes.get? name <;> rfl
    exact bind_of_on hp hon fun o _ => hnext o

theorem mount_bind {name : Option String} {next : Mount → PageAction β}
    (hnext : ∀ m : Mount, p.forest.Open S m.container → Keeps S p (next m)) :
    Keeps S p (mount name >>= next) := by
  obtain ⟨outcome, hon, hopen⟩ := on_mount hp name
  exact bind_of_on hp hon fun m hm => hnext m (hopen m hm)

theorem create (as : String) (k : Kind) (s : String) : Keeps S p (create as k s) := by
  have hnew := hp.setForest (Forest.Avoids.create hp.forest k s)
  have hn := Forest.Avoids.open_create hp.forest k s
  exact modify_pure (hnew.trans (hnew.seals.bindTo (some as) hn))

theorem found (as : Option String) {o : Option NodeId}
    (ho : ∀ n, o = some n → p.forest.Open S n) : Keeps S p (found as o) := by
  cases o with
  | none => exact pure hp
  | some n =>
    have hbound := hp.bindTo as (ho n rfl)
    exact modify_bind hbound (get_bind (pure hbound.seals))

/-- An edit that may give a node outside, which is then named. -/
theorem edit_found (as : Option String) {operation : Forest → Edit (Option NodeId)}
    (hedit : Forest.Avoids S p.forest (operation p.forest).2 ∧
      ∀ n, (operation p.forest).1 = .ok (some n) → p.forest.Open S n) :
    Keeps S p (edit operation >>= PageAction.found as) :=
  edit_bind hp hedit.1 fun _ ho hq => found hq as fun n hn =>
    hedit.1.open_mono (hedit.2 n (hn ▸ ho))

end Keeps

/-- A node that stands in a relation to a node outside is outside. -/
theorem open_related {f : Forest} (hf : f.Sealed S) (hn : f.Open S n) (relation : Relation)
    (hm : related f n relation = some m) : f.Open S m := by
  cases relation with
  | child i => exact hf.child hn.not_mem (List.mem_of_getElem? hm)
  | first => exact hf.child hn.not_mem (List.mem_of_head? hm)
  | last => exact hf.child hn.not_mem (List.mem_of_getLast? hm)
  | next => exact hf.nextSibling hn hm
  | previous => exact hf.previousSibling hn hm
  | parent => exact hf.parent hn.not_mem hm
  | owner => exact hf.owner hn.not_mem hm
  | closest tag => exact hf.closest hn hm
  | path indices => exact hf.follow hn hm

namespace Keeps

variable (hp : p.Sealed S)

include hp

theorem onEvent (c : EventCommand) : Keeps S p (onEvent c) := by
  cases c with
  | stop | prevent =>
    refine modify_pure (hp.modifyEvent ?_)
    exact fun e he => ⟨he.target, he.current⟩
  | info | describe =>
    refine get_bind ?_
    split
    · exact pure hp
    · exact throw hp

theorem setDocument (source : DocumentSource) : Keeps S p (setDocument source) := by
  have hset (t : Tree) : Keeps S p (set { p with
      forest := (p.forest.plant t).2, body := (p.forest.plant t).1 } >>= fun _ =>
        Pure.pure (Reply.text (p.outer p.body)) : PageAction Reply) := by
    obtain ⟨hplant, hbody⟩ := Forest.Avoids.plant hp.forest t
    have hset := hp.setForest hplant
    have hshown := hset.trans (hset.seals.setBody hbody)
    exact set_bind hshown (pure hshown.seals)
  exact get_bind (hset _)

omit hp in
theorem mountFrom_some {source : String} {settings : Settings}
    (hs : Settings.ofToml? source = some settings) (container defaultClass : Option String)
    (as : String) : PageAction.mountFrom (some source) container defaultClass as =
      PageAction.mountFrom none (some (container.getD settings.container))
        (some (defaultClass.getD settings.defaultClass)) as := by
  simp only [PageAction.mountFrom, hs, pure_bind, Option.getD_some]

theorem mountFrom (source container defaultClass : Option String) (as : String) :
    Keeps S p (mountFrom source container defaultClass as) := by
  have hmount (container defaultClass : Option String) :
      Keeps S p (PageAction.mountFrom none container defaultClass as) := by
    simp only [PageAction.mountFrom, pure_bind]
    refine get_bind ?_
    split
    · next m hm => exact modify_pure (hp.bindMount as (hp.mountFor hm))
    · exact throw hp
  cases source with
  | none => exact hmount container defaultClass
  | some source =>
    cases hs : Settings.ofToml? source with
    | none =>
      unfold PageAction.mountFrom
      simp only [hs]
      exact throw hp
    | some settings => exact mountFrom_some hs container defaultClass as ▸ hmount _ _

end Keeps

open Forest in
/-- Commands on a page leave sealed nodes as they are, and sealed off. -/
theorem keeps_ofCommand (hp : p.Sealed S) (c : PageCommand) : Keeps S p (ofCommand c) := by
  have hf := hp.forest
  cases c with
  | element _ as | text _ as | comment _ as | fragment as | attr _ _ as =>
    exact .create hp as _ _
  | parse markup as brief =>
    obtain ⟨hplant, hn⟩ := Avoids.plantFragment hf (Tree.ofMarkup markup)
    have hset := hp.setForest hplant
    exact .modify_pure (hset.trans (hset.seals.bindTo as hn))
  | escape | isVoid | selector | coalesce => exact .pure hp
  | queryAll | describeDocument => exact .get_bind (.pure hp)
  | markup | rows | describe | info | getAttr | listenerCount | selects =>
    exact .node_bind hp fun n _ => .get_bind (.pure hp)
  | navigate of relation as =>
    exact .node_bind hp fun n hn => .get_bind (.found hp as fun m hm => open_related hf hn _ hm)
  | contains of other =>
    exact .node_bind hp fun n _ => .node_bind hp fun m _ => .get_bind (.pure hp)
  | same a b => exact .node_bind hp fun n _ => .node_bind hp fun m _ => .pure hp
  | weaken of as => exact .node_bind hp fun n hn => .modify_pure (hp.bindWeak as hn)
  | upgrade weak as =>
    refine .get_bind ?_
    split
    · next n hn =>
      refine .found hp as fun m hm => ?_
      split_ifs at hm
      exact Option.some.inj hm ▸ hp.weak.get? hn
    · exact .throw hp
  | append parent name =>
    exact .node_bind hp fun n hn => .node_bind hp fun m hm => .edit_pure hp (.append hf hn hm)
  | insertBefore parent name reference =>
    exact .node_bind hp fun n hn => .node_bind hp fun m hm => .nodeIf_bind hp fun r =>
      .edit_pure hp (.insertBefore hf hn hm r)
  | removeChild of name =>
    exact .node_bind hp fun n hn => .node_bind hp fun m hm =>
      .edit_pure hp (.removeChild hf hm.not_mem)
  | remove name => exact .node_bind hp fun n hn => .edit_pure hp (.remove hf hn.not_mem)
  | replaceWith name others =>
    exact .node_bind hp fun n hn => .nodes_bind hp fun ms hms =>
      .edit_pure hp (.replaceWith hf hn.not_mem hms)
  | normalize of => exact .node_bind hp fun n hn => .edit_pure hp (.normalize hf hn)
  | clone of deep as =>
    refine .node_bind hp fun n _ => ?_
    obtain ⟨hcopy, hm⟩ := Avoids.copy hf n deep
    have hset := hp.setForest hcopy
    exact .modify_pure (hset.trans (hset.seals.bindTo (some as) hm))
  | setData of data => exact .node_bind hp fun n hn => .edit_pure hp (.setData hf hn.not_mem data)
  | setValue of value =>
    exact .node_bind hp fun n hn => .edit_pure hp (.setValue hf hn.not_mem value)
  | takeChildren of as =>
    refine .node_bind hp fun n hn => ?_
    have htake := Avoids.takeChildren hf hn.not_mem
    refine .edit_bind hp htake fun taken htaken hq => ?_
    obtain rfl : p.forest.children n = taken := Except.ok.inj htaken
    have hbound := hq.bindEach as fun m hm => htake.open_mono (hf.child hn.not_mem hm)
    exact .modify_bind hbound (.get_bind (.pure hbound.seals))
  | setAttr of name value =>
    exact .node_bind hp fun n hn => .edit_pure hp (.setAttr hf hn name value)
  | removeAttr of name as =>
    exact .node_bind hp fun n hn => .edit_found hp as
      (Avoids.removeAttr hf hn.not_mem name)
  | attrNode of name as =>
    exact .node_bind hp fun n hn => .get_bind (.found hp as fun m hm => hf.attrNode hn.not_mem hm)
  | setAttrNode of attr as =>
    exact .node_bind hp fun n hn => .node_bind hp fun a ha =>
      .edit_found hp as (Avoids.setAttrNode hf hn ha)
  | removeAttrNode of attr =>
    exact .node_bind hp fun n hn => .node_bind hp fun a ha =>
      .edit_pure hp (.removeAttrNode hf ha.not_mem)
  | setClass of name => exact .node_bind hp fun n hn => .edit_pure hp (.setAttr hf hn "class" name)
  | unlisten of id =>
    refine .node_bind hp fun n hn => .get_bind ?_
    split
    · next l _ =>
      have hquit := hp.modifyListeners hn.not_mem fun ls => ls.filter (·.id != l)
      exact .get_bind (.set_bind hquit (.pure hquit.seals))
    · exact .throw hp
  | event command => exact .onEvent hp command
  | setDocument source => exact .setDocument hp source
  | body as => exact .get_bind (.found hp as fun m hm => Option.some.inj hm ▸ hp.body)
  | query selector as => exact .get_bind (.found hp as fun m hm => hf.select? hp.body hm)
  | captured slot as => exact .get_bind (.found hp as fun m hm => hp.slots.get? hm)
  | pathTo target root attr =>
    refine .node_bind hp fun n _ => .node_bind hp fun r _ => .get_bind ?_
    split
    · exact .pure hp
    · exact .throw hp
  | descend root paths =>
    refine .node_bind hp fun r _ => .get_bind ?_
    split
    · exact .pure hp
    · exact .throw hp
  | mountNew container as =>
    exact .node_bind hp fun n hn => .modify_pure (hp.bindMount as hn)
  | mountFrom source container defaultClass as =>
    exact .mountFrom hp source container defaultClass as
  | describeMount name => exact .mount_bind hp fun m _ => .get_bind (.pure hp)
  | save name as =>
    refine .mount_bind hp fun m hm => .get_bind ?_
    obtain ⟨hsave, hn⟩ := hp.save hm
    have hbound := hsave.trans (hsave.seals.bindTo as hn)
    exact .set_bind hbound (.pure hbound.seals)
  | settings source =>
    rw [ofCommand]
    split
    · exact .pure hp
    · exact .throw hp

end PageAction

end LiveMarkup
