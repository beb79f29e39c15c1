import LiveMarkup.Proofs.Forest.Clones
import LiveMarkup.Proofs.Markup.Shapes
import LiveMarkup.Proofs.Run.Visits

/-!
# Copies and originals

A deep copy is faithful, and from then on it and its original have nothing to do with each other:
whatever is done to other nodes than those of the original leaves the original alone, and whatever
is done to other nodes than those of the copy leaves the copy alone (`copied_apart`).

What is done is any sequence of operations on nodes, writes of data, changes of listeners, and
dispatches (`KeepsOff`).  A dispatch climbs from node to node and runs listeners on its way, so that
it keeps to whatever the single steps and the listeners keep to (`Climbs.dispatch`).
-/

namespace LiveMarkup

open Forest Run

variable {S : Set NodeId} {f g : Forest} {w v u : World} {n target : NodeId} {event : String}
  {fuel : ℕ} {P : Forest → NodeId → Prop} {R : Forest → Forest → Prop}

/-! ### What a dispatch keeps to -/

/-- A relation `R` between forests that an event keeps to on its way, as long as its listeners do;
it only comes to nodes for which `P` holds. -/
structure Climbs (P : Forest → NodeId → Prop) (R : Forest → Forest → Prop) : Prop where
  refl (f : Forest) : R f f
  trans {f g h : Forest} : R f g → R g h → R f h
  unlisten {f : Forest} {n : NodeId} (keep : Listener → Bool) : P f n →
    R f (f.modify n fun c => { c with listeners := c.listeners.filter keep })
  climb {f g : Forest} {n p : NodeId} : P f n → R f g → g.parent n = some p → P g p

namespace Climbs

variable (h : Climbs P R)

include h

theorem arrive (hn : P w.forest n) (event : String) :
    R w.forest (w.arrive n event).forest := by
  unfold World.arrive World.forest Page.takeListeners Page.modifyEvent
  split <;> exact h.unlisten _ hn

theorem handlers {run : Runner} {ls : List Listener}
    (hls : ∀ i ∈ invocations run ls w, ∀ u, i.after = some u → R i.before.forest u.forest)
    (hrun : Run.handlers run ls w = some ((), v)) : R w.forest v.forest := by
  induction ls generalizing w with
  | nil =>
    obtain rfl : w = v := congrArg Prod.snd (Option.some.inj hrun)
    exact h.refl _
  | cons l ls ih =>
    obtain ⟨⟨⟩, u, hl, hrest⟩ := Activity.bind_eq_some_iff.1 hrun
    rw [invocations, hl] at hls
    exact h.trans (hls _ List.mem_cons_self u rfl)
      (ih (fun i hi => hls i (List.mem_cons_of_mem _ hi)) hrest)

theorem bubble (hw : isStopped w = false) (hn : P w.forest n)
    (hvisits : ∀ x ∈ visits fuel n w, ∀ i ∈ x.invocations, ∀ u, i.after = some u →
      R i.before.forest u.forest)
    (hrun : Run.run fuel (.bubble n) w = some ((), v)) : R w.forest v.forest := by
  induction fuel generalizing w n with
  | zero => cases hrun
  | succ fuel ih =>
    cases hes : w.page.events with
    | nil => simp [isStopped, hes] at hw
    | cons e es =>
      rw [visits, hes] at hvisits
      obtain ⟨hfirst, hrest⟩ := List.forall_mem_cons.1 hvisits
      obtain ⟨⟨⟩, u, hu, hascend⟩ :=
        Activity.bind_eq_some_iff.1 ((bubble_of_events hes).symm.trans hrun)
      have hlisteners := h.trans (h.arrive hn e.event) (h.handlers hfirst hu)
      simp only [hu] at hrest
      rw [ascend] at hascend
      split_ifs at hascend with hstop
      · obtain rfl : u = v := congrArg Prod.snd (Option.some.inj hascend)
        exact hlisteners
      · rw [if_neg hstop] at hrest
        cases hp : u.forest.parent n with
        | none =>
          simp only [hp] at hascend
          obtain rfl : u = v := congrArg Prod.snd (Option.some.inj hascend)
          exact hlisteners
        | some p =>
          simp only [hp] at hascend hrest
          exact h.trans hlisteners
            (ih (Bool.eq_false_iff.2 hstop) (h.climb hn hlisteners hp) hrest hascend)

theorem dispatch {r : Reply} (hn : P w.forest target)
    (hvisits : ∀ x ∈ visits fuel target (w.handle event target), ∀ i ∈ x.invocations, ∀ u,
      i.after = some u → R i.before.forest u.forest)
    (hrun : Run.dispatch (Run.run fuel) target event w = some (r, v)) : R w.forest v.forest := by
  obtain ⟨e, u, hhandling, hreply⟩ := Activity.bind_eq_some_iff.1 hrun
  obtain rfl : u = v := congrArg Prod.snd (Option.some.inj hreply)
  rw [handling, Activity.modify_bind] at hhandling
  obtain ⟨⟨⟩, u', hbubble, hend⟩ := Activity.bind_eq_some_iff.1 hhandling
  have hforest : u.forest = u'.forest := by
    split at hend <;> obtain rfl := congrArg Prod.snd (Option.some.inj hend) <;> rfl
  rw [hforest]
  exact h.bubble (w := w.handle event target) rfl hn hvisits hbubble

end Climbs

/-! ### Work on other nodes -/

/-- What is done to other nodes than those in `S`: operations on nodes, writes of data, changes of
listeners, dispatches whose listeners do such work too, and anything that changes no node. -/
inductive KeepsOff (S : Set NodeId) : World → World → Prop
  | same {w v : World} : v.forest = w.forest → KeepsOff S w v
  | perform {w v : World} (op : Operation) : (∀ m ∈ op.operands, w.forest.Open S m) →
    v.forest = op.perform w.forest → KeepsOff S w v
  | setData {w v : World} (m : NodeId) (data : String) : w.forest.Open S m →
    v.forest = (w.forest.setData m data).2 → KeepsOff S w v
  | setValue {w v : World} (m : NodeId) (value : String) : w.forest.Open S m →
    v.forest = (w.forest.setValue m value).2 → KeepsOff S w v
  | listen {w v : World} (m : NodeId) (event : String) (handler : ℕ) (once : Bool) :
    w.forest.Open S m → v.forest = (w.page.listen m event handler once).2.forest → KeepsOff S w v
  | unlisten {w v : World} (m : NodeId) (id : ℕ) : w.forest.Open S m →
    v.forest = (w.page.unlisten m id).2.forest → KeepsOff S w v
  | dispatch {w v : World} (fuel : ℕ) (target : NodeId) (event : String) (r : Reply) :
    w.forest.Open S target →
    (∀ x ∈ visits fuel target (w.handle event target), ∀ i ∈ x.invocations, ∀ u,
      i.after = some u → KeepsOff S i.before u) →
    Run.dispatch (Run.run fuel) target event w = some (r, v) → KeepsOff S w v
  | trans {w u v : World} : KeepsOff S w u → KeepsOff S u v → KeepsOff S w v

/-- An operation on nodes outside leaves sealed nodes alone. -/
theorem Forest.Avoids.perform (hf : f.Sealed S) (op : Operation)
    (hop : ∀ m ∈ op.operands, f.Open S m) : Avoids S f (op.perform f) := by
  cases op with
  | element _ | text _ | comment _ | fragment | attr _ _ => exact create hf _ _
  | append p n =>
    obtain ⟨hp, hn⟩ := List.forall_mem_cons.1 hop
    exact append hf hp (List.forall_mem_singleton.1 hn)
  | insertBefore p n reference =>
    obtain ⟨hp, hrest⟩ := List.forall_mem_cons.1 hop
    exact insertBefore hf hp (hrest n List.mem_cons_self) reference
  | removeChild p n =>
    exact removeChild hf (hop n (List.mem_cons_of_mem p (List.mem_singleton_self n))).not_mem
  | remove n => exact remove hf (List.forall_mem_singleton.1 hop).not_mem
  | replaceWith n ns =>
    obtain ⟨hn, hns⟩ := List.forall_mem_cons.1 hop
    exact replaceWith hf hn.not_mem hns
  | takeChildren n => exact takeChildren hf (List.forall_mem_singleton.1 hop).not_mem
  | clone n deep => exact (copy hf n deep).1
  | normalize n => exact normalize hf (List.forall_mem_singleton.1 hop)
  | setAttr n name value => exact setAttr hf (List.forall_mem_singleton.1 hop) name value
  | setAttrNode n a =>
    obtain ⟨hn, ha⟩ := List.forall_mem_cons.1 hop
    exact (setAttrNode hf hn (List.forall_mem_singleton.1 ha)).1
  | removeAttr n name => exact (removeAttr hf (List.forall_mem_singleton.1 hop).not_mem name).1
  | removeAttrNode n a =>
    exact removeAttrNode hf (hop a (List.mem_cons_of_mem n (List.mem_singleton_self a))).not_mem
  | release n => exact takeApart hf (List.forall_mem_singleton.1 hop).not_mem

theorem Forest.Avoids.modify_listeners (hf : f.Sealed S) (hn : n ∉ S)
    (change : List Listener → List Listener) :
    Avoids S f (f.modify n fun c => { c with listeners := change c.listeners }) :=
  modify hf hn fun h => ⟨h.parent, h.children, h.attributes⟩

/-- An event that starts outside comes to no sealed node. -/
theorem climbs_sealed (S : Set NodeId) :
    Climbs (fun f n => f.Sealed S ∧ f.Open S n) (fun f g => f.Sealed S → Avoids S f g) where
  refl _ hf := hf.refl
  trans hfg hgh hf := (hfg hf).trans (hgh (hfg hf).seals)
  unlisten keep hn hf := Avoids.modify_listeners hf hn.2.not_mem (List.filter keep)
  climb hn hfg hp := by
    have havoids := hfg hn.1
    exact ⟨havoids.seals, havoids.seals.parent hn.2.not_mem hp⟩

/-- Registering a listener is a change of the listeners of one node. -/
theorem Page.exists_forest_listen (p : Page) (n : NodeId) (event : String) (handler : ℕ)
    (once : Bool) : ∃ change : List Listener → List Listener,
      (p.listen n event handler once).2.forest =
        p.forest.modify n fun c => { c with listeners := change c.listeners } :=
  ⟨(· ++ [⟨p.nextListener, event, once, handler⟩]), rfl⟩

/-- And so is taking one away. -/
theorem Page.exists_forest_unlisten (p : Page) (n : NodeId) (id : ℕ) :
    ∃ change : List Listener → List Listener, (p.unlisten n id).2.forest =
      p.forest.modify n fun c => { c with listeners := change c.listeners } :=
  ⟨fun ls => ls.filter (·.id != id), rfl⟩

namespace KeepsOff

/-- Work on other nodes leaves sealed nodes alone. -/
theorem avoids (h : KeepsOff S w v) (hw : w.forest.Sealed S) :
    Avoids S w.forest v.forest := by
  induction h with
  | same hv => exact hv ▸ hw.refl
  | perform op hop hv => exact hv ▸ .perform hw op hop
  | setData m data hm hv => exact hv ▸ .setData hw hm.not_mem data
  | setValue m value hm hv => exact hv ▸ .setValue hw hm.not_mem value
  | @listen w v m event handler once hm hv =>
    obtain ⟨change, hchange⟩ := w.page.exists_forest_listen m event handler once
    rw [hv, hchange]
    exact .modify_listeners hw hm.not_mem change
  | @unlisten w v m id hm hv =>
    obtain ⟨change, hchange⟩ := w.page.exists_forest_unlisten m id
    rw [hv, hchange]
    exact .modify_listeners hw hm.not_mem change
  | dispatch fuel target event r htarget _ hrun ih =>
    exact (climbs_sealed S).dispatch ⟨hw, htarget⟩ ih hrun hw
  | trans _ _ ih ih' =>
    have hfirst := ih hw
    exact hfirst.trans (ih' hfirst.seals)

/-- Whatever is done, links agree on both sides, and elements and fragments have no data. -/
theorem sound_bare (h : KeepsOff S w v) (hw : w.forest.Sound ∧ w.forest.Bare) :
    v.forest.Sound ∧ v.forest.Bare := by
  have hclimbs : Climbs (fun _ _ => True) fun f g => f.Sound ∧ f.Bare → g.Sound ∧ g.Bare :=
    ⟨fun _ => id, fun hfg hgh hf => hgh (hfg hf), fun {_ n} keep _ hf =>
      ⟨hf.1.modify_listeners (List.filter keep) n, hf.2.modify_listeners n (List.filter keep)⟩,
      fun _ _ _ => trivial⟩
  induction h with
  | same hv => rwa [hv]
  | perform op hop hv =>
    rw [hv]
    exact ⟨hw.1.perform op fun m hm => (hop m hm).lt, hw.2.perform hw.1 op⟩
  | setData m data _ hv =>
    rw [hv]
    exact ⟨hw.1.setData m data, hw.2.setData m data⟩
  | setValue m value _ hv =>
    rw [hv]
    exact ⟨hw.1.setValue m value, hw.2.setValue m value⟩
  | @listen w v m event handler once _ hv =>
    obtain ⟨change, hchange⟩ := w.page.exists_forest_listen m event handler once
    rw [hv, hchange]
    exact ⟨hw.1.modify_listeners change m, hw.2.modify_listeners m change⟩
  | @unlisten w v m id _ hv =>
    obtain ⟨change, hchange⟩ := w.page.exists_forest_unlisten m id
    rw [hv, hchange]
    exact ⟨hw.1.modify_listeners change m, hw.2.modify_listeners m change⟩
  | dispatch fuel target event r _ _ hrun ih => exact hclimbs.dispatch trivial ih hrun hw
  | trans _ _ ih ih' => exact ih' (ih hw)

end KeepsOff

/-! ### Copies and their originals -/

/-- A deep copy consists of new nodes, one for each node inside the original, that look like their
originals, and all nodes that were there before are as they were.  From then on, whatever is done to
nodes outside a set that no other nodes lead to leaves its nodes as they are: so work on the copy
leaves the whole tree of the original alone, and all nodes that were there before, and work on the
original leaves the copy alone.  After any such work the same can be said of the next copy. -/
theorem copied_apart (f : Forest) (hf : f.Sound) (hb : f.Bare) (n : NodeId) (hn : n < f.size) :
    let g := (f.copy n true).2
    (∃ φ, (f.copy n true).1 = φ n ∧ Copied f g n φ) ∧
    f.Sealed {m | f.LeadsTo n m} ∧ f.Sealed (Set.Iio f.size) ∧
    (∀ S w v, f.Sealed S → w.forest = g → KeepsOff S w v →
      ∀ m ∈ S, v.forest.cell m = f.cell m) ∧
    (∀ w v, w.forest = g → KeepsOff (Set.Ico f.size g.size) w v →
      ∀ m ∈ Set.Ico f.size g.size, v.forest.cell m = g.cell m) ∧
    ∀ S w v, w.forest = g → KeepsOff S w v → v.forest.Sound ∧ v.forest.Bare := by
  intro g
  refine ⟨hf.exists_copied hb n, hf.sealed_leadsTo hn, f.sealed_Iio, fun S w v hS hw h m hm => ?_,
    fun w v hw h m hm => ?_, fun S w v hw h => ?_⟩
  · have hcopy : Avoids S f g := (Avoids.copy hS n true).1
    have hwork : Avoids S w.forest v.forest := h.avoids (hw ▸ hcopy.seals)
    rw [hwork.cell_eq hm, hw, hcopy.cell_eq hm]
  · have hcopy : g.Sealed (Set.Ico f.size g.size) := hf.sealed_Ico (grows_copy f n)
    have hwork : Avoids _ w.forest v.forest := h.avoids (hw ▸ hcopy)
    rw [hwork.cell_eq hm, hw]
  · exact h.sound_bare (hw ▸ ⟨hf.copy n true, hb.copy n true⟩)

/-- A box with a class, in it a paragraph with a text and a listener. -/
def boxPage : Page :=
  let f := (Forest.empty.plant (.element "div" [⟨"class", "a"⟩] [.element "p" [] [.text "hi"]])).2
  (Page.listen { Page.fresh with forest := f, nodes := [("copy", 4)] } 2 "click" 0 false).2

/-- A world with this page and a copy of the box, and a routine that writes to the copy. -/
def boxWorld : World :=
  { World.fresh "a" with
    page := { boxPage with forest := (boxPage.forest.copy 0 true).2 }
    routines := #[.script [.page (.setAttr "copy" "title" "t")]] }

/-- The world in which the routine is a listener of the copy of the paragraph. -/
def listeningWorld : World :=
  { boxWorld with page := (boxWorld.page.listen 6 "click" 0 false).2 }

theorem sound_boxPage : boxPage.forest.Sound := by
  have hsmall : "class".toLower = "class" := by decide +kernel
  refine Sound.modify_listeners (· ++ [Listener.mk 0 "click" false 0]) (Sound.empty.plant _ ?_) 2
  simp only [Tree.Named, Tree.NamedAll, List.forall_mem_singleton]
  exact ⟨hsmall, by simp⟩

theorem bare_boxPage : boxPage.forest.Bare :=
  (Bare.empty.plant _).modify_listeners 2 (· ++ [Listener.mk 0 "click" false 0])

/-- The listener of the copy of the paragraph writes to the copy of the box only. -/
theorem keepsOff_listeningWorld (hS : ∀ m ∈ S, m < 4) :
    ∀ x ∈ visits 6 6 (listeningWorld.handle "click" 6), ∀ i ∈ x.invocations, ∀ u,
      i.after = some u → KeepsOff S i.before u := by
  have hall : ((visits 6 6 (listeningWorld.handle "click" 6)).all fun x =>
      x.invocations.all fun i => decide (4 < i.before.forest.size) && i.after.all fun u =>
        u.forest == (i.before.forest.setAttr 4 "title" "t").2) = true := by decide +kernel
  intro x hx i hi u hu
  have hi := List.all_eq_true.1 (List.all_eq_true.1 hall x hx) i hi
  rw [hu, Option.all_some, Bool.and_eq_true, decide_eq_true_iff, beq_iff_eq] at hi
  refine .perform (.setAttr 4 "title" "t") (List.forall_mem_singleton.2 ⟨hi.1, fun h => ?_⟩) hi.2
  exact (hS 4 h).false

/-- An event that is dispatched at the copy of the paragraph writes to the copy of the box and
leaves the box alone, and removing the paragraph leaves the copy alone. -/
theorem copied_apart_boxPage :
    boxPage.forest.Sound ∧ boxPage.forest.Bare ∧ 0 < boxPage.forest.size ∧
    (∃ φ, 4 = φ 0 ∧ Copied boxPage.forest (boxPage.forest.copy 0 true).2 0 φ) ∧
    (∃ r v, Run.dispatch (Run.run 6) 6 "click" listeningWorld = some (r, v) ∧
      v.forest.attrValue 4 "title" = some "t" ∧
      ∀ m, boxPage.forest.LeadsTo 0 m → v.forest.cell m = boxPage.forest.cell m) ∧
    ∀ m, 4 ≤ m → m < 8 → (boxWorld.forest.remove 2).cell m = boxWorld.forest.cell m := by
  have hsize : boxPage.forest.size = 4 := by decide +kernel
  have hsize' : boxWorld.forest.size = 8 := by decide +kernel
  have hfirst : (boxPage.forest.copy 0 true).1 = 4 := by decide +kernel
  have hlt : 0 < boxPage.forest.size := hsize ▸ by decide
  obtain ⟨⟨φ, hroot, hcopied⟩, hsealed, -, honcopy, honoriginal, -⟩ :=
    copied_apart boxPage.forest sound_boxPage bare_boxPage 0 hlt
  refine ⟨sound_boxPage, bare_boxPage, hlt, ⟨φ, hfirst ▸ hroot, hcopied⟩, ?_, fun m hle hlt => ?_⟩
  · have hS : ∀ m ∈ {m | boxPage.forest.LeadsTo 0 m}, m < 4 := fun m hm => hsize ▸ hsealed.lt hm
    have hattr : (Run.dispatch (Run.run 6) 6 "click" listeningWorld).map
        (fun result => result.2.forest.attrValue 4 "title") = some (some "t") := by decide +kernel
    obtain ⟨⟨r, v⟩, hrun, hvalue⟩ := Option.map_eq_some_iff.1 hattr
    have hopen (w : World) (hw : w.forest.size = 8) :
        w.forest.Open {m | boxPage.forest.LeadsTo 0 m} 6 :=
      ⟨hw ▸ by decide, fun h => absurd (hS 6 h) (by decide)⟩
    have hlisten : KeepsOff {m | boxPage.forest.LeadsTo 0 m} boxWorld listeningWorld :=
      .listen 6 "click" 0 false (hopen _ hsize') rfl
    have hdispatch : KeepsOff {m | boxPage.forest.LeadsTo 0 m} listeningWorld v :=
      .dispatch 6 6 "click" r (hopen _ (by decide +kernel)) (keepsOff_listeningWorld hS) hrun
    exact ⟨r, v, hrun, hvalue, honcopy _ boxWorld v hsealed rfl (hlisten.trans hdispatch)⟩
  · have hremove : KeepsOff (Set.Ico boxPage.forest.size boxWorld.forest.size) boxWorld
        { boxWorld with page := { boxWorld.page with forest := boxWorld.forest.remove 2 } } := by
      have hopen : boxWorld.forest.Open (Set.Ico boxPage.forest.size boxWorld.forest.size) 2 :=
        ⟨hsize' ▸ by decide, fun h => absurd h.1 (hsize ▸ by decide)⟩
      exact .perform (.remove 2) (List.forall_mem_singleton.2 hopen) rfl
    exact honoriginal boxWorld _ rfl hremove m ⟨hsize ▸ hle, hsize' ▸ hlt⟩

end LiveMarkup
