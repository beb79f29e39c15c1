import LiveMarkup.Proofs.Reactive.Attended
import LiveMarkup.Proofs.Run.Remounting

/-!
# Nodes that show live values

While a live value is shown at a node, signals are written, the queue is drained, other effects
begin to look on, nodes are moved, values that run no code are bound to comments, and screens are
mounted and saved (`World.Proceeds`).  None of
this keeps the value from being attended to, and the node stays of its kind
(`World.Attends.proceeds`): to move nodes, to save a screen and to mount a value that runs no code
writes no data but that of the class of the container.
-/

namespace LiveMarkup

open Forest Run

variable {f : Forest} {c n : NodeId} {m : Mount} {w u v : World} {cls : Option String}
  {outcome : Except RenderFault Unit}

/-! ### Moving nodes -/

theorem Forest.Lasts.save {P : Kind → Prop} (page : Page) (m : Mount) :
    Lasts P page.forest (page.save m).2.forest :=
  .of_changes (.save .refl m)

/-- To set an attribute of an element writes data of its attribute nodes only. -/
theorem Forest.data_setAttr_of_not_mem (hn : n < f.size) (hc : n ∉ f.attributes c)
    (name s : String) : (f.setAttr c name s).2.data n = f.data n := by
  unfold setAttr
  split
  · rfl
  · split
    · next a ha =>
      rw [data_writeData, if_neg]
      rintro ⟨rfl, -⟩
      exact hc (List.mem_of_find?_eq_some ha)
    · simp [data_create, hn.ne]

theorem Forest.lasts_placeText {P : Kind → Prop} (hn : f.kind n = .comment) (kind s : String) :
    Lasts P f (f.placeText n kind s).2 := by
  simp only [placeText, hn, snd_placed]
  exact .of_changes (.replaceWith (.create_leaf .refl rfl s) n _)

/-! ### Mounting what runs no code -/

namespace World

/-- Signals and routines are as they were, and all nodes and their data last. -/
structure Places (w v : World) : Prop where
  signals_eq : v.signals = w.signals
  routines_eq : v.routines = w.routines
  lasts : Lasts (fun _ => True) w.forest v.forest

theorem Places.refl (w : World) : w.Places w := ⟨rfl, rfl, .refl _⟩

theorem Places.trans (h : w.Places u) (h' : u.Places v) : w.Places v :=
  ⟨h'.signals_eq.trans h.signals_eq, h'.routines_eq.trans h.routines_eq, h.lasts.trans h'.lasts⟩

/-- What lasts in all of the forest lasts in a part of it. -/
theorem Places.leavesAlone (h : w.Places v) (n : NodeId) : LeavesAlone n w v where
  names_eq := by rw [h.signals_eq]
  reactive_eq := by rw [h.signals_eq]
  keepsRoutines hk := h.routines_eq ▸ hk
  lasts := ⟨h.lasts.size_le, h.lasts.kind_eq, fun _ h => h.elim⟩
  data_eq hn := h.lasts.data_eq hn trivial

theorem LeavesAlone.trans (h : LeavesAlone n w u) (h' : LeavesAlone n u v) : LeavesAlone n w v where
  names_eq := h'.names_eq.trans h.names_eq
  reactive_eq := h'.reactive_eq.trans h.reactive_eq
  keepsRoutines hk := h'.keepsRoutines (h.keepsRoutines hk)
  lasts := h.lasts.trans h'.lasts
  data_eq hn := (h'.data_eq (hn.trans_le h.lasts.size_le)).trans (h.data_eq hn)

end World

/-- Code that is inert does nothing to signals and nodes when it is bound to a comment. -/
theorem Run.places_bind_of_inert {run : Runner} {b : Binding} (hb : b.Inert)
    (hn : w.forest.kind n = .comment) (h : bind run b n w = some (outcome, v)) : w.Places v := by
  have hforest := forest_bind_of_inert hb hn h
  have hlasts : Lasts (fun _ => True) w.forest v.forest := hforest ▸ .refl _
  cases b with
  | fail fault =>
    obtain ⟨-, rfl⟩ := Prod.mk.inj (Option.some.inj h)
    exact .refl w
  | setAttr name value =>
    obtain ⟨-, rfl⟩ := (@place_eq_some_iff _ _ _ (·.placeAttr n name value)).1 h
    exact ⟨rfl, rfl, hlasts⟩
  | listen event routine once =>
    simp only [bind, Activity.get_bind, hn] at h
    obtain ⟨-, rfl⟩ := Prod.mk.inj (Option.some.inj h)
    exact .refl w
  | capture slot =>
    obtain ⟨-, rfl⟩ := Prod.mk.inj (Option.some.inj h)
    exact ⟨rfl, rfl, hlasts⟩
  | function as commands result => exact hb.elim
  | live value => exact hb.elim

mutual

/-- To bind what runs no code to a comment places nodes and writes nothing. -/
theorem Run.places_applyTo {run : Runner} : ∀ (e : Expression) {n : NodeId} {w v : World}
    {outcome : Except RenderFault Unit}, e.Inert → w.forest.kind n = .comment →
    applyTo run (bind run) n e w = some (outcome, v) → w.Places v
  | .empty, n, w, v, outcome, _, _, h => by
    rw [applyTo] at h
    obtain ⟨-, rfl⟩ := Prod.mk.inj (Option.some.inj h)
    exact .refl w
  | .text s, n, w, v, outcome, _, hn, h => by
    rw [applyTo, place_eq_some_iff] at h
    obtain ⟨-, rfl⟩ := h
    exact ⟨rfl, rfl, lasts_placeText hn _ _⟩
  | .number x, n, w, v, outcome, _, hn, h => by
    rw [applyTo, place_eq_some_iff] at h
    obtain ⟨-, rfl⟩ := h
    exact ⟨rfl, rfl, lasts_placeText hn _ _⟩
  | .bigint i, n, w, v, outcome, _, hn, h => by
    rw [applyTo, place_eq_some_iff] at h
    obtain ⟨-, rfl⟩ := h
    exact ⟨rfl, rfl, lasts_placeText hn _ _⟩
  | .node x, n, w, v, outcome, _, hn, h => by
    rw [applyTo, place_eq_some_iff] at h
    obtain ⟨-, rfl⟩ := h
    exact ⟨rfl, rfl, .of_changes (.placeNode .refl n x)⟩
  | .capability name value, n, w, v, outcome, _, hn, h => by
    rw [applyTo, place_eq_some_iff] at h
    obtain ⟨-, rfl⟩ := h
    refine ⟨rfl, rfl, ?_⟩
    rw [forest_setForest, snd_placed, setAttr_of_comment hn]
    exact .refl _
  | .function b, n, w, v, outcome, hinert, hn, h => by
    rw [applyTo] at h
    exact places_bind_of_inert hinert hn h
  | .deferred promise, n, w, v, outcome, _, _, h => by
    rw [applyTo] at h
    obtain ⟨-, rfl⟩ := Prod.mk.inj (Option.some.inj h)
    exact ⟨rfl, rfl, .refl _⟩
  | .iterable items, n, w, v, outcome, hinert, hn, h => by
    rw [applyTo, Activity.get_bind, hn] at h
    rcases hp : w.forest.parent n with _ | p
    · rw [hp] at h
      obtain ⟨-, rfl⟩ := Prod.mk.inj (Option.some.inj h)
      exact ⟨rfl, rfl, .refl _⟩
    · rw [hp] at h
      obtain ⟨inner, u, hslots, hrest⟩ := Activity.bind_eq_some_iff.1 h
      have hplaces := places_applySlots items hinert hslots
      rcases inner with fault | _
      · obtain ⟨-, rfl⟩ := Prod.mk.inj (Option.some.inj hrest)
        exact hplaces
      · obtain ⟨-, rfl⟩ := Prod.mk.inj (Option.some.inj hrest)
        exact hplaces.trans ⟨rfl, rfl, .of_changes (.remove .refl n)⟩

/-- To bind several such values, each to a slot of its own, places nodes and writes nothing. -/
theorem Run.places_applySlots {run : Runner} : ∀ (items : List Expression) {p anchor : NodeId}
    {w v : World} {outcome : Except RenderFault Unit}, Expression.InertAll items →
    applySlots run (bind run) p anchor items w = some (outcome, v) → w.Places v
  | [], p, anchor, w, v, outcome, _, h => by
    rw [applySlots] at h
    obtain ⟨-, rfl⟩ := Prod.mk.inj (Option.some.inj h)
    exact .refl w
  | item :: items, p, anchor, w, v, outcome, hinert, h => by
    obtain ⟨hsize, -, hkind⟩ := addSlot_views w.forest p anchor
    have hadd : Lasts (fun _ => True) w.forest (w.forest.addSlot p anchor).2.2 := by
      simp only [addSlot, snd_placed]
      exact .of_changes (.insertBefore (.create_leaf .refl rfl "") p _ _)
    rw [applySlots] at h
    simp only at h
    rcases heq : w.forest.addSlot p anchor with ⟨slot, fault | _, f⟩
    · rw [heq] at h hadd
      obtain ⟨-, rfl⟩ := Prod.mk.inj (Option.some.inj h)
      exact ⟨rfl, rfl, hadd⟩
    · rw [heq] at h hadd hkind hsize
      simp only at h hadd hkind hsize
      subst hsize
      obtain ⟨inner, u, hfirst, hrest⟩ := Activity.bind_eq_some_iff.1 h
      have hslot : w.Places (w.setForest f) := ⟨rfl, rfl, hadd⟩
      have hplaces := hslot.trans (places_applyTo item (w := w.setForest f) hinert.1 hkind hfirst)
      rcases inner with fault | _
      · obtain ⟨-, rfl⟩ := Prod.mk.inj (Option.some.inj hrest)
        exact hplaces.trans ⟨rfl, rfl, .refl _⟩
      · exact hplaces.trans (places_applySlots items hinert.2 hrest)

end

/-- To clear a container writes no data but that of its attributes. -/
theorem World.leavesAlone_cleared (hc : n ∉ w.forest.attributes m.container) (cls : String) :
    LeavesAlone n w (w.setForest (w.forest.cleared m.container cls)) := by
  have htake : Lasts (fun _ => True) w.forest (w.forest.takeChildren m.container).2 :=
    .of_changes (.takeChildren .refl _)
  have hset : Lasts (fun _ => False) (w.forest.takeChildren m.container).2
      (w.forest.emptiedWith m.container cls) :=
    .of_changes (.setAttr .refl (fun _ _ => id) _ _)
  have hrest (P : Kind → Prop) : Lasts P (w.forest.emptiedWith m.container cls)
      (w.forest.cleared m.container cls) :=
    .of_changes (.append (.create_leaf .refl rfl "") _ _)
  refine ⟨rfl, rfl, id, ?_, fun hn => ?_⟩
  · exact (Lasts.of_changes (.takeChildren .refl _)).trans (hset.trans (hrest _))
  · have hn' := hn.trans_le htake.size_le
    have hsame : (w.forest.emptiedWith m.container cls).data n =
        (w.forest.takeChildren m.container).2.data n :=
      data_setAttr_of_not_mem hn' (by simpa using hc) "class" cls
    rw [forest_setForest, (hrest fun _ => True).data_eq (hn'.trans_le hset.size_le) trivial, hsame,
      htake.data_eq hn trivial]

/-- To mount what runs no code leaves all nodes alone but the attributes of the container. -/
theorem Run.leavesAlone_mountAt {e : Expression} {fuel : ℕ} (hf : w.forest.Sound) (he : e.Inert)
    (hc : n ∉ w.forest.attributes m.container)
    (h : mountAt (Run.run fuel) m e cls w = some (outcome, v)) : World.LeavesAlone n w v := by
  by_cases helement : (w.forest.kind m.container).isElement = true
  · obtain ⟨-, -, hcleared⟩ := cleared_of_isElement hf helement (cls.getD m.defaultClass)
    rw [mountAt_eq_holding _ _ _ hf helement, holding_eq_some_iff] at h
    obtain ⟨u, hrun, rfl⟩ := h
    refine (World.leavesAlone_cleared hc (cls.getD m.defaultClass)).trans ?_
    cases fuel with
    | zero => cases hrun
    | succ fuel =>
      have hbinding := places_applyTo e (w := (w.setForest (w.forest.cleared m.container
        (cls.getD m.defaultClass))).holding _) he hcleared.kind_placeholder hrun
      have hplaces : (w.setForest (w.forest.cleared m.container (cls.getD m.defaultClass))).Places
          { u with held := w.held } :=
        ⟨hbinding.signals_eq, hbinding.routines_eq, hbinding.lasts⟩
      exact hplaces.leavesAlone n
  · rw [mountAt_of_not_isElement helement] at h
    obtain ⟨-, rfl⟩ := Prod.mk.inj (Option.some.inj h)
    have hplaces : w.Places ((w.setForest (w.forest.takeChildren m.container).2).dropped [e]) :=
      ⟨rfl, rfl, .of_changes (.takeChildren .refl _)⟩
    exact hplaces.leavesAlone n

/-! ### What goes on -/

namespace World

/-- What may go on while a live value is shown at a node. -/
inductive Proceeds (n : NodeId) : World → World → Prop
  | write (w : World) (d : Write) : Proceeds n w (w.modifyReactive (d.perform ·))
  | drain {w v : World} {count : ℕ} :
    Yields (fun run => run (.command .runMicrotasks)) w (.count count) v → Proceeds n w v
  /-- Another effect begins to look on; it shows nothing at this node. -/
  | attach {w v : World} {routine : Routine} : routine.Looks w.forest →
    routine.target? ≠ some n → Yields (fun run => Run.attach run routine) w () v → Proceeds n w v
  | edit (w : World) {op : Operation} : ¬ op.Writes →
    Proceeds n w (w.setForest (op.perform w.forest))
  /-- An expression that runs no code is bound to a comment. -/
  | apply {w v : World} {m : NodeId} {e : Expression} {fuel : ℕ}
    {outcome : Except RenderFault Unit} : e.Inert → w.forest.kind m = .comment →
    Run.run fuel (.apply e m) w = some (outcome, v) → Proceeds n w v
  | mount {w v : World} {m : Mount} {e : Expression} {cls : Option String} {fuel : ℕ}
    {outcome : Except RenderFault Unit} : w.forest.Sound → e.Inert →
    n ∉ w.forest.attributes m.container →
    mountAt (Run.run fuel) m e cls w = some (outcome, v) → Proceeds n w v
  | save (w : World) (m : Mount) : Proceeds n w { w with page := (w.page.save m).2 }
  /-- Any other work that touches neither signals nor this node. -/
  | other {w v : World} : LeavesAlone n w v → Proceeds n w v

/-- To move nodes, to bind and mount values, and to save screens is work that leaves the node
alone. -/
theorem Proceeds.cases (h : Proceeds n w v) : (∃ d : Write, v = w.modifyReactive (d.perform ·)) ∨
    (∃ count, Yields (fun run => run (.command .runMicrotasks)) w (.count count) v) ∨
    (∃ routine, routine.Looks w.forest ∧ routine.target? ≠ some n ∧
      Yields (fun run => Run.attach run routine) w () v) ∨ LeavesAlone n w v := by
  cases h with
  | write d => exact Or.inl ⟨d, rfl⟩
  | drain hdrain => exact Or.inr (Or.inl ⟨_, hdrain⟩)
  | attach hlooks hne hattach => exact Or.inr (Or.inr (Or.inl ⟨_, hlooks, hne, hattach⟩))
  | @edit op hop =>
    have hplaces : w.Places (w.setForest (op.perform w.forest)) :=
      ⟨rfl, rfl, .perform_of_not_writes hop⟩
    exact Or.inr (Or.inr (Or.inr (hplaces.leavesAlone n)))
  | @apply _ m e fuel _ he hm hrun =>
    cases fuel with
    | zero => cases hrun
    | succ fuel => exact Or.inr (Or.inr (Or.inr ((places_applyTo e he hm hrun).leavesAlone n)))
  | mount hf he hc hmount => exact Or.inr (Or.inr (Or.inr (leavesAlone_mountAt hf he hc hmount)))
  | save m =>
    have hplaces : w.Places { w with page := (w.page.save m).2 } := ⟨rfl, rfl, .save w.page m⟩
    exact Or.inr (Or.inr (Or.inr (hplaces.leavesAlone n)))
  | other hother => exact Or.inr (Or.inr (Or.inr hother))

/-- A live value is still attended to after one step. -/
theorem Attends.step {o : ℕ} {value : Spec} (h : w.Attends o value n) (hw : w.Calm)
    (hvalue : value.isOnRecord = true) (hv : Proceeds n w v) :
    v.Calm ∧ v.Attends o value n ∧ v.forest.kind n = w.forest.kind n := by
  rcases hv.cases with ⟨d, rfl⟩ | ⟨count, hdrain⟩ | ⟨routine, hlooks, hne, hattach⟩ | hother
  · exact ⟨hw.performing d, h.performing hw hvalue d, rfl⟩
  · obtain ⟨count', v', hdrain', hcalm, hattends, hrewrites, -⟩ := h.exists_runMicrotasks hw hvalue
    obtain ⟨-, rfl⟩ := hdrain.unique hdrain'
    exact ⟨hcalm, hattends, hrewrites.kind_eq n⟩
  · obtain ⟨-, rfl⟩ := hattach.unique (hw.yields_attach hlooks)
    exact ⟨hw.attached hlooks, h.attached hw.toOnlyLooks hvalue hne,
      (w.observed_attached routine).rewrites.kind_eq n⟩
  · exact ⟨hw.leftAlone hother, h.leftAlone hw.toOnlyLooks hvalue hother,
      hother.lasts.kind_eq (hw.showsText h.shows).lt_size⟩

end World

end LiveMarkup
