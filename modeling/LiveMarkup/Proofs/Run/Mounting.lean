import LiveMarkup.Proofs.Forest.Frames
import LiveMarkup.Proofs.Forest.History
import LiveMarkup.Proofs.Forest.Splicing
import LiveMarkup.Proofs.Run.Rendering
import LiveMarkup.Run.Session

/-!
# Mounting

A mount empties its container, sets the class, puts an empty comment into the container
(`Forest.Cleared`) and binds the value to that comment.  None of these steps is taken back when the
value is refused: `Run.mountAt_eq_error` says what a mount that fails leaves behind.
-/

namespace LiveMarkup

/-! ### Values that run no code -/

/-- Whether binding runs no script and shows no live value. -/
def Binding.Inert : Binding → Prop
  | .fail _ => True
  | .function _ _ _ => False
  | .setAttr _ _ => True
  | .listen _ _ _ => True
  | .capture _ => True
  | .live _ => False

namespace Expression

mutual

/-- Whether binding an expression runs no script and shows no live value. -/
def Inert : Expression → Prop
  | function b => b.Inert
  | iterable items => InertAll items
  | deferred _ => True
  | node _ => True
  | empty => True
  | text _ => True
  | number _ => True
  | bigint _ => True
  | capability _ _ => True

/-- Whether binding several expressions runs no script and shows no live value. -/
def InertAll : List Expression → Prop
  | [] => True
  | e :: es => e.Inert ∧ InertAll es

end

end Expression

namespace Run

open Forest

variable {run : Runner} {f g : Forest} {n p anchor : NodeId} {w w' : World}
  {outcome : Except RenderFault Unit}

@[simp] theorem forest_setForest (w : World) (f : Forest) : (w.setForest f).forest = f := rfl

/-- Placing a value at a node does to the world what it does to the forest. -/
theorem place_eq_some_iff {placement : Forest → Placed} :
    Activity.place placement w = some (outcome, w') ↔
      outcome = (placement w.forest).1 ∧ w' = w.setForest (placement w.forest).2 := by
  rw [Activity.place, Option.some.injEq, Prod.mk.injEq, eq_comm, @eq_comm _ w']

/-- What code that is inert does to the forest when it is bound to a comment: nothing. -/
theorem forest_bind_of_inert {b : Binding} (hb : b.Inert) (hn : w.forest.kind n = .comment)
    (h : bind run b n w = some (outcome, w')) : w'.forest = w.forest := by
  cases b with
  | fail fault =>
    obtain ⟨-, rfl⟩ := Prod.mk.inj (Option.some.inj h)
    rfl
  | setAttr name value =>
    change Activity.place (·.placeAttr n name value) w = some (outcome, w') at h
    obtain ⟨-, rfl⟩ := place_eq_some_iff.1 h
    simp [placeAttr, hn, Kind.isElement]
  | listen event routine once =>
    simp only [bind, Activity.get_bind, hn] at h
    obtain ⟨-, rfl⟩ := Prod.mk.inj (Option.some.inj h)
    rfl
  | capture slot =>
    obtain ⟨-, rfl⟩ := Prod.mk.inj (Option.some.inj h)
    rfl
  | function as commands result => exact hb.elim
  | live value => exact hb.elim

/-- Removing a comment detaches it. -/
theorem remove_of_comment (hn : f.kind n = .comment) : f.remove n = f.detach n := by
  rw [remove, owner_of_not_isAttr (by simp [hn, Kind.isAttr])]

/-- A slot is a new comment, whether there is a place for it or not. -/
theorem addSlot_views (f : Forest) (p anchor : NodeId) :
    (f.addSlot p anchor).1 = f.size ∧ (f.addSlot p anchor).2.2.size = f.size + 1 ∧
      (f.addSlot p anchor).2.2.kind f.size = .comment := by
  obtain ⟨hsize, hkind⟩ :=
    insertBefore_frame (f := (f.create .comment "").2) p f.size (some anchor)
  refine ⟨rfl, ?_, ?_⟩
  · simpa [addSlot] using hsize
  · simp [addSlot, hkind, kind_create]

theorem setAttr_of_comment (hn : f.kind n = .comment) (name value : String) :
    (f.setAttr n name value).2 = f := by
  simp [setAttr, requireElement, hn, Kind.isElement]

mutual

/-- Binding a value that runs no code to a comment moves the comment, if it is not refused, and the
nodes that the value holds. -/
theorem applyTo_spares : ∀ (e : Expression) {n : NodeId} {w w' : World}
    {outcome : Except RenderFault Unit}, e.Inert → w.forest.Sound → w.forest.kind n = .comment →
    n < w.forest.size → (∀ v ∈ e.heldNodes, v < w.forest.size) →
    applyTo run (bind run) n e w = some (outcome, w') →
    w'.forest.Sound ∧ Spares w.forest w'.forest (movedBy n e.heldNodes outcome)
  | .empty, n, w, w', outcome, _, hf, _, _, _, h => by
    rw [applyTo] at h
    obtain ⟨rfl, rfl⟩ := Prod.mk.inj (Option.some.inj h)
    exact ⟨hf, .refl _ _⟩
  | .text s, n, w, w', outcome, _, hf, hn, _, _, h => by
    rw [applyTo, place_eq_some_iff] at h
    obtain ⟨rfl, rfl⟩ := h
    exact ⟨sound_placeText hf hn _ _, spares_placeText hf hn _ _⟩
  | .number x, n, w, w', outcome, _, hf, hn, _, _, h => by
    rw [applyTo, place_eq_some_iff] at h
    obtain ⟨rfl, rfl⟩ := h
    exact ⟨sound_placeText hf hn _ _, spares_placeText hf hn _ _⟩
  | .bigint i, n, w, w', outcome, _, hf, hn, _, _, h => by
    rw [applyTo, place_eq_some_iff] at h
    obtain ⟨rfl, rfl⟩ := h
    exact ⟨sound_placeText hf hn _ _, spares_placeText hf hn _ _⟩
  | .node v, n, w, w', outcome, _, hf, hn, _, hheld, h => by
    rw [applyTo, place_eq_some_iff] at h
    obtain ⟨rfl, rfl⟩ := h
    exact spares_placeNode hf hn (hheld v List.mem_cons_self)
  | .capability name value, n, w, w', outcome, _, hf, hn, _, _, h => by
    rw [applyTo, place_eq_some_iff] at h
    obtain ⟨rfl, rfl⟩ := h
    rw [forest_setForest, snd_placed, setAttr_of_comment hn]
    exact ⟨hf, .refl _ _⟩
  | .function b, n, w, w', outcome, hinert, hf, hn, _, _, h => by
    rw [applyTo] at h
    rw [forest_bind_of_inert hinert hn h]
    exact ⟨hf, .refl _ _⟩
  | .deferred promise, n, w, w', outcome, _, hf, _, _, _, h => by
    rw [applyTo] at h
    obtain ⟨-, rfl⟩ := Prod.mk.inj (Option.some.inj h)
    exact ⟨hf, .refl _ _⟩
  | .iterable items, n, w, w', outcome, hinert, hf, hn, hsize, hheld, h => by
    rw [applyTo, Activity.get_bind, hn] at h
    rcases hp : w.forest.parent n with _ | p
    · rw [hp] at h
      obtain ⟨-, rfl⟩ := Prod.mk.inj (Option.some.inj h)
      exact ⟨hf, .refl _ _⟩
    · rw [hp] at h
      obtain ⟨inner, w₁, hslots, hrest⟩ := Activity.bind_eq_some_iff.1 h
      obtain ⟨hs, hspares⟩ := applySlots_spares items hinert hf hheld hslots
      rcases inner with fault | u
      · obtain ⟨rfl, rfl⟩ := Prod.mk.inj (Option.some.inj hrest)
        exact ⟨hs, hspares⟩
      · obtain ⟨rfl, rfl⟩ := Prod.mk.inj (Option.some.inj hrest)
        have hn' : w₁.forest.kind n = .comment := (hspares.kind_eq hsize).trans hn
        have hlast : Spares w₁.forest (w₁.forest.remove n) [n] := by
          rw [remove_of_comment hn']
          exact .detach _ n
        exact ⟨hs.remove n, (hspares.mono (List.subset_cons_self n _)).trans hf hlast
          (by simp [movedBy])⟩

/-- Binding several values, each to a slot of its own, moves the nodes that they hold. -/
theorem applySlots_spares : ∀ (items : List Expression) {p anchor : NodeId} {w w' : World}
    {outcome : Except RenderFault Unit}, Expression.InertAll items → w.forest.Sound →
    (∀ v ∈ Expression.heldNodesAll items, v < w.forest.size) →
    applySlots run (bind run) p anchor items w = some (outcome, w') →
    w'.forest.Sound ∧ Spares w.forest w'.forest (Expression.heldNodesAll items)
  | [], p, anchor, w, w', outcome, _, hf, _, h => by
    rw [applySlots] at h
    obtain ⟨-, rfl⟩ := Prod.mk.inj (Option.some.inj h)
    exact ⟨hf, .refl _ _⟩
  | item :: items, p, anchor, w, w', outcome, hinert, hf, hheld, h => by
    obtain ⟨hslot, hsize, hkind⟩ := addSlot_views w.forest p anchor
    obtain ⟨hs, hspares⟩ := spares_addSlot hf p anchor
    have hspares := hspares.mono (List.nil_subset (Expression.heldNodesAll (item :: items)))
    rw [applySlots] at h
    simp only at h
    rcases heq : w.forest.addSlot p anchor with ⟨slot, fault | u, f⟩
    · rw [heq] at hs hspares h
      obtain ⟨-, rfl⟩ := Prod.mk.inj (Option.some.inj h)
      exact ⟨hs, hspares⟩
    · rw [heq] at hs hspares hslot hsize hkind h
      simp only at hslot hsize hkind h
      subst hslot
      have hitem : ∀ v ∈ item.heldNodes, v < f.size := fun v hv =>
        (hheld v (List.mem_append_left _ hv)).trans_le hspares.size_le
      obtain ⟨inner, w₁, hfirst, hrest⟩ := Activity.bind_eq_some_iff.1 h
      obtain ⟨hs₁, hspares₁⟩ :=
        applyTo_spares item (w := w.setForest f) hinert.1 hs hkind (by simp [hsize]) hitem hfirst
      have hboth : Spares w.forest w₁.forest (Expression.heldNodesAll (item :: items)) := by
        refine hspares.trans hf hspares₁ fun m hm => ?_
        rcases List.mem_cons.1 (movedBy_subset _ _ _ hm) with rfl | hm
        · exact Or.inr le_rfl
        · exact Or.inl (List.mem_append_left _ hm)
      rcases inner with fault | u
      · obtain ⟨-, rfl⟩ := Prod.mk.inj (Option.some.inj hrest)
        exact ⟨hs₁, hboth⟩
      · obtain ⟨hs₂, hspares₂⟩ := applySlots_spares items hinert.2 hs₁ (fun v hv =>
          (hheld v (List.mem_append_right _ hv)).trans_le hboth.size_le) hrest
        exact ⟨hs₂, hboth.trans hf hspares₂ fun m hm => Or.inl (List.mem_append_right _ hm)⟩

end

end Run

/-! ### Clearing a container -/

theorem Kind.holdsChildren_of_isElement {k : Kind} (h : k.isElement = true) :
    k.holdsChildren = true := by
  cases k <;> simp_all [Kind.isElement, Kind.holdsChildren]

theorem toLower_class : "class".toLower = "class" := by decide +kernel

namespace Forest

/-- The container has been emptied and given a class, and its only child is a new empty comment. -/
structure Cleared (f g : Forest) (container : NodeId) (cls : String) (placeholder : NodeId) :
    Prop where
  size_le : f.size ≤ placeholder
  lt_size : placeholder < g.size
  sound : g.Sound
  kind_placeholder : g.kind placeholder = .comment
  data_placeholder : g.data placeholder = ""
  children_placeholder : g.children placeholder = []
  children_container : g.children container = [placeholder]
  attrValue_class : g.attrValue container "class" = some cls
  attrValue_eq {name : String} : name.toLower ≠ "class" →
    g.attrValue container name = f.attrValue container name
  parent_of_child {m : NodeId} : f.parent m = some container → g.parent m = none
  parent_eq {m : NodeId} : m < f.size → f.parent m ≠ some container → g.parent m = f.parent m
  children_eq {m : NodeId} : m ≠ container → g.children m = f.children m
  attributes_eq {m : NodeId} : m < f.size → m ≠ container → g.attributes m = f.attributes m
  kind_eq {m : NodeId} : m < f.size → g.kind m = f.kind m
  data_eq {m : NodeId} : m < f.size → f.attrNode container "class" ≠ some m →
    g.data m = f.data m

variable {f g : Forest} {c : NodeId}

/-- An element that has no children and a class, with a new comment as its child. -/
theorem exists_append_comment (hg : g.Sound) (hc : (g.kind c).isElement = true)
    (hempty : g.children c = []) :
    ∃ h, (g.create .comment "").2.append c g.size = (.ok (), h) ∧ h.Sound ∧
      h.size = g.size + 1 ∧ (∀ m, h.kind m = if m = g.size then .comment else g.kind m) ∧
      (∀ m, h.data m = if m = g.size then "" else g.data m) ∧
      (∀ m, h.attributes m = g.attributes m) ∧
      (∀ m, h.children m = if m = c then [g.size] else g.children m) ∧
      ∀ m, h.parent m = if m = g.size then some c else g.parent m := by
  have hcs : c < g.size := lt_size_of_isElement hc
  have hs : (g.create .comment "").2.Sound := hg.create .comment "" isSmall_empty
  have hloose := hg.loose_create (s := "") (k := .comment) rfl (by simp) hcs
  have hholds : ((g.create .comment "").2.kind c).holdsChildren = true := by
    rw [kind_create, if_neg hcs.ne]
    exact Kind.holdsChildren_of_isElement hc
  refine ⟨_, hs.append_of_loose hholds hloose, hs.insertAt hholds hloose le_rfl, by simp,
    fun m => by simp [kind_create], fun m => by simp [data_create], fun m => by simp,
    fun m => ?_, fun m => ?_⟩
  · rw [children_insertAt _ (lt_size_of_holdsChildren hholds)]
    simp [hempty]
  · rw [parent_insertAt _ hloose.lt_size hloose.not_isAttr, parent_create]

/-- Emptying an element, setting its class and putting a comment into it is not refused. -/
theorem exists_cleared (hf : f.Sound) (hc : (f.kind c).isElement = true) (cls : String) :
    ∃ g h, (f.takeChildren c).2.setClassName c cls = (.ok (), g) ∧
      (g.create .comment "").2.append c g.size = (.ok (), h) ∧ f.Cleared h c cls g.size := by
  have hf₀ : (f.takeChildren c).2.Sound := hf.takeChildren c
  have hc₀ : ((f.takeChildren c).2.kind c).isElement = true := by rwa [kind_takeChildren]
  have hcs : c < f.size := lt_size_of_isElement hc
  obtain ⟨g, heq, hset⟩ := exists_setAttr hf₀ hc₀ "class" cls
  have hg : g.Sound := by
    have hs := hf₀.setAttr c "class" cls
    rwa [heq] at hs
  have hsize : f.size ≤ g.size := by simpa using hset.size_le
  have hkind {m : NodeId} (hm : m < f.size) : g.kind m = f.kind m := by
    simpa using hset.kind_eq (m := m) (by simpa using hm)
  have hparent {m : NodeId} (hm : m < f.size) :
      g.parent m = if f.parent m = some c then none else f.parent m := by
    rw [← hf.parent_takeChildren_eq]
    have hm₀ : m < (f.takeChildren c).2.size := by simpa using hm
    exact parent_congr (hset.kind_eq hm₀) (hset.link_eq hm₀)
  have hempty : g.children c = [] := by
    rw [hset.children_eq, children_takeChildren, if_pos rfl]
  have hcg : (g.kind c).isElement = true := by rwa [hkind hcs]
  obtain ⟨h, happend, hs, hsize₁, hkind₁, hdata₁, hattrs₁, hchildren₁, hparent₁⟩ :=
    exists_append_comment hg hcg hempty
  have hne {m : NodeId} (hm : m < g.size) : m ≠ g.size := hm.ne
  have hvalue (name : String) : h.attrValue c name = g.attrValue c name := by
    have hown {a : NodeId} (ha : a ∈ g.attributes c) : a ≠ g.size :=
      hne (lt_size_of_owner (hg.mem_attributes_iff.1 ha))
    exact attrValue_congr (hattrs₁ c) (fun a ha => by rw [hkind₁, if_neg (hown ha)])
      (fun a ha => by rw [hdata₁, if_neg (hown ha)]) name
  have hold {m : NodeId} (hm : m < f.size) : m ≠ g.size := hne (hm.trans_le hsize)
  refine ⟨g, h, heq, happend, hsize, by rw [hsize₁]; exact g.size.lt_succ_self, hs, ?_, ?_, ?_, ?_,
    ?_, fun {name} hname => ?_, fun {m} hm => ?_, fun {m} hm hout => ?_, fun {m} hm => ?_,
    fun {m} hm hout => ?_, fun {m} hm => ?_, fun {m} hm hout => ?_⟩
  · rw [hkind₁, if_pos rfl]
  · rw [hdata₁, if_pos rfl]
  · rw [hchildren₁, if_neg (hold hcs).symm, children_of_size_le le_rfl]
  · rw [hchildren₁, if_pos rfl]
  · rw [hvalue, hset.attrValue_eq, if_pos rfl]
  · rw [hvalue, hset.attrValue_eq, if_neg (by rwa [toLower_class])]
    exact attrValue_congr (by simp) (by simp) (by simp) name
  · have hms : m < f.size := lt_size_of_parent hm
    rw [hparent₁, if_neg (hold hms), hparent hms, if_pos hm]
  · rw [hparent₁, if_neg (hold hm), hparent hm, if_neg hout]
  · rw [hchildren₁, if_neg hm, hset.children_eq, children_takeChildren, if_neg hm]
  · rw [hattrs₁, hset.attributes_eq hout, attributes_takeChildren]
  · rw [hkind₁, if_neg (hold hm), hkind hm]
  · rw [hdata₁, if_neg (hold hm), hset.data_eq (by simpa using hm), data_takeChildren]
    simpa [attrNode] using hout

/-- What a container still shows of an edit that spares all but some nodes: its class, the comment
that was put into it, and none of the children it had before, but for those nodes. -/
theorem Cleared.spared {cls : String} {placeholder : NodeId} {ns : List NodeId}
    (h : f.Cleared g c cls placeholder) (hc : (f.kind c).isElement = true)
    {k : Forest} (hk : Spares g k ns) (hns : ∀ v ∈ ns, v < f.size) :
    k.attrValue c "class" = some cls ∧ k.parent placeholder = some c ∧
      k.kind placeholder = .comment ∧
      ∀ m, f.parent m = some c → m ∉ ns → k.parent m = none := by
  have hcs : c < f.size := lt_size_of_isElement hc
  have hle : f.size ≤ g.size := h.size_le.trans h.lt_size.le
  have hparent : g.parent placeholder = some c := by
    rw [← h.sound.mem_children_iff, h.children_container]
    exact List.mem_singleton_self placeholder
  refine ⟨?_, ?_, (hk.kind_eq h.lt_size).trans h.kind_placeholder, fun m hm hout => ?_⟩
  · have hown {a : NodeId} (ha : a ∈ g.attributes c) : a < g.size :=
      lt_size_of_owner (h.sound.mem_attributes_iff.1 ha)
    rw [← h.attrValue_class]
    exact attrValue_congr (hk.attributes_eq (hcs.trans_le hle))
      (fun a ha => hk.kind_eq (hown ha)) (fun a ha => hk.data_eq (hown ha)) "class"
  · rw [← hparent]
    refine hk.parent_eq h.lt_size (fun hin => ?_) fun v _ hfr hv => ?_
    · exact absurd (hns placeholder hin) (Nat.not_lt.2 h.size_le)
    · obtain rfl : c = v := Option.some.inj (hparent.symm.trans hv)
      rw [h.kind_eq hcs] at hfr
      simp [hfr, Kind.isElement] at hc
  · have hnone : g.parent m = none := h.parent_of_child hm
    rw [← hnone]
    refine hk.parent_eq ((lt_size_of_parent hm).trans_le hle) hout fun v _ _ hv => ?_
    rw [hnone] at hv
    cases hv

end Forest

/-! ### A mount that fails -/

namespace Run

open Forest

variable {m : Mount} {e : Expression} {cls : Option String} {w w' : World} {fault : RenderFault}

theorem mountAt_of_not_isElement {run : Runner}
    (hc : ¬ (w.forest.kind m.container).isElement = true) :
    mountAt run m e cls w = some
      (.error (.forest (.wrongKind .element (w.forest.kind m.container))),
        (w.setForest (w.forest.takeChildren m.container).2).dropped [e]) := by
  have hset : (w.forest.takeChildren m.container).2.setClassName m.container
      (cls.getD m.defaultClass) = (.error (.wrongKind .element (w.forest.kind m.container)),
        (w.forest.takeChildren m.container).2) := by
    simp [setClassName, setAttr, requireElement, hc]
  rw [mountAt]
  simp only [hset]
  rfl

theorem mountAt_of_isElement (run : Runner) (e : Expression) (cls : Option String)
    (hf : w.forest.Sound) (hc : (w.forest.kind m.container).isElement = true) :
    ∃ placeholder g, w.forest.Cleared g m.container (cls.getD m.defaultClass) placeholder ∧
      mountAt run m e cls w = Activity.holding (placeholder :: m.container :: e.heldNodes)
        (run (.apply e placeholder)) (w.setForest g) := by
  obtain ⟨g, h, hset, happend, hcleared⟩ := exists_cleared hf hc (cls.getD m.defaultClass)
  refine ⟨g.size, h, hcleared, ?_⟩
  rw [mountAt]
  simp only [hset, fst_create, happend]

/-- Nodes are held while something is done, and no longer. -/
theorem holding_eq_some_iff {α : Type} {nodes : List NodeId} {action : Activity α} {x : α} :
    Activity.holding nodes action w = some (x, w') ↔
      ∃ w₁, action (w.holding nodes) = some (x, w₁) ∧ w' = { w₁ with held := w.held } := by
  rw [Activity.holding, Activity.get_bind, Activity.modify_bind, Activity.bind_eq_some_iff]
  constructor
  · rintro ⟨y, w₁, haction, hrest⟩
    obtain ⟨rfl, rfl⟩ := Prod.mk.inj (Option.some.inj hrest)
    exact ⟨w₁, haction, rfl⟩
  · rintro ⟨w₁, haction, rfl⟩
    exact ⟨x, w₁, haction, rfl⟩

/-- A screen with a class that shows a text. -/
def homeForest : Forest :=
  (Forest.empty.plant (.element "main" [⟨"class", "home"⟩] [.text "Hi"])).2

/-- A fresh world with the screen. -/
def homeWorld : World := (World.fresh "").setForest homeForest

theorem sound_homeWorld : homeWorld.forest.Sound := by
  refine Sound.empty.plant _ ⟨?_, by decide, trivial, trivial⟩
  intro a ha
  obtain rfl := List.mem_singleton.1 ha
  exact toLower_class

end Run

end LiveMarkup
