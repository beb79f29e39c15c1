import LiveMarkup.Proofs.Run.Mounting
import LiveMarkup.Proofs.Run.Outside

/-!
# Saving a screen and mounting it again

To save a screen moves the children of its container to a new fragment.  Other screens may then be
mounted and saved at the same container, and other work may go on, as long as nothing touches the
saved nodes (`Interlude`); to mount the fragment gives the container its former children back, each
with all that is inside it, and nothing else (`remount_save`).

The saved nodes stay as they are because no other node leads to them, which all that happens in
between keeps so (`Interlude.outside`).  Screens that run no code and hold none of the saved nodes
never touch them (`Interlude.mount_of_inert`).
-/

namespace LiveMarkup

open Forest Run

variable {S : Set NodeId} {f g h k : Forest} {c n : NodeId} {m : Mount} {w u v : World}
  {cls : String}

/-! ### Clearing the container -/

/-- No step of clearing an element is refused. -/
theorem Forest.cleared_of_isElement (hf : f.Sound) (hc : (f.kind c).isElement = true)
    (cls : String) :
    (f.takeChildren c).2.setClassName c cls = (.ok (), f.emptiedWith c cls) ∧
      ((f.emptiedWith c cls).create .comment "").2.append c (f.emptiedWith c cls).size =
        (.ok (), f.cleared c cls) ∧
      f.Cleared (f.cleared c cls) c cls (f.emptiedWith c cls).size := by
  obtain ⟨g, h, hset, happend, hcleared⟩ := exists_cleared hf hc cls
  obtain rfl : f.emptiedWith c cls = g := congrArg Prod.snd hset
  obtain rfl : f.cleared c cls = h := congrArg Prod.snd happend
  exact ⟨hset, happend, hcleared⟩

/-- To mount a value at an element clears it and binds the value to its new comment. -/
theorem Run.mountAt_eq_holding (run : Runner) (e : Expression) (cls : Option String)
    (hf : w.forest.Sound) (hc : (w.forest.kind m.container).isElement = true) :
    mountAt run m e cls w = Activity.holding
      ((w.forest.emptiedWith m.container (cls.getD m.defaultClass)).size :: m.container ::
        e.heldNodes)
      (run (.apply e (w.forest.emptiedWith m.container (cls.getD m.defaultClass)).size))
      (w.setForest (w.forest.cleared m.container (cls.getD m.defaultClass))) := by
  obtain ⟨hset, happend, -⟩ := cleared_of_isElement hf hc (cls.getD m.defaultClass)
  rw [mountAt]
  simp only [hset, fst_create, happend]

/-- A value has been mounted at the container, which is still of the same kind. -/
def Mount.Serves (m : Mount) (f : Forest) : Prop :=
  ∃ (run : Runner) (e : Expression) (cls : Option String) (v v' : World),
    mountAt run m e cls v = some (.ok (), v') ∧ f.kind m.container = v.forest.kind m.container

/-- The containers at which values can be mounted are the elements. -/
theorem Mount.serves_iff (hf : f.Sound) :
    m.Serves f ↔ (f.kind m.container).isElement = true := by
  constructor
  · rintro ⟨run, e, cls, v, v', hmount, hkind⟩
    rw [hkind]
    by_contra hc
    rw [mountAt_of_not_isElement hc] at hmount
    cases hmount
  · intro hc
    have hmount :=
      mountAt_eq_holding (w := (World.fresh "").setForest f) (Run.run 1) .empty none hf hc
    exact ⟨Run.run 1, .empty, none, _, _, hmount, rfl⟩

/-! ### What may happen in between -/

/-- What may happen while nodes in `S` are saved: values are mounted at the container and bound
without work on these nodes, screens are saved, and any other work is done outside. -/
inductive Interlude (c : NodeId) (S : Set NodeId) : World → World → Prop
  | refl (w : World) : Interlude c S w w
  | mount {w u v : World} {m : Mount} {e : Expression} {cls : Option String} {fuel : ℕ}
    {outcome : Except RenderFault Unit} : Interlude c S w u → m.container = c →
    mountAt (Run.run fuel) m e cls u = some (outcome, v) →
    Outside S (u.forest.cleared c (cls.getD m.defaultClass)) v.forest → Interlude c S w v
  | save {w u : World} (m : Mount) : Interlude c S w u → m.container = c →
    Interlude c S w { u with page := (u.page.save m).2 }
  | work {w u v : World} : Interlude c S w u → Outside S u.forest v.forest → Interlude c S w v

/-- All that happens is work outside. -/
theorem Interlude.outside (hi : Interlude c S w v) (hw : w.forest.Sealed S)
    (hc : w.forest.Open S c) : Outside S w.forest v.forest := by
  induction hi with
  | refl => exact .refl _
  | mount _ _ _ hbinding ih =>
    have havoids := ih.avoids hw
    exact ih.trans ((Outside.cleared havoids.seals (havoids.open_mono hc) _).trans hbinding)
  | save m _ hm ih =>
    have havoids := ih.avoids hw
    subst hm
    exact ih.trans (.save havoids.seals (havoids.open_mono hc))
  | work _ hwork ih => exact ih.trans hwork

/-! ### Screens that run no code -/

/-- A text in the place of a comment outside. -/
theorem Forest.outside_placeText (hf : f.Sealed S) (hk : f.kind n = .comment) (hn : f.Open S n)
    (kind s : String) : Outside S f (f.placeText n kind s).2 := by
  simp only [placeText, hk, fst_create, snd_placed]
  have hnew : Outside S f (f.create .text s).2 := .perform (.text s) (List.forall_mem_nil _)
  refine hnew.trans (.perform (.replaceWith n [f.size]) (List.forall_mem_cons.2
    ⟨(hnew.avoids hf).open_mono hn, List.forall_mem_singleton.2 (Avoids.open_create hf .text s)⟩))

/-- A node in the place of a comment outside. -/
theorem Forest.outside_placeNode {v : NodeId} (hk : f.kind n = .comment) (hn : f.Open S n)
    (hv : f.Open S v) : Outside S f (f.placeNode n v).2 := by
  unfold placeNode
  split_ifs with hattr helement
  · simp [hk, Kind.isElement] at helement
  · exact .refl f
  · simp only [hk, snd_placed]
    exact .perform (.replaceWith n [v])
      (List.forall_mem_cons.2 ⟨hn, List.forall_mem_singleton.2 hv⟩)

/-- A new comment before a comment outside. -/
theorem Forest.outside_addSlot {p anchor : NodeId} (hf : f.Sealed S) (hp : f.Open S p)
    (ha : f.Open S anchor) : Outside S f (f.addSlot p anchor).2.2 := by
  simp only [addSlot, fst_create, snd_placed]
  have hnew : Outside S f (f.create .comment "").2 :=
    .perform (.comment "") (List.forall_mem_nil _)
  have havoids := hnew.avoids hf
  refine hnew.trans (.perform (.insertBefore p f.size (some anchor)) ?_)
  simp only [Operation.operands, Option.toList_some, List.forall_mem_cons]
  exact ⟨havoids.open_mono hp, Avoids.open_create hf .comment "", havoids.open_mono ha,
    List.forall_mem_nil _⟩

mutual

/-- To bind a value that runs no code and holds no node of `S` is work outside `S`. -/
theorem Run.outside_applyTo {run : Runner} : ∀ (e : Expression) {n : NodeId} {w w' : World}
    {outcome : Except RenderFault Unit}, e.Inert → w.forest.Sealed S →
    w.forest.kind n = .comment → w.forest.Open S n → (∀ v ∈ e.heldNodes, w.forest.Open S v) →
    applyTo run (bind run) n e w = some (outcome, w') → Outside S w.forest w'.forest
  | .empty, n, w, w', outcome, _, _, _, _, _, h => by
    rw [applyTo] at h
    obtain ⟨-, rfl⟩ := Prod.mk.inj (Option.some.inj h)
    exact .refl _
  | .text s, n, w, w', outcome, _, hf, hk, hn, _, h => by
    rw [applyTo, place_eq_some_iff] at h
    obtain ⟨-, rfl⟩ := h
    exact outside_placeText hf hk hn _ _
  | .number x, n, w, w', outcome, _, hf, hk, hn, _, h => by
    rw [applyTo, place_eq_some_iff] at h
    obtain ⟨-, rfl⟩ := h
    exact outside_placeText hf hk hn _ _
  | .bigint i, n, w, w', outcome, _, hf, hk, hn, _, h => by
    rw [applyTo, place_eq_some_iff] at h
    obtain ⟨-, rfl⟩ := h
    exact outside_placeText hf hk hn _ _
  | .node v, n, w, w', outcome, _, _, hk, hn, hheld, h => by
    rw [applyTo, place_eq_some_iff] at h
    obtain ⟨-, rfl⟩ := h
    exact outside_placeNode hk hn (hheld v List.mem_cons_self)
  | .capability name value, n, w, w', outcome, _, _, hk, _, _, h => by
    rw [applyTo, place_eq_some_iff] at h
    obtain ⟨-, rfl⟩ := h
    rw [forest_setForest, snd_placed, setAttr_of_comment hk]
    exact .refl _
  | .function b, n, w, w', outcome, hinert, _, hk, _, _, h => by
    rw [applyTo] at h
    rw [forest_bind_of_inert hinert hk h]
    exact .refl _
  | .deferred promise, n, w, w', outcome, _, _, _, _, _, h => by
    rw [applyTo] at h
    obtain ⟨-, rfl⟩ := Prod.mk.inj (Option.some.inj h)
    exact .refl _
  | .iterable items, n, w, w', outcome, hinert, hf, hk, hn, hheld, h => by
    rw [applyTo, Activity.get_bind, hk] at h
    rcases hp : w.forest.parent n with _ | p
    · rw [hp] at h
      obtain ⟨-, rfl⟩ := Prod.mk.inj (Option.some.inj h)
      exact .refl _
    · rw [hp] at h
      obtain ⟨inner, w₁, hslots, hrest⟩ := Activity.bind_eq_some_iff.1 h
      have hwork := outside_applySlots items hinert hf (hf.parent hn.not_mem hp) hn hheld hslots
      rcases inner with fault | _
      · obtain ⟨-, rfl⟩ := Prod.mk.inj (Option.some.inj hrest)
        exact hwork
      · obtain ⟨-, rfl⟩ := Prod.mk.inj (Option.some.inj hrest)
        exact hwork.trans (.perform (.remove n)
          (List.forall_mem_singleton.2 ((hwork.avoids hf).open_mono hn)))

/-- To bind several such values, each to a slot of its own, is work outside `S`. -/
theorem Run.outside_applySlots {run : Runner} : ∀ (items : List Expression) {p anchor : NodeId}
    {w w' : World} {outcome : Except RenderFault Unit}, Expression.InertAll items →
    w.forest.Sealed S → w.forest.Open S p → w.forest.Open S anchor →
    (∀ v ∈ Expression.heldNodesAll items, w.forest.Open S v) →
    applySlots run (bind run) p anchor items w = some (outcome, w') →
    Outside S w.forest w'.forest
  | [], p, anchor, w, w', outcome, _, _, _, _, _, h => by
    rw [applySlots] at h
    obtain ⟨-, rfl⟩ := Prod.mk.inj (Option.some.inj h)
    exact .refl _
  | item :: items, p, anchor, w, w', outcome, hinert, hf, hp, ha, hheld, h => by
    obtain ⟨hsize, -, hkind⟩ := addSlot_views w.forest p anchor
    have hadd : Outside S w.forest (w.forest.addSlot p anchor).2.2 := outside_addSlot hf hp ha
    obtain ⟨havoids, hslot⟩ := Avoids.addSlot hf hp anchor
    rw [applySlots] at h
    simp only at h
    rcases heq : w.forest.addSlot p anchor with ⟨slot, fault | _, f⟩
    · rw [heq] at h hadd
      obtain ⟨-, rfl⟩ := Prod.mk.inj (Option.some.inj h)
      exact hadd
    · rw [heq] at h hadd havoids hslot hkind hsize
      simp only at h hadd havoids hslot hkind hsize
      subst hsize
      obtain ⟨inner, w₁, hfirst, hrest⟩ := Activity.bind_eq_some_iff.1 h
      have hitem : Outside S f w₁.forest :=
        outside_applyTo item (w := w.setForest f) hinert.1 havoids.seals hkind hslot
          (havoids.all_mono fun v hv => hheld v (List.mem_append_left _ hv)) hfirst
      have hboth := hadd.trans hitem
      have hboth' := hboth.avoids hf
      rcases inner with fault | _
      · obtain ⟨-, rfl⟩ := Prod.mk.inj (Option.some.inj hrest)
        exact hboth
      · exact hboth.trans (outside_applySlots items hinert.2 hboth'.seals (hboth'.open_mono hp)
          (hboth'.open_mono ha)
          (hboth'.all_mono fun v hv => hheld v (List.mem_append_right _ hv)) hrest)

end

/-- A screen that runs no code and holds no saved node may be mounted in between. -/
theorem Interlude.mount_of_inert {e : Expression} {cls : Option String} {fuel : ℕ}
    {outcome : Except RenderFault Unit} (hi : Interlude c S w u) (hw : w.forest.Sound)
    (hsealed : w.forest.Sealed S) (hc : w.forest.Open S c)
    (helement : (w.forest.kind c).isElement = true) (hm : m.container = c) (he : e.Inert)
    (hheld : ∀ v ∈ e.heldNodes, u.forest.Open S v)
    (h : mountAt (Run.run fuel) m e cls u = some (outcome, v)) : Interlude c S w v := by
  subst hm
  have hwork := hi.outside hsealed hc
  have havoids := hwork.avoids hsealed
  have helement' : (u.forest.kind m.container).isElement = true := by
    rwa [(hwork.lasts hw).kind_eq hc.lt]
  obtain ⟨-, -, hcleared⟩ :=
    cleared_of_isElement (hwork.sound hw) helement' (cls.getD m.defaultClass)
  have hmount := mountAt_eq_holding (Run.run fuel) e cls (hwork.sound hw) helement'
  obtain ⟨w₁, hrun, rfl⟩ := holding_eq_some_iff.1 (hmount.symm.trans h)
  have hclear := Outside.cleared havoids.seals (havoids.open_mono hc) (cls.getD m.defaultClass)
  have hclear' := hclear.avoids havoids.seals
  refine hi.mount rfl h ?_
  cases fuel with
  | zero => cases hrun
  | succ fuel =>
    have hplaceholder : (u.forest.cleared m.container (cls.getD m.defaultClass)).Open S
        (u.forest.emptiedWith m.container (cls.getD m.defaultClass)).size :=
      ⟨hcleared.lt_size, fun hin => (havoids.seals.lt hin).not_ge hcleared.size_le⟩
    have hbinding := outside_applyTo e (w := (u.setForest (u.forest.cleared m.container
      (cls.getD m.defaultClass))).holding _) he hclear'.seals hcleared.kind_placeholder
      hplaceholder (hclear'.all_mono hheld) hrun
    exact hbinding

/-! ### Mounting the fragment -/

/-- In `k` the container has the children again that it had in `f`; in `h` the fragment held them,
and the container showed something else. -/
structure Forest.Remounted (f h k : Forest) (c fragment : NodeId) (cls : String) : Prop where
  sound : k.Sound
  children_container : k.children c = f.children c
  /-- Each child is as it was, with all that is inside it and the listeners on the way. -/
  cell_eq {n : NodeId} : n ∈ f.shown c → k.cell n = f.cell n
  children_fragment : k.children fragment = []
  attrValue_class : k.attrValue c "class" = some cls
  /-- What the container showed in between has been detached. -/
  parent_of_child {n : NodeId} : h.parent n = some c → k.parent n = none
  /-- No comment that mounting made is left. -/
  parent_of_new {n : NodeId} : h.size ≤ n → k.parent n = none

theorem Forest.cell_eq_of_views (hkind : g.kind n = f.kind n) (hdata : g.data n = f.data n)
    (hlink : g.link n = f.link n) (hchildren : g.children n = f.children n)
    (hattributes : g.attributes n = f.attributes n) (hlisteners : g.listeners n = f.listeners n) :
    g.cell n = f.cell n := by
  simp only [kind, data, link, children, attributes, listeners] at *
  cases hg : g.cell n
  cases hf : f.cell n
  simp_all

theorem Forest.Changes.placeNode {W : Kind → Prop} (h : Changes W f g) (n v : NodeId) :
    Changes W f (g.placeNode n v).2 := by
  unfold Forest.placeNode
  split_ifs
  · rw [snd_placed]
    exact h.setAttrNode n v
  · exact h
  · split
    · rw [snd_placed]
      exact h.replaceWith n [v]
    · rw [snd_placed]
      exact h.append n v
    · exact h

/-- No node of a sealed set is above a node outside. -/
theorem Forest.Sealed.not_above (hf : f.Sealed S) {a : NodeId} (ha : a ∈ S) (hn : f.Open S n) :
    ¬ f.Above a n := by
  intro h
  induction h with
  | refl => exact hn.not_mem ha
  | tail _ hparent ih => exact ih (hf.parent hn.not_mem hparent)

/-- The container has its former children back, and the fragment has none. -/
theorem Forest.children_placed (hh : h.Sound) (hc : (h.kind c).isElement = true) (cls : String)
    (hk : Redraws (h.cleared c cls) k (h.emptiedWith c cls).size (f.children c) [f.size])
    (q : NodeId) : k.children q =
      if q = f.size then [] else if q = c then f.children c else h.children q := by
  obtain ⟨-, -, hcleared⟩ := cleared_of_isElement hh hc cls
  rw [hk.children_eq]
  simp only [List.mem_singleton]
  split_ifs with hq hqc
  · rfl
  · rw [hqc, hcleared.children_container, replaced_singleton]
  · rw [hcleared.children_eq hqc, replaced_of_not_mem]
    intro hin
    exact (lt_size_of_parent (hh.mem_children_iff.1 hin)).not_ge hcleared.size_le

section Place

variable (hf : f.Sound) (hs : Saves f g c) (hcs : c < f.size)
  (hgh : Avoids (insert f.size (f.shown c)) g h)

include hf hs hcs hgh

/-- Clearing the container leaves the saved nodes as they are. -/
theorem Forest.Saves.avoids_cleared (cls : String) :
    Avoids (insert f.size (f.shown c)) g (h.cleared c cls) :=
  hgh.trans ((Outside.cleared hgh.seals (hgh.open_mono (hs.open_container hf hcs)) cls).avoids
    hgh.seals)

variable (hh : h.Sound) (hc : (h.kind c).isElement = true)

include hh hc

/-- When the container has been cleared, the fragment can take the place of its new comment. -/
theorem Forest.Saves.exists_placed (cls : String) :
    ∃ k, (h.cleared c cls).placeNode (h.emptiedWith c cls).size f.size = (.ok (), k) ∧
      Redraws (h.cleared c cls) k (h.emptiedWith c cls).size (f.children c) [f.size] := by
  obtain ⟨-, -, hcleared⟩ := cleared_of_isElement hh hc cls
  have havoids := hs.avoids_cleared hf hcs hgh cls
  have hcell : (h.cleared c cls).cell f.size = g.cell f.size :=
    havoids.cell_eq (Set.mem_insert _ _)
  have hkind : (h.cleared c cls).kind f.size = .fragment :=
    (congrArg Cell.kind hcell).trans hs.kind_fragment
  have hchildren : (h.cleared c cls).children f.size = f.children c :=
    (congrArg Cell.children hcell).trans hs.children_fragment
  have hplaceholder : (h.cleared c cls).parent (h.emptiedWith c cls).size = some c := by
    rw [← hcleared.sound.mem_children_iff, hcleared.children_container]
    exact List.mem_singleton_self _
  have hfree : Free (h.cleared c cls) c f.size := by
    refine ⟨hs.lt_size.trans_le havoids.size_le, by simp [hkind, Kind.isAttr], ?_,
      havoids.seals.not_above (Set.mem_insert _ _)
        (havoids.open_mono (hs.open_container hf hcs))⟩
    refine Option.eq_none_iff_forall_ne_some.2 fun q hq => ?_
    exact hcleared.sound.ne_fragment_of_parent hq hkind
  obtain ⟨k, hplace, hredraws⟩ :=
    exists_redraws_node hcleared.sound hcleared.kind_placeholder hplaceholder hfree
  rw [(pickUp_of_fragment hkind).1, hchildren, emptied, if_pos hkind] at hredraws
  exact ⟨k, hplace, hredraws⟩

/-- Saving and placing together leave the nodes that are saved as they were. -/
theorem Forest.Saves.cell_placed (hlisteners : ∀ m, g.listeners m = f.listeners m) (cls : String)
    (hplace : (h.cleared c cls).placeNode (h.emptiedWith c cls).size f.size = (.ok (), k))
    (hk : Redraws (h.cleared c cls) k (h.emptiedWith c cls).size (f.children c) [f.size])
    (hn : n ∈ f.shown c) : k.cell n = f.cell n := by
  have hj := hs.avoids_cleared hf hcs hgh cls
  have hold {m : NodeId} (hm : m ∈ f.shown c) : m < f.size ∧ m < (h.cleared c cls).size ∧
      (h.cleared c cls).cell m = g.cell m := by
    have hlt : m < f.size := lt_size_of_mem_shown hf hm
    exact ⟨hlt, hlt.trans (hs.lt_size.trans_le hj.size_le),
      hj.cell_eq (Set.mem_insert_of_mem _ hm)⟩
  have hkind {m : NodeId} (hm : m ∈ f.shown c) : k.kind m = f.kind m := by
    obtain ⟨hlt, hlt', hcell⟩ := hold hm
    rw [hk.kind_eq hlt', show (h.cleared c cls).kind m = g.kind m from congrArg Cell.kind hcell,
      hs.kind_eq, if_neg hlt.ne]
  have hattributes {m : NodeId} (hm : m ∈ f.shown c) : k.attributes m = f.attributes m := by
    obtain ⟨-, hlt', hcell⟩ := hold hm
    rw [hk.attributes_eq hlt',
      show (h.cleared c cls).attributes m = g.attributes m from congrArg Cell.attributes hcell,
      hs.attributes_eq]
  have hchildren {m : NodeId} (hm : m ∈ f.shown c) : k.children m = f.children m := by
    have hne : m ≠ c := fun heq => not_mem_shown hf (heq ▸ hm)
    rw [children_placed hh hc cls hk, if_neg (hold hm).1.ne, if_neg hne,
      show h.children m = g.children m from
        congrArg Cell.children (hgh.cell_eq (Set.mem_insert_of_mem _ hm)),
      hs.children_eq, if_neg (hold hm).1.ne, if_neg hne]
  obtain ⟨hlt, hlt', hcell⟩ := hold hn
  refine cell_eq_of_views (hkind hn) ?_ ?_ (hchildren hn) (hattributes hn) ?_
  · rw [hk.data_eq hlt', show (h.cleared c cls).data n = g.data n from congrArg Cell.data hcell,
      hs.data_eq hlt]
  · -- What holds the node holds it again, since it has the same children or attribute nodes.
    rcases cases_of_mem_shown hf hn with ⟨p, hp, hpc⟩ | ⟨e, ho, he⟩
    · have hkids : k.children p = f.children p := by
        rcases hpc with rfl | ⟨-, hpc⟩
        · rw [children_placed hh hc cls hk, if_neg hcs.ne, if_pos rfl]
        · exact hchildren hpc
      have hp' : k.parent n = some p := by
        rw [← hk.sound.mem_children_iff, hkids, hf.mem_children_iff, hp]
      have hattr := not_isAttr_of_parent hp
      rw [parent_eq_link, if_neg hattr] at hp
      rw [parent_eq_link, hkind hn, if_neg hattr] at hp'
      rw [hp, hp']
    · have ho' : k.owner n = some e := by
        rw [← hk.sound.mem_attributes_iff, hattributes he, hf.mem_attributes_iff, ho]
      have hattr := isAttr_of_owner ho
      rw [owner_eq_link, if_pos hattr] at ho
      rw [owner_eq_link, hkind hn, if_pos hattr] at ho'
      rw [ho, ho']
  · have hplaced : k.listeners n = (h.cleared c cls).listeners n := by
      have hview := listeners_of_changes (.placeNode (f := h.cleared c cls) .refl
        (h.emptiedWith c cls).size f.size) n
      rwa [hplace] at hview
    rw [hplaced, show (h.cleared c cls).listeners n = g.listeners n from
      congrArg Cell.listeners hcell, hlisteners]

/-- The fragment is mounted in the place of the comment. -/
theorem Forest.Saves.remounted (hlisteners : ∀ m, g.listeners m = f.listeners m) (cls : String)
    (hplace : (h.cleared c cls).placeNode (h.emptiedWith c cls).size f.size = (.ok (), k))
    (hk : Redraws (h.cleared c cls) k (h.emptiedWith c cls).size (f.children c) [f.size]) :
    Remounted f h k c f.size cls := by
  obtain ⟨-, -, hcleared⟩ := cleared_of_isElement hh hc cls
  have hchildren := children_placed hh hc cls hk
  have hcs' : c < (h.cleared c cls).size :=
    (lt_size_of_isElement hc).trans_le (hcleared.size_le.trans hcleared.lt_size.le)
  refine ⟨hk.sound, ?_, hs.cell_placed hf hcs hgh hh hc hlisteners cls hplace hk, ?_, ?_,
    fun {n} hn => ?_, fun {n} hn => ?_⟩
  · rw [hchildren, if_neg hcs.ne, if_pos rfl]
  · rw [hchildren, if_pos rfl]
  · rw [hcleared.sound.attrValue_eq (hk.attributes_eq hcs') hk.kind_eq hk.data_eq,
      hcleared.attrValue_class]
  · refine Option.eq_none_iff_forall_ne_some.2 fun q hq => ?_
    rw [← hk.sound.mem_children_iff, hchildren] at hq
    split_ifs at hq with hqf hqc
    · cases hq
    · -- A former child is held by the fragment in between, so it is none of the present children.
      have hshown := mem_shown_of_parent_eq hf (hf.mem_children_iff.1 hq)
      have hout := (hgh.open_mono (hs.open_container hf hcs)).not_mem
      exact (hgh.seals.child hout (hh.mem_children_iff.2 hn)).not_mem
        (Set.mem_insert_of_mem _ hshown)
    · exact hqc (Option.some.inj ((hh.mem_children_iff.1 hq).symm.trans hn))
  · refine Option.eq_none_iff_forall_ne_some.2 fun q hq => ?_
    rw [← hk.sound.mem_children_iff, hchildren] at hq
    have hfh : f.size ≤ h.size := hs.lt_size.le.trans hgh.size_le
    split_ifs at hq
    · cases hq
    · exact (lt_size_of_parent (hf.mem_children_iff.1 hq)).not_ge (hfh.trans hn)
    · exact (lt_size_of_parent (hh.mem_children_iff.1 hq)).not_ge hn

end Place

/-! ### Saving and mounting again -/

/-- The page after a container has been saved. -/
theorem Page.saves_save (page : Page) (hf : page.forest.Sound) (m : Mount) :
    Saves page.forest (page.save m).2.forest m.container ∧
      ∀ n, (page.save m).2.forest.listeners n = page.forest.listeners n := by
  have hlist : (page.save m).2.forest = Page.appendAll
      ((page.forest.create .fragment "").2.takeChildren m.container).2 page.forest.size
      (page.forest.children m.container) := by
    simp only [Page.save, Forest.takeChildren, fst_create, children_create]
  rw [hlist]
  refine ⟨saves_appendAll hf m.container, fun n => ?_⟩
  exact hlist ▸ listeners_of_changes (.save .refl m) n

/-- To save a screen puts the children of its container into a fragment, in their order, and leaves
the container empty.  Whatever screens are then mounted at the container and saved, and whatever
else goes on outside the saved nodes, mounting the fragment succeeds.  The container then has
exactly the same children again, with all that is inside them; the fragment is empty, the class is
the given one or that of the mount, no comment is left, and what was shown before is detached. -/
theorem remount_save (m : Mount) (w : World) (hw : w.forest.Sound) (hm : m.Serves w.forest) :
    let fragment := (w.page.save m).1
    let saved : World := { w with page := (w.page.save m).2 }
    (saved.forest.kind fragment = .fragment ∧
      saved.forest.children fragment = w.forest.children m.container ∧
      saved.forest.children m.container = []) ∧
    ∀ u, Interlude m.container (insert fragment (w.forest.shown m.container)) saved u →
      ∀ (fuel : ℕ) (cls : Option String),
        ∃ v, mountAt (Run.run (fuel + 1)) m (.node fragment) cls u = some (.ok (), v) ∧
          Remounted w.forest u.forest v.forest m.container fragment
            (cls.getD m.defaultClass) := by
  intro fragment saved
  have hc : (w.forest.kind m.container).isElement = true := (m.serves_iff hw).1 hm
  have hcs : m.container < w.forest.size := lt_size_of_isElement hc
  obtain ⟨hs, hlisteners⟩ : Saves w.forest saved.forest m.container ∧ _ :=
    w.page.saves_save hw m
  refine ⟨⟨hs.kind_fragment, hs.children_fragment, ?_⟩, fun u hu fuel cls => ?_⟩
  · rw [hs.children_eq, if_neg hcs.ne, if_pos rfl]
  have hwork : Outside (insert fragment (w.forest.shown m.container)) saved.forest u.forest :=
    hu.outside (hs.sealed_shown hw) (hs.open_container hw hcs)
  have havoids := hwork.avoids (hs.sealed_shown hw)
  have hu' : u.forest.Sound := hwork.sound hs.sound
  have hcu : (u.forest.kind m.container).isElement = true := by
    rw [(hwork.lasts hs.sound).kind_eq (hcs.trans hs.lt_size), hs.kind_eq, if_neg hcs.ne]
    exact hc
  obtain ⟨k, hplace, hk⟩ := hs.exists_placed hw hcs havoids hu' hcu (cls.getD m.defaultClass)
  have hremounted := hs.remounted hw hcs havoids hu' hcu hlisteners _ hplace hk
  refine ⟨{ u.setForest k with held := u.held }, ?_, hremounted⟩
  rw [mountAt_eq_holding _ _ _ hu' hcu, holding_eq_some_iff]
  refine ⟨_, (@place_eq_some_iff _ _ _ (·.placeNode _ fragment)).2 ⟨?_, rfl⟩, ?_⟩
  · exact (congrArg Prod.fst hplace).symm
  · obtain rfl := congrArg Prod.snd hplace
    rfl

/-- A screen of two paragraphs. -/
def pairForest : Forest :=
  (Forest.empty.plant (.element "main" []
    [.element "p" [] [.text "one"], .element "p" [] [.text "two"]])).2

/-- A world that shows the screen; the first paragraph has a listener. -/
def pairWorld : World :=
  let page := ((World.fresh "").setForest pairForest).page
  { World.fresh "" with page := (page.listen 1 "click" 0 false).2 }

theorem sound_pairWorld : pairWorld.forest.Sound := by
  refine Sound.modify_listeners (· ++ [Listener.mk 0 "click" false 0]) (Sound.empty.plant _ ?_) 1
  simp [Tree.Named, Tree.NamedAll]

/-- A text is mounted in the meantime, and saved; then the paragraphs are back, with the
listener. -/
theorem remount_save_pairWorld :
    pairWorld.forest.Sound ∧ Mount.Serves ⟨0, "plain"⟩ pairWorld.forest ∧
    ∃ u v, Interlude 0 (insert 5 (pairWorld.forest.shown 0))
        { pairWorld with page := (pairWorld.page.save ⟨0, "plain"⟩).2 } u ∧
      mountAt (Run.run 1) ⟨0, "plain"⟩ (.node 5) none u = some (.ok (), v) ∧
      v.forest.children 0 = [1, 3] ∧ v.forest.listeners 1 = [⟨0, "click", false, 0⟩] ∧
      v.forest.attrValue 0 "class" = some "plain" := by
  let m : Mount := ⟨0, "plain"⟩
  let saved : World := { pairWorld with page := (pairWorld.page.save m).2 }
  have helement : (pairWorld.forest.kind 0).isElement = true := by decide +kernel
  have hserves : m.Serves pairWorld.forest := (Mount.serves_iff sound_pairWorld).2 helement
  obtain ⟨-, hremount⟩ := remount_save m pairWorld sound_pairWorld hserves
  have hfragment : (pairWorld.page.save m).1 = 5 := by decide +kernel
  rw [hfragment] at hremount
  -- Another screen is mounted at the container, and saved as well.
  have hmounts : (mountAt (Run.run 1) ⟨0, ""⟩ (.text "next") (some "b") saved).isSome = true := by
    decide +kernel
  obtain ⟨⟨outcome, u⟩, hmount⟩ := Option.isSome_iff_exists.1 hmounts
  have hinterlude : Interlude 0 (insert 5 (pairWorld.forest.shown 0)) saved
      { u with page := (u.page.save ⟨0, ""⟩).2 } := by
    obtain ⟨hs, -⟩ := pairWorld.page.saves_save sound_pairWorld m
    have hsealed : saved.forest.Sealed (insert 5 (pairWorld.forest.shown 0)) :=
      hs.sealed_shown sound_pairWorld
    have hopen : saved.forest.Open (insert 5 (pairWorld.forest.shown 0)) 0 :=
      hs.open_container sound_pairWorld (lt_size_of_isElement helement)
    have hinert : Expression.Inert (.text "next") := trivial
    have hfirst := Interlude.mount_of_inert (.refl saved) hs.sound hsealed hopen
      (by decide +kernel) rfl hinert (List.forall_mem_nil _) hmount
    exact hfirst.save ⟨0, ""⟩ rfl
  obtain ⟨v, hv, hremounted⟩ := hremount _ hinterlude 0 none
  have hshown : 1 ∈ pairWorld.forest.shown 0 :=
    mem_shown_of_parent_eq sound_pairWorld (by decide +kernel)
  have hlisteners : pairWorld.forest.listeners 1 = [⟨0, "click", false, 0⟩] := by decide +kernel
  have hchildren : pairWorld.forest.children 0 = [1, 3] := by decide +kernel
  refine ⟨sound_pairWorld, hserves, _, v, hinterlude, hv, ?_, ?_, hremounted.attrValue_class⟩
  · exact hremounted.children_container.trans hchildren
  · exact (congrArg Cell.listeners (hremounted.cell_eq hshown)).trans hlisteners

end LiveMarkup
