import LiveMarkup.Proofs.Forest.Planting
import LiveMarkup.Proofs.Markup.Labelled

/-!
# Layouts

`Forest.Holds f ι q L` says that the labelled tree `L` lies in the forest `f`: the node `ι l` for a
label `l` looks like the node of `L` with that label, is linked to the one above it, and the root is
linked to `q`.  Whatever leaves these nodes alone leaves the layout (`Holds.congr`), and a tree that
is planted is laid out at consecutive numbers (`holds_plant`).
-/

namespace LiveMarkup.Forest

variable {α : Type} {f g : Forest} {ι : α → NodeId} {p : NodeId} {q : Option NodeId}

/-- An attribute is laid out as an attribute node that belongs to `n`. -/
structure HoldsAttribute (f : Forest) (ι : α → NodeId) (n : NodeId) (a : α × Attribute) : Prop where
  kind_eq : f.kind (ι a.1) = .attr a.2.name
  data_eq : f.data (ι a.1) = a.2.value
  link_eq : f.link (ι a.1) = some n

/-- An element with given lists of attribute nodes and children that is linked to `q`. -/
structure HoldsElement (f : Forest) (n : NodeId) (q : Option NodeId) (tag : String)
    (as cs : List NodeId) : Prop where
  kind_eq : f.kind n = .element tag
  link_eq : f.link n = q
  attributes_eq : f.attributes n = as
  children_eq : f.children n = cs

/-- A text or a comment that is linked to `q`; it has no children. -/
structure HoldsLeaf (f : Forest) (n : NodeId) (q : Option NodeId) (k : Kind) (s : String) :
    Prop where
  kind_eq : f.kind n = k
  link_eq : f.link n = q
  data_eq : f.data n = s
  children_eq : f.children n = []

mutual

/-- A labelled tree lies in a forest, its root linked to `q`. -/
def Holds (f : Forest) (ι : α → NodeId) (q : Option NodeId) : Labelled α → Prop
  | .element l tag as cs =>
    HoldsElement f (ι l) q tag (as.map (ι ·.1)) (cs.map (ι ·.label)) ∧
      (∀ a ∈ as, HoldsAttribute f ι (ι l) a) ∧ HoldsAll f ι (some (ι l)) cs
  | .text l s => HoldsLeaf f (ι l) q .text s
  | .comment l s => HoldsLeaf f (ι l) q .comment s

/-- Several labelled trees lie in a forest, their roots linked to `q`. -/
def HoldsAll (f : Forest) (ι : α → NodeId) (q : Option NodeId) : List (Labelled α) → Prop
  | [] => True
  | L :: Ls => Holds f ι q L ∧ HoldsAll f ι q Ls

end

theorem holdsAll_iff {Ls : List (Labelled α)} :
    HoldsAll f ι q Ls ↔ ∀ L ∈ Ls, Holds f ι q L := by
  induction Ls with
  | nil => simp [HoldsAll]
  | cons L Ls ih => simp [HoldsAll, ih]

theorem holdsAll_append {Ls Ms : List (Labelled α)} :
    HoldsAll f ι q (Ls ++ Ms) ↔ HoldsAll f ι q Ls ∧ HoldsAll f ι q Ms := by
  simp only [holdsAll_iff, List.mem_append, or_imp, forall_and]

/-- `p` holds labelled trees as all of its children. -/
structure HoldsBelow (f : Forest) (ι : α → NodeId) (p : NodeId) (Ls : List (Labelled α)) :
    Prop where
  children_eq : f.children p = Ls.map (ι ·.label)
  holds : HoldsAll f ι (some p) Ls

theorem Holds.link_eq {L : Labelled α} (h : Holds f ι q L) : f.link (ι L.label) = q := by
  cases L with
  | text l s | comment l s => exact HoldsLeaf.link_eq h
  | element l tag as cs => exact h.1.link_eq

/-- The root of a layout is no attribute node and no fragment. -/
theorem Holds.kind_label {L : Labelled α} (h : Holds f ι q L) :
    ¬ (f.kind (ι L.label)).isAttr = true ∧ f.kind (ι L.label) ≠ .fragment := by
  cases L with
  | text l s | comment l s =>
    rw [Labelled.label, HoldsLeaf.kind_eq h]
    simp [Kind.isAttr]
  | element l tag as cs =>
    rw [Labelled.label, h.1.kind_eq]
    simp [Kind.isAttr]

/-! ### Frames -/

theorem HoldsElement.congr {n : NodeId} {tag : String} {as cs : List NodeId}
    (h : HoldsElement f n q tag as cs) (hc : g.cell n = f.cell n) : HoldsElement g n q tag as cs :=
  ⟨by rw [kind, hc]; exact h.kind_eq, by rw [link, hc]; exact h.link_eq,
    by rw [attributes, hc]; exact h.attributes_eq, by rw [children, hc]; exact h.children_eq⟩

theorem HoldsLeaf.congr {n : NodeId} {k : Kind} {s : String} (h : HoldsLeaf f n q k s)
    (hc : g.cell n = f.cell n) : HoldsLeaf g n q k s :=
  ⟨by rw [kind, hc]; exact h.kind_eq, by rw [link, hc]; exact h.link_eq,
    by rw [data, hc]; exact h.data_eq, by rw [children, hc]; exact h.children_eq⟩

theorem HoldsAttribute.congr {n : NodeId} {a : α × Attribute} (h : HoldsAttribute f ι n a)
    (hc : g.cell (ι a.1) = f.cell (ι a.1)) : HoldsAttribute g ι n a :=
  ⟨by rw [kind, hc]; exact h.kind_eq, by rw [data, hc]; exact h.data_eq,
    by rw [link, hc]; exact h.link_eq⟩

mutual

/-- A layout depends on the nodes in it only. -/
theorem Holds.congr {q : Option NodeId} {L : Labelled α} (h : Holds f ι q L)
    (hc : ∀ l ∈ L.labels, g.cell (ι l) = f.cell (ι l)) : Holds g ι q L := by
  cases L with
  | text l s | comment l s => exact HoldsLeaf.congr h (hc l (by simp [Labelled.labels]))
  | element l tag as cs =>
    obtain ⟨he, ha, hcs⟩ := h
    refine ⟨he.congr (hc l (by simp [Labelled.labels])),
      fun a hm => (ha a hm).congr (hc a.1 ?_), hcs.congr fun m hm => hc m ?_⟩
    · have : a.1 ∈ as.map Prod.fst := List.mem_map_of_mem hm
      simp [Labelled.labels, this]
    · simp [Labelled.labels, hm]

theorem HoldsAll.congr {q : Option NodeId} {Ls : List (Labelled α)} (h : HoldsAll f ι q Ls)
    (hc : ∀ l ∈ Labelled.labelsAll Ls, g.cell (ι l) = f.cell (ι l)) : HoldsAll g ι q Ls := by
  cases Ls with
  | nil => trivial
  | cons L Ls =>
    exact ⟨h.1.congr fun l hl => hc l (by simp [Labelled.labelsAll, hl]),
      h.2.congr fun l hl => hc l (by simp [Labelled.labelsAll, hl])⟩

end

/-- A layout whose root is linked elsewhere. -/
theorem Holds.relink {q' : Option NodeId} {L : Labelled α} (h : Holds f ι q L)
    (hd : (L.labels.map ι).Nodup) (hl : g.link (ι L.label) = q')
    (hr : g.cell (ι L.label) = { f.cell (ι L.label) with parent := g.link (ι L.label) })
    (hc : ∀ l ∈ L.labels, ι l ≠ ι L.label → g.cell (ι l) = f.cell (ι l)) : Holds g ι q' L := by
  cases L with
  | text l s | comment l s =>
    have hr' : g.cell (ι l) = { f.cell (ι l) with parent := g.link (ι l) } := hr
    exact ⟨by rw [kind, hr']; exact h.kind_eq, hl, by rw [data, hr']; exact h.data_eq,
      by rw [children, hr']; exact h.children_eq⟩
  | element l tag as cs =>
    obtain ⟨he, ha, hcs⟩ := h
    have hr' : g.cell (ι l) = { f.cell (ι l) with parent := g.link (ι l) } := hr
    rw [Labelled.labels, List.cons_append, List.map_cons, List.nodup_cons] at hd
    have hne : ∀ m ∈ as.map Prod.fst ++ Labelled.labelsAll cs, g.cell (ι m) = f.cell (ι m) :=
      fun m hm =>
        hc m (by simp only [Labelled.labels, List.cons_append, List.mem_cons, hm, or_true])
        fun e => hd.1 (e ▸ List.mem_map_of_mem hm)
    refine ⟨⟨by rw [kind, hr']; exact he.kind_eq, hl,
      by rw [attributes, hr']; exact he.attributes_eq,
      by rw [children, hr']; exact he.children_eq⟩, fun a hm => (ha a hm).congr (hne a.1 ?_),
      hcs.congr fun m hm => hne m (List.mem_append_right _ hm)⟩
    exact List.mem_append_left _ (List.mem_map_of_mem hm)

/-! ### Other labels -/

section Labels

variable {β : Type} {φ : β → α}

theorem map_label_mapAll (φ : β → α) (ι : α → NodeId) (Ls : List (Labelled β)) :
    (Labelled.mapAll φ Ls).map (ι ·.label) = Ls.map ((ι ∘ φ) ·.label) := by
  induction Ls with
  | nil => rfl
  | cons L Ls ih =>
    rw [Labelled.mapAll, List.map_cons, List.map_cons, ih]
    cases L <;> rfl

mutual

/-- A layout does not depend on what its labels are. -/
theorem Holds.map {q : Option NodeId} {L : Labelled β} (h : Holds f (ι ∘ φ) q L) :
    Holds f ι q (L.map φ) := by
  cases L with
  | text l s | comment l s => exact h
  | element l tag as cs =>
    obtain ⟨he, has, hcs⟩ := h
    refine ⟨⟨he.kind_eq, he.link_eq, ?_, ?_⟩, fun a ha => ?_, hcs.mapAll⟩
    · rw [List.map_map]
      exact he.attributes_eq
    · rw [map_label_mapAll]
      exact he.children_eq
    · obtain ⟨b, hb, rfl⟩ := List.mem_map.1 ha
      exact ⟨(has b hb).kind_eq, (has b hb).data_eq, (has b hb).link_eq⟩

theorem HoldsAll.mapAll {q : Option NodeId} {Ls : List (Labelled β)}
    (h : HoldsAll f (ι ∘ φ) q Ls) : HoldsAll f ι q (Labelled.mapAll φ Ls) := by
  cases Ls with
  | nil => trivial
  | cons L Ls => exact ⟨h.1.map, h.2.mapAll⟩

end

mutual

/-- A tree whose labels have been changed is laid out where the one with the old labels is. -/
theorem Holds.of_map {q : Option NodeId} {L : Labelled β} (h : Holds f ι q (L.map φ)) :
    Holds f (ι ∘ φ) q L := by
  cases L with
  | text l s | comment l s => exact h
  | element l tag as cs =>
    obtain ⟨he, has, hcs⟩ := h
    refine ⟨⟨he.kind_eq, he.link_eq, ?_, ?_⟩, fun a ha => ?_, HoldsAll.of_mapAll hcs⟩
    · have hattributes := he.attributes_eq
      rwa [List.map_map] at hattributes
    · have hchildren := he.children_eq
      rwa [map_label_mapAll] at hchildren
    · obtain ⟨hk, hd, hl⟩ := has _ (List.mem_map_of_mem ha)
      exact ⟨hk, hd, hl⟩

theorem HoldsAll.of_mapAll {q : Option NodeId} {Ls : List (Labelled β)}
    (h : HoldsAll f ι q (Labelled.mapAll φ Ls)) : HoldsAll f (ι ∘ φ) q Ls := by
  cases Ls with
  | nil => trivial
  | cons L Ls => exact ⟨h.1.of_map, HoldsAll.of_mapAll h.2⟩

end

theorem HoldsBelow.mapAll {Ls : List (Labelled β)} (h : HoldsBelow f (ι ∘ φ) p Ls) :
    HoldsBelow f ι p (Labelled.mapAll φ Ls) :=
  ⟨by rw [map_label_mapAll]; exact h.children_eq, h.holds.mapAll⟩

end Labels

/-! ### Planting -/

theorem mem_labels_numbered {L : Labelled α} {n : ℕ} {l : ℕ × α} (h : l ∈ (L.numbered n).labels) :
    n ≤ l.1 ∧ l.1 < n + L.labels.length := by
  have hm : l.1 ∈ List.range' n L.labels.length := by
    rw [← Labelled.fst_labels_numbered]
    exact List.mem_map_of_mem h
  simpa [List.mem_range'_1] using hm

theorem label_numbered (L : Labelled α) (n : ℕ) : (L.numbered n).label.1 = n := by
  cases L <;> rfl

theorem cell_plantAttr (a : Attribute) (hn : p < f.size) :
    (f.plantAttr p a).cell f.size = ⟨.attr a.name, a.value, some p, [], [], []⟩ := by
  have hne : f.size ≠ p := Nat.ne_of_gt hn
  simp [plantAttr, cell_setAttributes, cell_setParent, cell_create, hne, Cell.detached]

/-- Planted attributes are laid out. -/
theorem holds_plantAttrs (as : List (α × Attribute)) (hn : p < f.size) :
    let g := (as.map Prod.snd).foldl (fun f a => f.plantAttr p a) f
    g.size = f.size + as.length ∧
      g.attributes p = f.attributes p ++ (Labelled.numberedAttributes f.size as).map (·.1.1) ∧
      ∀ a ∈ Labelled.numberedAttributes f.size as, HoldsAttribute g Prod.fst p a := by
  induction as generalizing f with
  | nil => simp [Labelled.numberedAttributes]
  | cons a as ih =>
    obtain ⟨l, a⟩ := a
    have hone := growsAt_plantAttr (f := f) a hn
    have hsize : (f.plantAttr p a).size = f.size + 1 := by simp [plantAttr]
    have hp : p < (f.plantAttr p a).size := hn.trans_le hone.size_le
    have hrest := growsAt_plantAttrs (f := f.plantAttr p a) (as.map Prod.snd) hp
    obtain ⟨hs, hattr, hholds⟩ := ih (f := f.plantAttr p a) hp
    refine ⟨?_, ?_, ?_⟩
    · simp only [List.map_cons, List.foldl_cons, hs, hsize, List.length_cons]
      omega
    · simp only [List.map_cons, List.foldl_cons, hattr, attributes_plantAttr a hn, hsize,
        Labelled.numberedAttributes, List.append_assoc, List.singleton_append]
    · simp only [List.map_cons, List.foldl_cons, Labelled.numberedAttributes, List.mem_cons]
      rintro b (rfl | hb)
      · have hcell := cell_plantAttr a hn
        rw [← hrest.cell_eq (hsize ▸ Nat.lt_succ_self _) (Nat.ne_of_gt hn)] at hcell
        exact ⟨by rw [kind, hcell], by rw [data, hcell], by rw [link, hcell]⟩
      · rw [hsize] at hholds
        exact hholds b hb

/-- The element that is opened for the children of a planted one has its attributes. -/
theorem holds_plantOpen (f : Forest) (tag : String) (as : List (α × Attribute)) :
    (f.plantOpen tag (as.map Prod.snd)).size = f.size + 1 + as.length ∧
      HoldsElement (f.plantOpen tag (as.map Prod.snd)) f.size none tag
        ((Labelled.numberedAttributes (f.size + 1) as).map (·.1.1)) [] ∧
      ∀ a ∈ Labelled.numberedAttributes (f.size + 1) as,
        HoldsAttribute (f.plantOpen tag (as.map Prod.snd)) Prod.fst f.size a := by
  have hroot : f.size < (f.create (.element tag) "").2.size := by simp
  have hopen : f.plantOpen tag (as.map Prod.snd) =
      (as.map Prod.snd).foldl (fun g a => g.plantAttr f.size a)
        (f.create (.element tag) "").2 := rfl
  obtain ⟨hs, hattr, hholds⟩ := holds_plantAttrs as hroot
  rw [← hopen, size_create] at hs hattr hholds
  rw [attributes_create, attributes_of_size_le le_rfl, List.nil_append] at hattr
  have hfirst := growsAt_plantOpen f tag (as.map Prod.snd)
  refine ⟨hs, ⟨?_, ?_, hattr, ?_⟩, hholds⟩
  · rw [hfirst.kind_eq, kind_create, if_pos rfl]
  · rw [hfirst.link_eq, link_create, link_of_size_le le_rfl]
  · rw [hfirst.children_eq, children_create, children_of_size_le le_rfl]
    rfl

/-- A planted tree that becomes a child of `p` stays laid out. -/
theorem holds_linkChild {L : Labelled α} (hp : p < f.size) (hroot : (f.plant L.tree).1 = f.size)
    (hlt : f.size < (f.plant L.tree).2.size)
    (hL : Holds (f.plant L.tree).2 Prod.fst none (L.numbered f.size)) :
    Holds ((f.plant L.tree).2.linkChild p (f.plant L.tree).1) Prod.fst (some p)
      (L.numbered f.size) := by
  have hpf : f.size ≠ p := Nat.ne_of_gt hp
  -- The root of the tree is linked to `p`, and nothing else of the tree changes any more.
  have hcell : ((f.plant L.tree).2.linkChild p (f.plant L.tree).1).cell f.size =
      { (f.plant L.tree).2.cell f.size with parent := some p } := by
    rw [hroot]
    simp [Forest.linkChild, cell_setChildren, cell_setParent, hpf, hlt]
  refine hL.relink ?_ ?_ ?_ fun l hl hne => ?_
  · rw [Labelled.fst_labels_numbered]
    exact List.nodup_range'
  · rw [label_numbered, link, hcell]
  · rw [label_numbered, link, hcell]
  · rw [label_numbered] at hne
    have hlp : l.1 ≠ p := Nat.ne_of_gt (hp.trans_le (mem_labels_numbered hl).1)
    rw [hroot]
    simp [Forest.linkChild, cell_setChildren, cell_setParent, hlp, hne]

mutual

/-- A tree is planted at consecutive numbers. -/
theorem holds_plant (f : Forest) (L : Labelled α) :
    (f.plant L.tree).2.size = f.size + L.labels.length ∧
      Holds (f.plant L.tree).2 Prod.fst none (L.numbered f.size) := by
  cases L with
  | text l s | comment l s =>
    rw [Labelled.tree, plant]
    exact ⟨by simp [Labelled.labels], by simp [kind_create], by simp [link_of_size_le],
      by simp [data_create], by simp [children_of_size_le]⟩
  | element l tag as cs =>
    obtain ⟨hs, he, hholds⟩ := holds_plantOpen f tag as
    have hlt := lt_size_plantOpen f tag (as.map Prod.snd)
    obtain ⟨hs', hattr, hchildren, hall⟩ := holds_plantBelow (f.plantOpen tag (as.map Prod.snd))
      f.size cs hlt
    obtain ⟨ds, hgrows⟩ := growsAt_plantBelow (f.plantOpen tag (as.map Prod.snd)) f.size
      (Labelled.trees cs) hlt
    rw [Labelled.tree, plant_element]
    rw [hs] at hs' hchildren hall
    refine ⟨?_, ⟨hgrows.kind_eq.trans he.kind_eq, hgrows.link_eq.trans he.link_eq,
      hattr.trans he.attributes_eq, ?_⟩, fun a ha => ?_, hall⟩
    · simp only [hs', Labelled.labels, List.length_append, List.length_cons, List.length_map]
      omega
    · rw [hchildren, he.children_eq]
      rfl
    · have hm : a.1.1 ∈ List.range' (f.size + 1) as.length := by
        rw [← Labelled.fst_numberedAttributes]
        exact List.mem_map.2 ⟨a, ha, rfl⟩
      obtain ⟨hle, hin⟩ := List.mem_range'_1.1 hm
      exact (hholds a ha).congr (hgrows.cell_eq (hs ▸ hin) (Nat.ne_of_gt hle))

/-- Trees that are planted below `p` become its last children. -/
theorem holds_plantBelow (f : Forest) (p : NodeId) (Ls : List (Labelled α)) (hp : p < f.size) :
    (f.plantBelow p (Labelled.trees Ls)).size = f.size + (Labelled.labelsAll Ls).length ∧
      (f.plantBelow p (Labelled.trees Ls)).attributes p = f.attributes p ∧
      (f.plantBelow p (Labelled.trees Ls)).children p =
        f.children p ++ (Labelled.numberedAll f.size Ls).map (·.label.1) ∧
      HoldsAll (f.plantBelow p (Labelled.trees Ls)) Prod.fst (some p)
        (Labelled.numberedAll f.size Ls) := by
  cases Ls with
  | nil =>
    rw [Labelled.trees, plantBelow]
    exact ⟨by simp [Labelled.labelsAll], rfl, by simp [Labelled.numberedAll], trivial⟩
  | cons L Ls =>
    obtain ⟨hs, hL⟩ := holds_plant f L
    obtain ⟨hroot, hlt, hg⟩ := grows_plant f L.tree
    have hp' : p < (f.plant L.tree).2.size := hp.trans_le hg.size_le
    have hlink := growsAt_linkChild hp' hroot.symm.le (hg.growsAt hp) hp
    have hsize : ((f.plant L.tree).2.linkChild p (f.plant L.tree).1).size =
        f.size + L.labels.length := by simpa [Forest.linkChild] using hs
    have hp'' : p < ((f.plant L.tree).2.linkChild p (f.plant L.tree).1).size :=
      hp.trans_le hlink.size_le
    obtain ⟨hs', hattr', hchildren', hall'⟩ :=
      holds_plantBelow ((f.plant L.tree).2.linkChild p (f.plant L.tree).1) p Ls hp''
    obtain ⟨ds, hgrows⟩ := growsAt_plantBelow ((f.plant L.tree).2.linkChild p (f.plant L.tree).1) p
      (Labelled.trees Ls) hp''
    have hattr : ((f.plant L.tree).2.linkChild p (f.plant L.tree).1).attributes p =
        f.attributes p := by
      rw [Forest.linkChild, attributes_setChildren, attributes_setParent, attributes, hg.cell_eq hp,
        attributes]
    rw [Labelled.trees, plantBelow]
    rw [hsize] at hs' hchildren' hall'
    refine ⟨?_, hattr'.trans hattr, ?_,
      (holds_linkChild hp hroot hlt hL).congr fun l hl => hgrows.cell_eq ?_ ?_, hall'⟩
    · simp only [hs', Labelled.labelsAll, List.length_append]
      omega
    · rw [hchildren', hlink.children_eq, hroot]
      simp [Labelled.numberedAll, label_numbered]
    · rw [hsize]
      exact (mem_labels_numbered hl).2
    · exact Nat.ne_of_gt (hp.trans_le (mem_labels_numbered hl).1)

end

theorem holdsBelow_plantFragment (f : Forest) (Ls : List (Labelled α)) :
    (f.plantFragment (Labelled.trees Ls)).1 = f.size ∧
      (f.plantFragment (Labelled.trees Ls)).2.kind f.size = .fragment ∧
      Grows f (f.plantFragment (Labelled.trees Ls)).2 ∧
      (f.plantFragment (Labelled.trees Ls)).2.link f.size = none ∧
      HoldsBelow (f.plantFragment (Labelled.trees Ls)).2 Prod.fst f.size
        (Labelled.numberedAll (f.size + 1) Ls) := by
  have hlt : f.size < (f.create .fragment "").2.size := by simp
  obtain ⟨-, -, hchildren, hall⟩ := holds_plantBelow (f.create .fragment "").2 f.size Ls hlt
  obtain ⟨ds, hgrows⟩ :=
    growsAt_plantBelow (f.create .fragment "").2 f.size (Labelled.trees Ls) hlt
  rw [size_create] at hchildren hall
  refine ⟨rfl, ?_, hgrows.grows_of_create, ?_, ⟨?_, hall⟩⟩
  · exact hgrows.kind_eq.trans (by rw [kind_create, if_pos rfl])
  · exact hgrows.link_eq.trans (by rw [link_create, link_of_size_le le_rfl])
  · rw [children_create, children_of_size_le le_rfl, List.nil_append] at hchildren
    exact hchildren

/-- A fragment is planted as one node more than there are labels. -/
theorem size_plantFragment (f : Forest) (Ls : List (Labelled α)) :
    (f.plantFragment (Labelled.trees Ls)).2.size = f.size + 1 + (Labelled.labelsAll Ls).length := by
  have hlt : f.size < (f.create .fragment "").2.size := by simp
  exact (holds_plantBelow (f.create .fragment "").2 f.size Ls hlt).1.trans (by simp)

/-! ### Reading a layout -/

mutual

theorem Holds.lt_size {p : NodeId} {L : Labelled α} (h : Holds f ι (some p) L) :
    ∀ l ∈ L.labels, ι l < f.size := by
  have hlt : ∀ {n p : NodeId}, f.link n = some p → n < f.size := fun {n p} hl => by
    by_contra hn
    rw [link_of_size_le (Nat.le_of_not_lt hn)] at hl
    cases hl
  cases L with
  | text l s | comment l s =>
    intro m hm
    obtain rfl : m = l := by simpa [Labelled.labels] using hm
    exact hlt h.link_eq
  | element l tag as cs =>
    obtain ⟨he, ha, hcs⟩ := h
    intro m hm
    rw [Labelled.labels, List.cons_append, List.mem_cons, List.mem_append] at hm
    rcases hm with rfl | hm | hm
    · exact hlt he.link_eq
    · obtain ⟨a, hmem, rfl⟩ := List.mem_map.1 hm
      exact hlt (ha a hmem).link_eq
    · exact hcs.lt_size m hm

theorem HoldsAll.lt_size {p : NodeId} {Ls : List (Labelled α)} (h : HoldsAll f ι (some p) Ls) :
    ∀ l ∈ Labelled.labelsAll Ls, ι l < f.size := by
  cases Ls with
  | nil => simp [Labelled.labelsAll]
  | cons L Ls =>
    intro m hm
    rcases List.mem_append.1 hm with hm | hm
    · exact h.1.lt_size m hm
    · exact h.2.lt_size m hm

end

theorem HoldsAll.length_le_size {Ls : List (Labelled α)} (h : HoldsAll f ι (some p) Ls)
    (hd : ((Labelled.labelsAll Ls).map ι).Nodup) : (Labelled.labelsAll Ls).length ≤ f.size := by
  have hsub : (Labelled.labelsAll Ls).map ι ⊆ List.range f.size := fun n hn => by
    obtain ⟨l, hl, rfl⟩ := List.mem_map.1 hn
    exact List.mem_range.2 (h.lt_size l hl)
  simpa using hd.length_le_of_subset hsub

/-- The attributes of an element are read as they are laid out. -/
theorem HoldsElement.map_attrAt {tag : String} {as : List (α × Attribute)} {cs : List NodeId}
    (he : HoldsElement f p q tag (as.map (ι ·.1)) cs) (ha : ∀ a ∈ as, HoldsAttribute f ι p a) :
    (f.attributes p).map f.attrAt = as.map Prod.snd := by
  rw [he.attributes_eq, List.map_map]
  refine List.map_congr_left fun a hm => ?_
  obtain ⟨hk, hd, -⟩ := ha a hm
  rw [Function.comp_apply, attrAt, hk, hd]
  rfl

/-- The trees at the roots of a layout are the trees of the layout. -/
theorem HoldsAll.treesAt {Ls : List (Labelled α)} (h : HoldsAll f ι q Ls) {fuel : ℕ}
    (hfuel : (Labelled.labelsAll Ls).length ≤ fuel) :
    f.treesAt fuel (Ls.map (ι ·.label)) = Labelled.trees Ls := by
  induction fuel generalizing q Ls with
  | zero =>
    cases Ls with
    | nil => rfl
    | cons L Ls =>
      have := List.length_pos_of_mem L.label_mem_labels
      rw [Labelled.labelsAll, List.length_append] at hfuel
      omega
  | succ fuel ih =>
    rw [Forest.treesAt]
    induction Ls with
    | nil => rfl
    | cons L Ls ihLs =>
      rw [Labelled.labelsAll, List.length_append] at hfuel
      rw [List.map_cons, List.flatMap_cons, ihLs h.2 (by omega), Labelled.trees]
      obtain ⟨hL, -⟩ := h
      cases L with
      | text l s | comment l s =>
        rw [Labelled.label, hL.kind_eq]
        simp only [hL.data_eq]
        rfl
      | element l tag as cs =>
        obtain ⟨he, ha, hcs⟩ := hL
        have hlen : (Labelled.labelsAll cs).length ≤ fuel := by
          rw [Labelled.labels, List.length_append, List.length_cons] at hfuel
          omega
        rw [Labelled.label, he.kind_eq]
        simp only [he.map_attrAt ha, he.children_eq, ih hcs hlen]
        rfl

/-- A fragment looks like what is laid out below it. -/
theorem HoldsBelow.snapshot {Ls : List (Labelled α)} (h : HoldsBelow f ι p Ls)
    (hk : f.kind p = .fragment) (hd : ((Labelled.labelsAll Ls).map ι).Nodup) :
    f.snapshot p = .fragment (Labelled.trees Ls) := by
  rw [Forest.snapshot, hk]
  simp only
  rw [Forest.trees, h.children_eq,
    h.holds.treesAt ((h.holds.length_le_size hd).trans (Nat.le_succ _))]

/-- The root of a layout looks like the tree that is laid out. -/
theorem Holds.snapshot {L : Labelled α} (h : Holds f ι q L) (hd : (L.labels.map ι).Nodup) :
    f.snapshot (ι L.label) = .tree L.tree := by
  cases L with
  | text l s | comment l s =>
    rw [Forest.snapshot, Labelled.label, h.kind_eq]
    simp only [h.data_eq]
    rfl
  | element l tag as cs =>
    obtain ⟨he, ha, hcs⟩ := h
    have hnodup : ((Labelled.labelsAll cs).map ι).Nodup := by
      rw [Labelled.labels, List.map_append] at hd
      exact (List.nodup_append.1 hd).2.1
    have htrees : f.trees (cs.map (ι ·.label)) = Labelled.trees cs :=
      hcs.treesAt ((hcs.length_le_size hnodup).trans (Nat.le_succ _))
    rw [Forest.snapshot, Labelled.label, he.kind_eq]
    simp only [he.map_attrAt ha, he.children_eq, htrees]
    rfl

end LiveMarkup.Forest
