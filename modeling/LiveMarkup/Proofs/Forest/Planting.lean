import LiveMarkup.Proofs.Forest.Owners

/-!
# Planting trees

Planting makes new nodes and leaves the others as they are, but for the list of children of the node
that the trees are planted below.  In a sound forest, a tree whose attributes have names of their
own (`Tree.Named`) is planted soundly, and so is every copy of a node.
-/

namespace LiveMarkup

namespace Tree

mutual

/-- The attributes of every element have different names in small letters. -/
def Named : Tree → Prop
  | element _ attributes children =>
    (∀ a ∈ attributes, IsSmall a.name) ∧ (attributes.map Attribute.name).Nodup ∧ NamedAll children
  | text _ => True
  | comment _ => True

/-- The attributes of every element in a list of trees have different names in small letters. -/
def NamedAll : List Tree → Prop
  | [] => True
  | t :: ts => t.Named ∧ NamedAll ts

end

theorem namedAll_iff {ts : List Tree} : NamedAll ts ↔ ∀ t ∈ ts, t.Named := by
  induction ts with
  | nil => simp [NamedAll]
  | cons t ts ih => simp [NamedAll, ih]

end Tree

namespace Forest

variable {f g : Forest} {m n p : NodeId}

/-! ### Frames -/

/-- All nodes of `f` are in `g` as they were. -/
structure Grows (f g : Forest) : Prop where
  size_le : f.size ≤ g.size
  cell_eq {m : NodeId} : m < f.size → g.cell m = f.cell m

namespace Grows

theorem refl (f : Forest) : Grows f f := ⟨le_rfl, fun _ => rfl⟩

theorem trans {h : Forest} (hfg : Grows f g) (hgh : Grows g h) : Grows f h :=
  ⟨hfg.size_le.trans hgh.size_le, fun hm =>
    (hgh.cell_eq (hm.trans_le hfg.size_le)).trans (hfg.cell_eq hm)⟩

theorem create (f : Forest) (k : Kind) (s : String) : Grows f (f.create k s).2 :=
  ⟨by simp, fun hm => by rw [cell_create, if_neg (Nat.ne_of_lt hm)]⟩

end Grows

/-- All nodes of `f` are in `g` as they were, but `p` may have got more attribute nodes and, after
its other children, the children `cs`. -/
structure GrowsAt (f g : Forest) (p : NodeId) (cs : List NodeId) : Prop where
  size_le : f.size ≤ g.size
  cell_eq {m : NodeId} : m < f.size → m ≠ p → g.cell m = f.cell m
  kind_eq : g.kind p = f.kind p
  link_eq : g.link p = f.link p
  data_eq : g.data p = f.data p
  children_eq : g.children p = f.children p ++ cs

namespace GrowsAt

theorem refl (f : Forest) (p : NodeId) : GrowsAt f f p [] :=
  ⟨le_rfl, fun _ _ => rfl, rfl, rfl, rfl, (List.append_nil _).symm⟩

theorem trans {h : Forest} {cs ds : List NodeId} (hfg : GrowsAt f g p cs) (hgh : GrowsAt g h p ds) :
    GrowsAt f h p (cs ++ ds) :=
  ⟨hfg.size_le.trans hgh.size_le,
    fun hm hp => (hgh.cell_eq (hm.trans_le hfg.size_le) hp).trans (hfg.cell_eq hm hp),
    hgh.kind_eq.trans hfg.kind_eq, hgh.link_eq.trans hfg.link_eq, hgh.data_eq.trans hfg.data_eq,
    by rw [hgh.children_eq, hfg.children_eq, List.append_assoc]⟩

/-- What grows at a node that is new itself only grows. -/
theorem grows_of_create {k : Kind} {s : String} {cs : List NodeId}
    (h : GrowsAt (f.create k s).2 g f.size cs) : Grows f g :=
  ⟨(Nat.le_succ _).trans ((size_create f k s).symm.trans_le h.size_le), fun hm => by
    rw [h.cell_eq (by simpa using Nat.lt_succ_of_lt hm) (Nat.ne_of_lt hm), cell_create,
      if_neg (Nat.ne_of_lt hm)]⟩

end GrowsAt

theorem Grows.growsAt (h : Grows f g) (hp : p < f.size) : GrowsAt f g p [] :=
  ⟨h.size_le, fun hm _ => h.cell_eq hm, by rw [kind, kind, h.cell_eq hp],
    by rw [link, link, h.cell_eq hp], by rw [data, data, h.cell_eq hp],
    by rw [children, children, h.cell_eq hp, List.append_nil]⟩

/-- An attribute node is planted as a new node that is last among the attributes of `n`. -/
theorem attributes_plantAttr (a : Attribute) (hn : n < f.size) :
    (f.plantAttr n a).attributes n = f.attributes n ++ [f.size] := by
  simp [plantAttr, attributes_setAttributes, Nat.lt_succ_of_lt hn]

theorem growsAt_plantAttr (a : Attribute) (hn : n < f.size) : GrowsAt f (f.plantAttr n a) n [] := by
  refine ⟨by simp [plantAttr], fun {m} hm hmn => ?_, ?_, ?_, ?_, ?_⟩
  · have hms : m ≠ f.size := Nat.ne_of_lt hm
    simp [plantAttr, cell_setAttributes, cell_setParent, cell_create, hmn, hms]
  · simp [plantAttr, kind_create, Nat.ne_of_lt hn]
  · simp [plantAttr, link_setParent, Nat.ne_of_lt hn]
  · simp [plantAttr, data_create, Nat.ne_of_lt hn]
  · simp [plantAttr]

theorem growsAt_plantAttrs (as : List Attribute) (hn : n < f.size) :
    GrowsAt f (as.foldl (fun f a => f.plantAttr n a) f) n [] := by
  induction as generalizing f with
  | nil => exact GrowsAt.refl f n
  | cons a as ih =>
    have ha := growsAt_plantAttr (f := f) a hn
    exact ha.trans (ih (hn.trans_le ha.size_le))

theorem growsAt_linkChild {c : NodeId} (hp : p < f.size) (hc : g.size ≤ c) (hgf : GrowsAt g f p [])
    (hpg : p < g.size) : GrowsAt g (f.linkChild p c) p [c] := by
  refine ⟨by simpa [linkChild] using hgf.size_le, fun {m} hm hmp => ?_, ?_, ?_, ?_, ?_⟩
  · have hmc : m ≠ c := Nat.ne_of_lt (hm.trans_le hc)
    rw [← hgf.cell_eq hm hmp]
    simp [linkChild, cell_setChildren, cell_setParent, hmp, hmc]
  · simpa [linkChild] using hgf.kind_eq
  · have hpc : p ≠ c := Nat.ne_of_lt (hpg.trans_le hc)
    simpa [linkChild, link_setParent, hpc] using hgf.link_eq
  · simpa [linkChild] using hgf.data_eq
  · simp [linkChild, children_setChildren, hp, hgf.children_eq]

/-- The new element of a planted element, with its attributes and without children. -/
def plantOpen (f : Forest) (tag : String) (as : List Attribute) : Forest :=
  as.foldl (fun g a => g.plantAttr f.size a) (f.create (.element tag) "").2

theorem plant_element (f : Forest) (tag : String) (as : List Attribute) (cs : List Tree) :
    f.plant (.element tag as cs) = (f.size, (f.plantOpen tag as).plantBelow f.size cs) := by
  rw [plant]
  rfl

theorem growsAt_plantOpen (f : Forest) (tag : String) (as : List Attribute) :
    GrowsAt (f.create (.element tag) "").2 (f.plantOpen tag as) f.size [] :=
  growsAt_plantAttrs as (by simp)

theorem lt_size_plantOpen (f : Forest) (tag : String) (as : List Attribute) :
    f.size < (f.plantOpen tag as).size :=
  (Nat.lt_succ_self _).trans_le
    ((size_create f (.element tag) "").symm.trans_le (growsAt_plantOpen f tag as).size_le)

mutual

/-- Planting a tree adds nodes; its root is the first of them. -/
theorem grows_plant (f : Forest) (t : Tree) :
    (f.plant t).1 = f.size ∧ f.size < (f.plant t).2.size ∧ Grows f (f.plant t).2 := by
  cases t with
  | text s | comment s =>
    rw [plant]
    exact ⟨rfl, by simp, Grows.create f _ s⟩
  | element tag as cs =>
    have hlt := lt_size_plantOpen f tag as
    obtain ⟨ds, hcs⟩ := growsAt_plantBelow (f.plantOpen tag as) f.size cs hlt
    rw [plant_element]
    exact ⟨rfl, hlt.trans_le hcs.size_le, ((growsAt_plantOpen f tag as).trans hcs).grows_of_create⟩

/-- Planting trees below `p` adds nodes, some of which become the last children of `p`. -/
theorem growsAt_plantBelow (f : Forest) (p : NodeId) (ts : List Tree) (hp : p < f.size) :
    ∃ cs, GrowsAt f (f.plantBelow p ts) p cs := by
  cases ts with
  | nil =>
    rw [plantBelow]
    exact ⟨[], GrowsAt.refl f p⟩
  | cons t ts =>
    obtain ⟨hroot, -, ht⟩ := grows_plant f t
    have hlink := growsAt_linkChild (hp.trans_le ht.size_le) hroot.symm.le (ht.growsAt hp) hp
    obtain ⟨cs, hcs⟩ := growsAt_plantBelow ((f.plant t).2.linkChild p (f.plant t).1) p ts
      (hp.trans_le hlink.size_le)
    rw [plantBelow]
    exact ⟨_, hlink.trans hcs⟩

end

/-! ### The root of a planted tree -/

theorem plant_root (f : Forest) (t : Tree) :
    ¬ ((f.plant t).2.kind f.size).isAttr = true ∧ (f.plant t).2.kind f.size ≠ .fragment ∧
      (f.plant t).2.link f.size = none := by
  have hnone : f.link f.size = none := link_of_size_le le_rfl
  cases t with
  | text s | comment s =>
    rw [plant]
    simp [kind_create, Kind.isAttr, hnone]
  | element tag as cs =>
    obtain ⟨ds, hcs⟩ :=
      growsAt_plantBelow (f.plantOpen tag as) f.size cs (lt_size_plantOpen f tag as)
    have h := (growsAt_plantOpen f tag as).trans hcs
    have hk : ((f.plantOpen tag as).plantBelow f.size cs).kind f.size = .element tag := by
      rw [h.kind_eq, kind_create, if_pos rfl]
    rw [plant_element, hk]
    exact ⟨by simp [Kind.isAttr], by simp, by rw [h.link_eq, link_create, hnone]⟩

/-- What is above an old node is old. -/
theorem lt_size_of_above (hf : f.Sound) (h : Grows f g) {a q : NodeId} (hq : q < f.size)
    (ha : g.Above a q) : a < f.size := by
  induction ha with
  | refl => exact hq
  | @tail r q _ hr ih =>
    refine ih (hf.lt_size_of_child (n := q) ?_)
    rwa [parent_congr (f := f) (g := g)] at hr
    · rw [kind, kind, h.cell_eq hq]
    · rw [link, link, h.cell_eq hq]

namespace Sound

theorem plantAttrs (hf : f.Sound) (hn : (f.kind n).isElement = true) {as : List Attribute}
    (hs : ∀ a ∈ as, IsSmall a.name) (hd : (as.map Attribute.name).Nodup)
    (hnew : ∀ b ∈ f.attributes n, (f.kind b).attrName ∉ as.map Attribute.name) :
    (as.foldl (fun f a => f.plantAttr n a) f).Sound := by
  induction as generalizing f with
  | nil => exact hf
  | cons a as ih =>
    have hns : n < f.size := lt_size_of_isElement hn
    have hg := growsAt_plantAttr (f := f) a hns
    obtain ⟨ha, hd⟩ := List.nodup_cons.1 hd
    refine ih (hf.plantAttr hn (hs a List.mem_cons_self) (fun b hb e => ?_) a.value)
      (by rwa [hg.kind_eq]) (fun b hb => hs b (List.mem_cons_of_mem _ hb)) hd (fun b hb => ?_)
    · exact hnew b hb (by simp [e])
    · rw [attributes_plantAttr a hns, List.mem_append, List.mem_singleton] at hb
      rcases hb with hb | rfl
      · have hbs : b < f.size := lt_size_of_owner (hf.mem_attributes_iff.1 hb)
        have hbn : b ≠ n := by
          rintro rfl
          have := hf.isAttr_of_mem_attributes hb
          cases hk : f.kind b <;> simp_all [Kind.isElement, Kind.isAttr]
        have hk : (f.plantAttr n a).kind b = f.kind b := by rw [kind, kind, hg.cell_eq hbs hbn]
        rw [hk]
        exact fun h => hnew b hb (List.mem_cons_of_mem _ h)
      · simpa [Forest.plantAttr, kind_create, Kind.attrName] using ha

theorem linkChild (hf : f.Sound) (hp : (f.kind p).holdsChildren = true) {c : NodeId}
    (hc : Loose f p c) : (f.linkChild p c).Sound := by
  have e : f.linkChild p c = f.insertAt p (f.children p).length c := by
    refine modify_congr ?_
    have hlen : ((f.setParent c (some p)).cell p).children = f.children p :=
      children_setParent f p c _
    simp [hlen]
  rw [e]
  exact hf.insertAt hp hc le_rfl

mutual

theorem plant {f : Forest} (hf : f.Sound) (t : Tree) (ht : t.Named) : (f.plant t).2.Sound := by
  cases t with
  | text s | comment s =>
    rw [Forest.plant]
    exact hf.create _ s isSmall_empty
  | element tag as cs =>
    obtain ⟨hs, hd, hcs⟩ := ht
    have hk : (f.create (.element tag) "").2.kind f.size = .element tag := by simp [kind_create]
    have hopen : (f.plantOpen tag as).Sound :=
      (hf.create (.element tag) "" isSmall_empty).plantAttrs (n := f.size) (by rw [hk]; rfl) hs hd
        (by simp [attributes_of_size_le])
    rw [plant_element]
    exact plantBelow hopen (by rw [(growsAt_plantOpen f tag as).kind_eq, hk]; rfl) cs hcs

theorem plantBelow {f : Forest} {p : NodeId} (hf : f.Sound)
    (hp : (f.kind p).holdsChildren = true) (ts : List Tree) (hts : Tree.NamedAll ts) :
    (f.plantBelow p ts).Sound := by
  cases ts with
  | nil => rwa [Forest.plantBelow]
  | cons t ts =>
    have hps : p < f.size := lt_size_of_holdsChildren hp
    obtain ⟨hroot, hlt, hg⟩ := grows_plant f t
    obtain ⟨ha, hfr, hl⟩ := plant_root f t
    have hkp : (f.plant t).2.kind p = f.kind p := by rw [kind, kind, hg.cell_eq hps]
    have hloose : Loose (f.plant t).2 p (f.plant t).1 := hroot ▸
      ⟨hlt, ha, hfr, by rw [parent_eq_link, hl, ite_self],
        fun h => absurd (lt_size_of_above hf hg hps h) (Nat.lt_irrefl _)⟩
    have hsound := (plant hf t hts.1).linkChild (by rwa [hkp]) hloose
    have hlink := growsAt_linkChild (hps.trans_le hg.size_le) hroot.symm.le (hg.growsAt hps) hps
    rw [Forest.plantBelow]
    exact plantBelow hsound (by rwa [hlink.kind_eq]) ts hts.2

end

theorem plantFragment (hf : f.Sound) {ts : List Tree} (hts : Tree.NamedAll ts) :
    (f.plantFragment ts).2.Sound :=
  (hf.create .fragment "" isSmall_empty).plantBelow (by simp [kind_create, Kind.holdsChildren])
    ts hts

/-! ### Copies -/

/-- The attributes that an element is read with have different names in small letters. -/
theorem named_attrAt (hf : f.Sound) (e : NodeId) :
    (∀ a ∈ (f.attributes e).map f.attrAt, IsSmall a.name) ∧
      (((f.attributes e).map f.attrAt).map Attribute.name).Nodup := by
  refine ⟨fun a ha => ?_, ?_⟩
  · obtain ⟨b, -, rfl⟩ := List.mem_map.1 ha
    exact hf.isSmall_attrName b
  · rw [List.map_map]
    refine (List.nodup_map_iff_inj_on (hf.nodup_attributes e)).2 fun b hb c hc h => ?_
    exact hf.eq_of_attrName_eq (hf.mem_attributes_iff.1 hb) (hf.mem_attributes_iff.1 hc) h

theorem namedAll_treesAt (hf : f.Sound) (fuel : ℕ) (ns : List NodeId) :
    Tree.NamedAll (f.treesAt fuel ns) := by
  induction fuel generalizing ns with
  | zero => exact Tree.namedAll_iff.2 (by simp [treesAt])
  | succ fuel ih =>
    rw [Tree.namedAll_iff, treesAt]
    intro t ht
    obtain ⟨n, -, ht⟩ := List.mem_flatMap.1 ht
    cases hk : f.kind n with
    | element tag =>
      rw [hk, List.mem_singleton] at ht
      obtain ⟨hs, hd⟩ := hf.named_attrAt n
      exact ht ▸ ⟨hs, hd, ih (f.children n)⟩
    | text | comment =>
      rw [hk, List.mem_singleton] at ht
      exact ht ▸ trivial
    | attr | fragment =>
      rw [hk] at ht
      cases ht

theorem plantSnapshot (hf : f.Sound) (hg : g.Sound) (n : NodeId) :
    (f.plantSnapshot (g.snapshot n)).2.Sound := by
  unfold snapshot
  cases hk : g.kind n with
  | element tag =>
    obtain ⟨hs, hd⟩ := hg.named_attrAt n
    exact hf.plant _ ⟨hs, hd, hg.namedAll_treesAt _ _⟩
  | text | comment => exact hf.plant _ trivial
  | attr name =>
    have hname := hg.isSmall_attrName n
    rw [hk] at hname
    exact hf.create (.attr name) _ hname
  | fragment => exact hf.plantFragment (hg.namedAll_treesAt _ _)

/-- A copy of a node is planted soundly, whether or not it is deep. -/
theorem copy (hf : f.Sound) (n : NodeId) (deep : Bool) : (f.copy n deep).2.Sound := by
  unfold Forest.copy
  cases deep with
  | true => exact hf.plantSnapshot hf n
  | false =>
    have hwhole := hf.plantSnapshot hf n
    unfold snapshot at hwhole ⊢
    cases hk : f.kind n with
    | element tag =>
      obtain ⟨hs, hd⟩ := hf.named_attrAt n
      exact hf.plant _ ⟨hs, hd, trivial⟩
    | fragment => exact hf.plantFragment trivial
    | text | comment | attr =>
      rw [hk] at hwhole
      exact hwhole

end Sound

end Forest

end LiveMarkup
