import LiveMarkup.Proofs.Template.Filled

/-!
# Instances of templates

The content of a compiled template is planted as a new fragment, and the paths of the template lead
to the holes in it.  `Template.exists_instance` says that this never fails and what the nodes at the
holes are; it also gives the layout of the fragment, in which hole `i` is at a node with the label
`i`.
-/

namespace LiveMarkup

namespace Forest

variable {α : Type} {f : Forest} {ι : α → NodeId} {φ : α → List ℕ} {σ : ℕ → Option String}
  {q : Option NodeId}

/-- A node that can stand for a hole: an empty comment, an attribute node with an empty value, or an
element. -/
def IsHole (f : Forest) (n : NodeId) : Prop :=
  f.kind n = .comment ∧ f.data n = "" ∨ (∃ name, f.kind n = .attr name) ∧ f.data n = "" ∨
    (f.kind n).isElement = true

mutual

/-- A node with a hole that has not been filled is a node that can stand for it; unless it is an
element, it has no other hole. -/
theorem Holds.isHole {q : Option NodeId} {M : Labelled α} (h : Holds f ι q (M.fill φ σ))
    (hM : Template.Tidy (M.map φ)) : ∀ l ∈ M.labels, ∀ i ∈ φ l, σ i = none →
      f.IsHole (ι l) ∧ ((f.kind (ι l)).isElement = true ∧ i ∈ (M.map φ).elementHoles ∨
        (f.kind (ι l)).isElement = false ∧ φ l = [i] ∧ i ∈ (M.map φ).dataHoles) := by
  cases M with
  | text l s =>
    intro m hm i hi
    obtain rfl : m = l := by simpa [Labelled.labels] using hm
    have hnil : φ m = [] := hM
    simp [hnil] at hi
  | comment l s =>
    intro m hm i hi hσ
    obtain rfl : m = l := by simpa [Labelled.labels] using hm
    rcases hM with hnil | ⟨⟨j, hone⟩, hs⟩
    · simp [hnil] at hi
    · obtain rfl : i = j := by simpa [hone] using hi
      have hfill : (Labelled.comment m s).fill φ σ = .comment m s := by
        simp only [Labelled.fill, hone, Labelled.valueAt, hσ]
      rw [hfill] at h
      refine ⟨Or.inl ⟨h.kind_eq, h.data_eq.trans hs⟩, Or.inr ⟨?_, hone, hi⟩⟩
      rw [h.kind_eq]
      rfl
  | element l tag as cs =>
    obtain ⟨he, has, hcs⟩ := h
    obtain ⟨htidy, htidies⟩ := hM
    intro m hm i hi hσ
    rw [Labelled.labels, List.cons_append, List.mem_cons, List.mem_append] at hm
    rcases hm with rfl | hm | hm
    · have helement : (f.kind (ι m)).isElement = true := by
        rw [he.kind_eq]
        rfl
      exact ⟨Or.inr (Or.inr helement), Or.inl ⟨helement, List.mem_append_left _ hi⟩⟩
    · obtain ⟨a, ha, rfl⟩ := List.mem_map.1 hm
      rcases htidy (φ a.1, a.2) (List.mem_map_of_mem ha) with hnil | ⟨⟨j, hone⟩, hs⟩
      · rw [show φ a.1 = [] from hnil] at hi
        cases hi
      · have hone' : φ a.1 = [j] := hone
        obtain rfl : i = j := by simpa [hone'] using hi
        have hfill : Labelled.fillAttribute φ σ a = a := by
          simp only [Labelled.fillAttribute, hone', Labelled.valueAt, hσ]
        obtain ⟨hkind, hdata, -⟩ := has a (hfill ▸ List.mem_map_of_mem ha)
        have hattributes : φ a.1 ∈ (as.map fun a => (φ a.1, a.2)).map Prod.fst := by
          rw [List.map_map]
          exact List.mem_map_of_mem ha
        refine ⟨Or.inr (Or.inl ⟨⟨_, hkind⟩, hdata.trans hs⟩), Or.inr ⟨?_, hone,
          List.mem_append_left _ (List.mem_flatten.2 ⟨_, hattributes, hi⟩)⟩⟩
        rw [hkind]
        rfl
    · obtain ⟨hhole, hkinds⟩ := hcs.isHole htidies m hm i hi hσ
      exact ⟨hhole, hkinds.imp (fun hk => ⟨hk.1, List.mem_append_right _ hk.2⟩)
        fun hk => ⟨hk.1, hk.2.1, List.mem_append_right _ hk.2.2⟩⟩

theorem HoldsAll.isHole {q : Option NodeId} {Ms : List (Labelled α)}
    (h : HoldsAll f ι q (Labelled.fillAll φ σ Ms)) (hMs : Template.TidyAll (Labelled.mapAll φ Ms)) :
    ∀ l ∈ Labelled.labelsAll Ms, ∀ i ∈ φ l, σ i = none →
      f.IsHole (ι l) ∧ ((f.kind (ι l)).isElement = true ∧
          i ∈ Labelled.elementHolesAll (Labelled.mapAll φ Ms) ∨
        (f.kind (ι l)).isElement = false ∧ φ l = [i] ∧
          i ∈ Labelled.dataHolesAll (Labelled.mapAll φ Ms)) := by
  cases Ms with
  | nil => simp [Labelled.labelsAll]
  | cons M Ms =>
    intro m hm i hi hσ
    rcases List.mem_append.1 hm with hm | hm
    · obtain ⟨hhole, hkinds⟩ := h.1.isHole hMs.1 m hm i hi hσ
      exact ⟨hhole, hkinds.imp (fun hk => ⟨hk.1, List.mem_append_left _ hk.2⟩)
        fun hk => ⟨hk.1, hk.2.1, List.mem_append_left _ hk.2.2⟩⟩
    · obtain ⟨hhole, hkinds⟩ := h.2.isHole hMs.2 m hm i hi hσ
      exact ⟨hhole, hkinds.imp (fun hk => ⟨hk.1, List.mem_append_right _ hk.2⟩)
        fun hk => ⟨hk.1, hk.2.1, List.mem_append_right _ hk.2.2⟩⟩

end

/-- `root` is a copy of `content` that `g` has beyond the nodes of `f`, and the nodes `ns` stand for
holes inside it, no comment and no attribute node for two. -/
structure Instance (f g : Forest) (content : List Tree) (root : NodeId) (ns : List NodeId) :
    Prop where
  grows : Grows f g
  new : f.size ≤ root
  parent_eq : g.parent root = none
  snapshot_eq : g.snapshot root = .fragment content
  isHole : ∀ n ∈ ns, g.IsHole n
  inside : ∀ n ∈ ns, g.Inside root n ∧ f.size ≤ n
  distinct (i j n : ℕ) : ns[i]? = some n → ns[j]? = some n → (g.kind n).isElement = false → i = j

end Forest

namespace Template

variable {base : String} {segments : List String} {t : Template}

/-- The node with number `n` stands for hole `i` of the numbered tree. -/
def StandsFor (Ms : List (Labelled (ℕ × List ℕ))) (i : ℕ) (n : NodeId) : Prop :=
  ∃ l, (n, l) ∈ Labelled.labelsAll Ms ∧ i ∈ l

theorem StandsFor.unique {Ms : List (Labelled (ℕ × List ℕ))}
    (hd : ((Labelled.labelsAll Ms).map Prod.fst).Nodup) {i j n : ℕ} {l : List ℕ}
    (hi : StandsFor Ms i n) (hj : StandsFor Ms j n) (hn : (n, l) ∈ Labelled.labelsAll Ms)
    (hl : ∃ k, l = [k]) : i = j := by
  obtain ⟨k, rfl⟩ := hl
  have hlabel : ∀ {i}, StandsFor Ms i n → i = k := by
    rintro i ⟨l', hl', hi⟩
    have heq := List.inj_on_of_nodup_map hd hl' hn rfl
    obtain rfl : l' = [k] := congrArg Prod.snd heq
    simpa using hi
  rw [hlabel hi, hlabel hj]

/-- The path of a hole is the address of a label with the hole. -/
theorem exists_address {Ls : List (Labelled (List ℕ))} {i : ℕ} {path : Path}
    (hhole : (i, path) ∈ holesAt [] 0 Ls) (k : ℕ) :
    ∃ b ∈ Labelled.addressesAll 0 (Labelled.numberedAll k Ls), b.2 = path ∧ i ∈ b.1.2 := by
  obtain ⟨a, ha, hi⟩ := List.mem_flatMap.1 hhole
  obtain ⟨j, hj, heq⟩ := List.mem_map.1 hi
  obtain ⟨rfl, rfl⟩ : j = i ∧ a.2 = path := by simpa using heq
  rw [← Labelled.mapAll_snd_numbered k Ls, Labelled.addressesAll_mapAll] at ha
  obtain ⟨b, hb, rfl⟩ := List.mem_map.1 ha
  exact ⟨b, hb, rfl, hj⟩

/-- The path of a hole leads to a node that stands for it. -/
theorem exists_standsFor {Ls : List (Labelled (List ℕ))}
    (hnamed : Tree.NamedAll (Labelled.trees Ls))
    {g : Forest} {root : NodeId} {k : ℕ}
    (hlayout : g.HoldsBelow Prod.fst root (Labelled.numberedAll k Ls)) {i : ℕ} {path : Path}
    (hhole : (i, path) ∈ holesAt [] 0 Ls) :
    ∃ n, g.descend root path = .ok [n] ∧ StandsFor (Labelled.numberedAll k Ls) i n := by
  obtain ⟨b, hb, rfl, hi⟩ := exists_address hhole k
  rw [← Labelled.trees_numberedAll k] at hnamed
  refine ⟨b.1.1, hlayout.descend hnamed b hb, b.1.2, ?_, hi⟩
  rw [← Labelled.fst_addressesAll 0]
  exact List.mem_map_of_mem hb

/-- The nodes at the ends of the paths, in the order of the holes. -/
theorem exists_nodes {Ls : List (Labelled (List ℕ))} (hnamed : Tree.NamedAll (Labelled.trees Ls))
    {paths : List Path} (hpaths : ∀ i path, (i, path) ∈ holesAt [] 0 Ls ↔ paths[i]? = some path)
    {g : Forest} {root : NodeId} {k : ℕ}
    (hlayout : g.HoldsBelow Prod.fst root (Labelled.numberedAll k Ls)) :
    ∃ ns, g.descendAll root paths = .ok ns ∧ ns.length = paths.length ∧
      ∀ i n, ns[i]? = some n → StandsFor (Labelled.numberedAll k Ls) i n := by
  have hnode : ∀ i : Fin paths.length, ∃ n, g.descend root paths[i] = .ok [n] ∧
      StandsFor (Labelled.numberedAll k Ls) i n := fun i =>
    exists_standsFor hnamed hlayout ((hpaths i _).2 (List.getElem?_eq_getElem i.isLt))
  choose node hdescend hstands using hnode
  refine ⟨List.ofFn node, Forest.descendAll_eq_ok ?_, List.length_ofFn, fun i n hn => ?_⟩
  · rw [List.forall₂_iff_get]
    refine ⟨by simp, fun i hi _ => ?_⟩
    simpa using hdescend ⟨i, hi⟩
  · obtain ⟨hi, rfl⟩ := List.getElem?_eq_some_iff.1 hn
    rw [List.getElem_ofFn]
    exact hstands _

/-- Planted trees are a copy, and the nodes at their holes stand for them. -/
theorem instance_plantFragment {Ls : List (Labelled (List ℕ))} (htidy : TidyAll Ls) (f : Forest)
    {ns : List NodeId}
    (hstands : ∀ i n, ns[i]? = some n → StandsFor (Labelled.numberedAll (f.size + 1) Ls) i n) :
    f.Instance (f.plantFragment (Labelled.trees Ls)).2 (Labelled.trees Ls) f.size ns := by
  obtain ⟨-, hkind, hgrows, hlink, hlayout⟩ := f.holdsBelow_plantFragment Ls
  have hd := Labelled.nodup_labels_numberedAll (f.size + 1) Ls
  rw [← Labelled.mapAll_snd_numbered (f.size + 1) Ls] at htidy
  have hunfilled := hlayout.holds
  rw [← Labelled.fillAll_none (φ := Prod.snd) (Labelled.numberedAll (f.size + 1) Ls)] at hunfilled
  have hholes := hunfilled.isHole htidy
  refine ⟨hgrows, le_rfl, ?_, ?_, fun n hn => ?_, fun n hn => ?_, fun i j n hi hj hn => ?_⟩
  · rw [Forest.parent_eq_link, hkind, hlink]
    rfl
  · rw [hlayout.snapshot hkind hd, Labelled.trees_numberedAll]
  · obtain ⟨i, hi⟩ := List.getElem?_of_mem hn
    obtain ⟨l, hl, hil⟩ := hstands i n hi
    exact (hholes _ hl i hil rfl).1
  · obtain ⟨i, hi⟩ := List.getElem?_of_mem hn
    obtain ⟨l, hl, hil⟩ := hstands i n hi
    have hrange : n ∈ List.range' (f.size + 1) (Labelled.labelsAll Ls).length := by
      rw [← Labelled.fst_labelsAll_numbered]
      exact List.mem_map_of_mem hl
    exact ⟨hlayout.holds.inside _ hl, (Nat.le_succ _).trans (List.mem_range'_1.1 hrange).1⟩
  · obtain ⟨l, hl, hil⟩ := hstands i n hi
    rcases (hholes _ hl i hil rfl).2 with ⟨helement, -⟩ | ⟨-, hone, -⟩
    · rw [hn] at helement
      cases helement
    · exact (hstands i n hi).unique hd (hstands j n hj) hl ⟨i, hone⟩

/-- Planting the content of a compiled template and following its paths never fails.  It gives a
copy of the content with a node for each hole, and a layout of the copy. -/
theorem exists_instance (ht : compile base segments = .ok t) (f : Forest) :
    ∃ ns, (f.plantFragment t.content).2.descendAll f.size t.paths = .ok ns ∧
      ns.length = holeCount segments ∧
      f.Instance (f.plantFragment t.content).2 t.content f.size ns ∧
      ∀ i n, ns[i]? = some n →
        StandsFor (Labelled.numberedAll (f.size + 1) (cutSource base segments)) i n := by
  obtain ⟨hcontent, hlength, -, hpaths⟩ := compile_eq_ok ht
  obtain ⟨-, -, -, -, hlayout⟩ := f.holdsBelow_plantFragment (cutSource base segments)
  obtain ⟨ns, hdescend, hns, hstands⟩ :=
    exists_nodes (namedAll_cutSource base segments) hpaths hlayout
  rw [hcontent]
  exact ⟨ns, hdescend, hns.trans hlength,
    instance_plantFragment (tidyAll_cutSource base segments) f hstands, hstands⟩

end Template

end LiveMarkup
