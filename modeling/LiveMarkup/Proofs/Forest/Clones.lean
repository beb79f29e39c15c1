import Mathlib.Data.Set.Function
import LiveMarkup.Proofs.Forest.Alike
import LiveMarkup.Proofs.Forest.Bare
import LiveMarkup.Proofs.Forest.Sealed

/-!
# What a copy is

A deep copy of a node consists of new nodes, one for each node inside the original: the node itself,
what is below it, and their attribute nodes.  Each new node has the kind and the data of its
original, and its links lead to the copies of what those of the original lead to, in the same order;
it has no listeners, and the copy of the node itself has no parent (`Forest.Sound.exists_copied`).

The copy is planted from a labelled tree that lies at the original too.  So the labels are pairs of
a new node and its original, and `Holds.twins` reads off from the two layouts what the nodes of each
pair have in common.
-/

namespace LiveMarkup.Forest

variable {f g : Forest} {n : NodeId} {x : NodeId × NodeId} {xs ys : List (NodeId × NodeId)}

/-! ### Pairs of nodes -/

/-- The nodes of a pair have the same kind and the same data, and their children and attribute nodes
are paired in `xs`. -/
structure Twin (f g : Forest) (xs : List (NodeId × NodeId)) (x : NodeId × NodeId) : Prop where
  kind_eq : g.kind x.1 = f.kind x.2
  data_eq : g.data x.1 = f.data x.2
  children : ∃ cs ⊆ xs, g.children x.1 = cs.map Prod.fst ∧ f.children x.2 = cs.map Prod.snd
  attributes : ∃ as ⊆ xs, g.attributes x.1 = as.map Prod.fst ∧ f.attributes x.2 = as.map Prod.snd

/-- The nodes of a pair are linked to the nodes of a pair in `xs`. -/
def LinkedAlike (f g : Forest) (xs : List (NodeId × NodeId)) (x : NodeId × NodeId) : Prop :=
  ∃ y ∈ xs, g.link x.1 = some y.1 ∧ f.link x.2 = some y.2

theorem Twin.mono (h : Twin f g xs x) (hxs : xs ⊆ ys) : Twin f g ys x := by
  obtain ⟨hk, hd, ⟨cs, hcs, hc⟩, as, has, ha⟩ := h
  exact ⟨hk, hd, ⟨cs, List.Subset.trans hcs hxs, hc⟩, as, List.Subset.trans has hxs, ha⟩

theorem LinkedAlike.mono (h : LinkedAlike f g xs x) (hxs : xs ⊆ ys) : LinkedAlike f g ys x := by
  obtain ⟨y, hy, h⟩ := h
  exact ⟨y, hxs hy, h⟩

namespace Sound

variable (hf : f.Sound) (hg : g.Sound)

include hf hg

/-- Nodes that hold no children have no attribute nodes either. -/
theorem twin_of_leaf (hk : g.kind x.1 = f.kind x.2) (hd : g.data x.1 = f.data x.2)
    (hleaf : (f.kind x.2).holdsChildren = false) : Twin f g xs x := by
  have helement : (f.kind x.2).isElement = false := by
    cases hx : f.kind x.2 <;> simp_all [Kind.isElement, Kind.holdsChildren]
  refine ⟨hk, hd, ⟨[], List.nil_subset _, ?_⟩, [], List.nil_subset _, ?_⟩
  · exact ⟨hg.children_eq_nil (hk ▸ hleaf), hf.children_eq_nil hleaf⟩
  · exact ⟨hg.attributes_eq_nil (hk ▸ helement), hf.attributes_eq_nil helement⟩

end Sound

mutual

/-- The pairs in a tree that is laid out twice. -/
theorem Holds.twins (hf : f.Sound) (hg : g.Sound) (hbf : f.Bare) (hbg : g.Bare)
    {q q' : Option NodeId} {M : Labelled (NodeId × NodeId)} (h : Holds f Prod.snd q M)
    (h' : Holds g Prod.fst q' M) :
    ∀ x ∈ M.labels, Twin f g M.labels x ∧ (x = M.label ∨ LinkedAlike f g M.labels x) := by
  cases M with
  | text l s | comment l s =>
    intro x hx
    obtain rfl := List.mem_singleton.1 hx
    refine ⟨hf.twin_of_leaf hg ?_ ?_ ?_, .inl rfl⟩
    · exact (HoldsLeaf.kind_eq h').trans (HoldsLeaf.kind_eq h).symm
    · exact (HoldsLeaf.data_eq h').trans (HoldsLeaf.data_eq h).symm
    · rw [HoldsLeaf.kind_eq h]
      rfl
  | element l tag as cs =>
    obtain ⟨he, has, hcs⟩ := h
    obtain ⟨he', has', hcs'⟩ := h'
    have hroot : l ∈ (Labelled.element l tag as cs).labels := List.mem_cons_self
    have hattrs : as.map Prod.fst ⊆ (Labelled.element l tag as cs).labels := fun x hx =>
      List.mem_cons_of_mem l (List.mem_append_left _ hx)
    have hbelow : Labelled.labelsAll cs ⊆ (Labelled.element l tag as cs).labels := fun x hx =>
      List.mem_append_right _ hx
    intro x hx
    rw [Labelled.labels, List.cons_append, List.mem_cons, List.mem_append] at hx
    rcases hx with rfl | hx | hx
    · refine ⟨⟨he'.kind_eq.trans he.kind_eq.symm, ?_,
        ⟨cs.map Labelled.label, List.Subset.trans (Labelled.labels_subset_labelsAll cs) hbelow, ?_⟩,
        as.map Prod.fst, hattrs, ?_⟩, .inl rfl⟩
      · rw [hbf _ (by rw [he.kind_eq]; rfl), hbg _ (by rw [he'.kind_eq]; rfl)]
      · rw [List.map_map, List.map_map]
        exact ⟨he'.children_eq, he.children_eq⟩
      · rw [List.map_map, List.map_map]
        exact ⟨he'.attributes_eq, he.attributes_eq⟩
    · obtain ⟨a, ha, rfl⟩ := List.mem_map.1 hx
      obtain ⟨hk, hd, hl⟩ := has a ha
      obtain ⟨hk', hd', hl'⟩ := has' a ha
      exact ⟨hf.twin_of_leaf hg (hk'.trans hk.symm) (hd'.trans hd.symm) (by rw [hk]; rfl),
        .inr ⟨l, hroot, hl', hl⟩⟩
    · obtain ⟨htwin, hlink⟩ := HoldsAll.twins hf hg hbf hbg hcs hcs' x hx
      refine ⟨htwin.mono hbelow, .inr ?_⟩
      rcases hlink with ⟨M, hM, rfl⟩ | hlink
      · exact ⟨l, hroot, (holdsAll_iff.1 hcs' M hM).link_eq, (holdsAll_iff.1 hcs M hM).link_eq⟩
      · exact hlink.mono hbelow

/-- The pairs in several trees that are laid out twice. -/
theorem HoldsAll.twins (hf : f.Sound) (hg : g.Sound) (hbf : f.Bare) (hbg : g.Bare)
    {q q' : Option NodeId} {Ms : List (Labelled (NodeId × NodeId))} (h : HoldsAll f Prod.snd q Ms)
    (h' : HoldsAll g Prod.fst q' Ms) :
    ∀ x ∈ Labelled.labelsAll Ms, Twin f g (Labelled.labelsAll Ms) x ∧
      ((∃ M ∈ Ms, x = M.label) ∨ LinkedAlike f g (Labelled.labelsAll Ms) x) := by
  cases Ms with
  | nil => exact fun x hx => (List.not_mem_nil hx).elim
  | cons M Ms =>
    intro x hx
    rcases List.mem_append.1 hx with hx | hx
    · obtain ⟨htwin, hlink⟩ := Holds.twins hf hg hbf hbg h.1 h'.1 x hx
      have hsub := List.subset_append_left M.labels (Labelled.labelsAll Ms)
      exact ⟨htwin.mono hsub, hlink.imp (fun hx => ⟨M, List.mem_cons_self, hx⟩) (·.mono hsub)⟩
    · obtain ⟨htwin, hlink⟩ := HoldsAll.twins hf hg hbf hbg h.2 h'.2 x hx
      have hsub := List.subset_append_right M.labels (Labelled.labelsAll Ms)
      exact ⟨htwin.mono hsub, hlink.imp (fun ⟨N, hN, hx⟩ => ⟨N, List.mem_cons_of_mem M hN, hx⟩)
        (·.mono hsub)⟩

end

/-! ### Copies and originals -/

/-- `xs` pairs the new nodes of `g` with what is inside the node `n` of `f`. -/
structure Paired (f g : Forest) (n : NodeId) (xs : List (NodeId × NodeId)) : Prop where
  new : xs.map Prod.fst = List.range' f.size (g.size - f.size)
  nodup : (xs.map Prod.snd).Nodup
  root : (f.size, n) ∈ xs
  link_root : g.link f.size = none
  twin : ∀ x ∈ xs, Twin f g xs x
  linked : ∀ x ∈ xs, x = (f.size, n) ∨ LinkedAlike f g xs x
  inside : ∀ x ∈ xs, f.Inside n x.2

section Pairs

variable (hf : f.Sound) (hb : f.Bare)

include hf hb

/-- What is planted from the tree below a node is paired with that tree. -/
theorem Subtree.paired {L : Labelled NodeId} (hL : f.Subtree n L) (hg : (f.plant L.tree).2.Sound) :
    Paired f (f.plant L.tree).2 n (L.numbered f.size).labels := by
  obtain ⟨hsize, hholds⟩ := holds_plant f L
  have hmap : (L.numbered f.size).map Prod.snd = L := Labelled.map_snd_numbered f.size L
  have hsnd : (L.numbered f.size).labels.map Prod.snd = L.labels := by
    rw [← Labelled.labels_map, hmap]
  have hroot : (L.numbered f.size).label = (f.size, n) := by
    have hlabel := Labelled.label_map Prod.snd (L.numbered f.size)
    rw [hmap, hL.label_eq] at hlabel
    exact Prod.ext (label_numbered L f.size) hlabel.symm
  have horiginal : Holds f Prod.snd (f.link n) (L.numbered f.size) :=
    Holds.of_map (ι := id) (by rw [hmap]; exact hL.holds)
  have htwins := horiginal.twins hf hg hb (hb.plant _) hholds
  refine ⟨?_, hsnd ▸ hL.nodup, hroot ▸ Labelled.label_mem_labels _, ?_,
    fun x hx => (htwins x hx).1, fun x hx => hroot ▸ (htwins x hx).2, fun x hx => ?_⟩
  · rw [Labelled.fst_labels_numbered, hsize, Nat.add_sub_cancel_left]
  · have hlink := hholds.link_eq
    rwa [hroot] at hlink
  · exact hL.inside x.2 (hsnd ▸ List.mem_map_of_mem hx)

/-- What is planted from the trees below a fragment is paired with them. -/
theorem paired_plantFragment (hk : f.kind n = .fragment) {Ls : List (Labelled NodeId)}
    (hbelow : f.HoldsBelow id n Ls) (hd : (n :: Labelled.labelsAll Ls).Nodup)
    (hg : (f.plantFragment (Labelled.trees Ls)).2.Sound) :
    Paired f (f.plantFragment (Labelled.trees Ls)).2 n
      ((f.size, n) :: Labelled.labelsAll (Labelled.numberedAll (f.size + 1) Ls)) := by
  obtain ⟨-, hkind, -, hlink, hchildren, hholds⟩ := holdsBelow_plantFragment f Ls
  set Ms := Labelled.numberedAll (f.size + 1) Ls with hMs
  have hmap : Labelled.mapAll Prod.snd Ms = Ls := Labelled.mapAll_snd_numbered (f.size + 1) Ls
  have hsnd : (Labelled.labelsAll Ms).map Prod.snd = Labelled.labelsAll Ls := by
    rw [← Labelled.labelsAll_mapAll, hmap]
  have horiginal : HoldsAll f Prod.snd (some n) Ms :=
    HoldsAll.of_mapAll (ι := id) (by rw [hmap]; exact hbelow.holds)
  have htwins := horiginal.twins hf hg hb (hb.plantFragment _) hholds
  have hsub := List.subset_cons_self (f.size, n) (Labelled.labelsAll Ms)
  have hnone : (f.kind n).isElement = false := by rw [hk]; rfl
  refine ⟨?_, ?_, List.mem_cons_self, hlink, ?_, ?_, ?_⟩
  · rw [List.map_cons, hMs, Labelled.fst_labelsAll_numbered, size_plantFragment, Nat.add_assoc,
      Nat.add_sub_cancel_left, Nat.add_comm 1, List.range'_succ]
  · rw [List.map_cons, hsnd]
    exact hd
  · have hroots := List.Subset.trans (Labelled.labels_subset_labelsAll Ms) hsub
    refine List.forall_mem_cons.2 ⟨⟨hkind.trans hk.symm, ?_,
      ⟨Ms.map Labelled.label, hroots, ?_, ?_⟩, [], List.nil_subset _, ?_, ?_⟩,
      fun x hx => (htwins x hx).1.mono hsub⟩
    · rw [hb n (by rw [hk]; rfl), hb.plantFragment _ _ (by rw [hkind]; rfl)]
    · rw [List.map_map]
      exact hchildren
    · rw [hbelow.children_eq, ← hmap, map_label_mapAll, List.map_map]
      rfl
    · exact hg.attributes_eq_nil (by rw [hkind]; rfl)
    · exact hf.attributes_eq_nil hnone
  · refine List.forall_mem_cons.2 ⟨.inl rfl, fun x hx => .inr ?_⟩
    rcases (htwins x hx).2 with ⟨M, hM, rfl⟩ | hlinked
    · exact ⟨(f.size, n), List.mem_cons_self, (holdsAll_iff.1 hholds M hM).link_eq,
        (holdsAll_iff.1 horiginal M hM).link_eq⟩
    · exact hlinked.mono hsub
  · refine List.forall_mem_cons.2 ⟨.refl n, fun x hx => ?_⟩
    exact hbelow.holds.inside x.2 (hsnd ▸ List.mem_map_of_mem hx)

omit hb in
/-- A new attribute node is paired with the one it looks like. -/
theorem paired_create_attr {name : String} (hk : f.kind n = .attr name)
    (hg : (f.create (.attr name) (f.data n)).2.Sound) :
    Paired f (f.create (.attr name) (f.data n)).2 n [(f.size, n)] := by
  have htwin : Twin f (f.create (.attr name) (f.data n)).2 [(f.size, n)] (f.size, n) := by
    refine hf.twin_of_leaf hg ?_ ?_ (by rw [hk]; rfl)
    · rw [kind_create, if_pos rfl, hk]
    · rw [data_create, if_pos rfl]
  refine ⟨?_, List.nodup_singleton n, List.mem_singleton_self _, ?_,
    List.forall_mem_singleton.2 htwin, List.forall_mem_singleton.2 (.inl rfl),
    List.forall_mem_singleton.2 (.refl n)⟩
  · rw [size_create, Nat.add_sub_cancel_left]
    rfl
  · rw [link_create, link_of_size_le le_rfl]

/-- A deep copy is paired with what it is a copy of. -/
theorem exists_paired_copy (n : NodeId) : ∃ xs, Paired f (f.copy n true).2 n xs := by
  have hg : (f.plantSnapshot (f.snapshot n)).2.Sound := hf.copy n true
  change ∃ xs, Paired f (f.plantSnapshot (f.snapshot n)).2 n xs
  by_cases hattr : (f.kind n).isAttr = true
  · obtain ⟨name, hk⟩ : ∃ name, f.kind n = .attr name := by
      cases hk : f.kind n <;> simp_all [Kind.isAttr]
    have hsnapshot : f.snapshot n = .attr ⟨name, f.data n⟩ := by rw [Forest.snapshot, hk]
    rw [hsnapshot] at hg ⊢
    exact ⟨_, paired_create_attr hf hk hg⟩
  by_cases hk : f.kind n = .fragment
  · obtain ⟨Ls, hbelow, hnodup, -⟩ := hf.exists_below hattr
    have hsnapshot := hbelow.snapshot hk (by rw [List.map_id]; exact (List.nodup_cons.1 hnodup).2)
    rw [hsnapshot] at hg ⊢
    exact ⟨_, paired_plantFragment hf hb hk hbelow hnodup hg⟩
  · obtain ⟨L, hL⟩ := hf.exists_subtree hattr hk
    have hsnapshot : f.snapshot n = .tree L.tree := by
      rw [← hL.label_eq]
      exact Holds.snapshot (ι := id) hL.holds (by rw [List.map_id]; exact hL.nodup)
    rw [hsnapshot] at hg ⊢
    exact ⟨_, Subtree.paired hf hb hL hg⟩

end Pairs

/-- The new nodes of `g` are copies, given by `φ`, of the node `n` of `f` and everything inside it:
the nodes of `f` are as they were, and every copy has the kind, the data, the children and the
attribute nodes of its original, is linked as it is unless it is the copy of `n`, and has no
listeners. -/
structure Copied (f g : Forest) (n : NodeId) (φ : NodeId → NodeId) : Prop where
  grows : Grows f g
  bijOn : Set.BijOn φ {m | f.Inside n m} (Set.Ico f.size g.size)
  cell_eq {m : NodeId} : f.Inside n m → g.cell (φ m) =
    ⟨f.kind m, f.data m, if m = n then none else (f.link m).map φ, (f.children m).map φ,
      (f.attributes m).map φ, []⟩

namespace Paired

variable (h : Paired f g n xs)

include h

theorem nodup_fst : (xs.map Prod.fst).Nodup := h.new ▸ List.nodup_range'

theorem mem_Ico (hsize : f.size ≤ g.size) {m : NodeId} :
    m ∈ xs.map Prod.fst ↔ m ∈ Set.Ico f.size g.size := by
  rw [h.new, List.mem_range'_1, Nat.add_sub_cancel' hsize, Set.mem_Ico]

/-- The pairs give every original its copy. -/
theorem exists_map : ∃ φ : NodeId → NodeId, ∀ x ∈ xs, φ x.2 = x.1 := by
  refine ⟨fun m => ((xs.find? (·.2 == m)).map Prod.fst).getD 0, fun x hx => ?_⟩
  cases hfind : xs.find? (·.2 == x.2) with
  | none => simpa using List.find?_eq_none.1 hfind x hx
  | some y =>
    have hy : y.2 = x.2 := by simpa using List.find?_some hfind
    obtain rfl : y = x :=
      List.inj_on_of_nodup_map h.nodup (List.mem_of_find?_eq_some hfind) hx hy
    simp [hfind]

/-- Everything that is inside the node has been paired. -/
theorem mem_of_inside (hf : f.Sound) {m : NodeId} (hm : f.Inside n m) : ∃ x ∈ xs, x.2 = m := by
  have habove {m : NodeId} (hm : f.Above n m) : ∃ x ∈ xs, x.2 = m := by
    induction hm with
    | refl => exact ⟨_, h.root, rfl⟩
    | tail _ hparent ih =>
      obtain ⟨x, hx, rfl⟩ := ih
      obtain ⟨cs, hcs, -, hchildren⟩ := (h.twin x hx).children
      obtain ⟨y, hy, rfl⟩ := List.mem_map.1 (hchildren ▸ hf.mem_children_iff.2 hparent)
      exact ⟨y, hcs hy, rfl⟩
  rcases hm with hm | ⟨e, howner, hm⟩
  · exact habove hm
  · obtain ⟨x, hx, rfl⟩ := habove hm
    obtain ⟨as, has, -, hattributes⟩ := (h.twin x hx).attributes
    obtain ⟨y, hy, rfl⟩ := List.mem_map.1 (hattributes ▸ hf.mem_attributes_iff.2 howner)
    exact ⟨y, has hy, rfl⟩

omit h in
theorem map_fst_eq {φ : NodeId → NodeId} (hφ : ∀ x ∈ xs, φ x.2 = x.1) (hys : ys ⊆ xs) :
    ys.map Prod.fst = (ys.map Prod.snd).map φ := by
  rw [List.map_map]
  exact List.map_congr_left fun y hy => (hφ y (hys hy)).symm

/-- The nodes of a pair are linked alike, unless it is the first one. -/
theorem link_eq {φ : NodeId → NodeId} (hφ : ∀ x ∈ xs, φ x.2 = x.1) (hx : x ∈ xs) :
    g.link x.1 = if x.2 = n then none else (f.link x.2).map φ := by
  split_ifs with hn
  · obtain rfl : x = (f.size, n) := List.inj_on_of_nodup_map h.nodup hx h.root hn
    exact h.link_root
  · rcases h.linked x hx with rfl | ⟨y, hy, hlink, hlink'⟩
    · exact absurd rfl hn
    · rw [hlink, hlink', Option.map_some, hφ y hy]

theorem copied (hf : f.Sound) (hgrows : Grows f g) (hl : ∀ m, g.listeners m = f.listeners m) :
    ∃ φ, φ n = f.size ∧ Copied f g n φ := by
  obtain ⟨φ, hφ⟩ := h.exists_map
  refine ⟨φ, hφ _ h.root, hgrows, ⟨fun m hm => ?_, fun m hm k hk hmk => ?_, fun k hk => ?_⟩,
    fun {m} hm => ?_⟩
  · obtain ⟨x, hx, rfl⟩ := h.mem_of_inside hf hm
    rw [hφ x hx]
    exact (h.mem_Ico hgrows.size_le).1 (List.mem_map_of_mem hx)
  · obtain ⟨x, hx, rfl⟩ := h.mem_of_inside hf hm
    obtain ⟨y, hy, rfl⟩ := h.mem_of_inside hf hk
    rw [hφ x hx, hφ y hy] at hmk
    exact congrArg Prod.snd (List.inj_on_of_nodup_map h.nodup_fst hx hy hmk)
  · obtain ⟨x, hx, rfl⟩ := List.mem_map.1 ((h.mem_Ico hgrows.size_le).2 hk)
    exact ⟨x.2, h.inside x hx, hφ x hx⟩
  · obtain ⟨x, hx, rfl⟩ := h.mem_of_inside hf hm
    obtain ⟨hkind, hdata, ⟨cs, hcs, hchildren, hchildren'⟩, as, has, hattributes, hattributes'⟩ :=
      h.twin x hx
    have hnew : f.size ≤ x.1 := ((h.mem_Ico hgrows.size_le).1 (List.mem_map_of_mem hx)).1
    have hlisteners : g.listeners x.1 = [] := (hl x.1).trans (listeners_of_size_le hnew)
    rw [hφ x hx, ← hkind, ← hdata, ← h.link_eq hφ hx, hchildren', ← map_fst_eq hφ hcs,
      ← hchildren, hattributes', ← map_fst_eq hφ has, ← hattributes, ← hlisteners]
    rfl

end Paired

/-- A deep copy of a node consists of copies of everything inside it. -/
theorem Sound.exists_copied (hf : f.Sound) (hb : f.Bare) (n : NodeId) :
    ∃ φ, (f.copy n true).1 = φ n ∧ Copied f (f.copy n true).2 n φ := by
  obtain ⟨xs, hxs⟩ := exists_paired_copy hf hb n
  obtain ⟨φ, hroot, hcopied⟩ := hxs.copied hf (grows_copy f n) fun m => f.listeners_copy n m true
  exact ⟨φ, (fst_copy f n).trans hroot.symm, hcopied⟩

/-! ### Nodes that no others lead to -/

/-- Numbers that are not in use lead to no nodes. -/
theorem sealed_Iio (f : Forest) : f.Sealed (Set.Iio f.size) where
  lt hm := hm
  links {m} hm := by
    rw [cell_of_size_le (Nat.le_of_not_lt hm)]
    exact Cell.linksTo_detached _ _ _

namespace Sound

variable (hf : f.Sound)

include hf

theorem lt_size_of_link {m p : NodeId} (h : f.link m = some p) : m < f.size ∧ p < f.size := by
  by_cases hattr : (f.kind m).isAttr = true
  · have howner : f.owner m = some p := by rw [owner_eq_link, if_pos hattr, h]
    exact ⟨lt_size_of_owner howner, lt_size_of_isElement (hf.isElement_of_owner howner)⟩
  · have hparent : f.parent m = some p := by rw [parent_eq_link, if_neg hattr, h]
    exact ⟨lt_size_of_parent hparent, hf.lt_size_of_child hparent⟩

/-- Every list of children or attribute nodes names nodes that are linked back. -/
theorem linksTo {T : NodeId → Prop} {m : NodeId} (hup : ∀ p, f.link m = some p → T p)
    (hdown : ∀ c, f.link c = some m → T c) : (f.cell m).LinksTo T where
  parent h := hup _ h
  children {c} h := by
    have hparent := hf.mem_children_iff.1 h
    rw [parent_eq_link, if_neg (not_isAttr_of_parent hparent)] at hparent
    exact hdown c hparent
  attributes {a} h := by
    have howner := hf.mem_attributes_iff.1 h
    rw [owner_eq_link, if_pos (isAttr_of_owner howner)] at howner
    exact hdown a howner

theorem leadsTo_of_link {m p : NodeId} (h : f.link m = some p) : f.LeadsTo p m := by
  refine Relation.ReflTransGen.single ?_
  by_cases hattr : (f.kind m).isAttr = true
  · exact .inr (.inl (hf.mem_attributes_iff.2 (by rw [owner_eq_link, if_pos hattr, h])))
  · exact .inl (hf.mem_children_iff.2 (by rw [parent_eq_link, if_neg hattr, h]))

theorem lt_size_of_leadsTo {m : NodeId} (hn : n < f.size) (h : f.LeadsTo n m) : m < f.size := by
  cases h with
  | refl => exact hn
  | tail _ hstep =>
    rcases hstep with hchild | hattr | hlink
    · exact lt_size_of_parent (hf.mem_children_iff.1 hchild)
    · exact lt_size_of_owner (hf.mem_attributes_iff.1 hattr)
    · exact (hf.lt_size_of_link hlink).2

/-- No other node leads to the tree that a node is in. -/
theorem sealed_leadsTo (hn : n < f.size) : f.Sealed {m | f.LeadsTo n m} where
  lt hm := hf.lt_size_of_leadsTo hn hm
  links {m} hm := by
    refine hf.linksTo (fun p hp => ⟨(hf.lt_size_of_link hp).2, fun hin => ?_⟩)
      fun c hc => ⟨(hf.lt_size_of_link hc).1, fun hin => ?_⟩
    · exact hm (Relation.ReflTransGen.trans hin (hf.leadsTo_of_link hp))
    · exact hm (Relation.ReflTransGen.tail hin (.inr (.inr hc)))

/-- Nodes that were there before lead to no new ones. -/
theorem sealed_Ico (h : Grows f g) : g.Sealed (Set.Ico f.size g.size) where
  lt hm := hm.2
  links {m} hm := by
    rcases Nat.lt_or_ge m f.size with hlt | hle
    · have hopen : ∀ k, k < f.size → g.Open (Set.Ico f.size g.size) k := fun k hk =>
        ⟨hk.trans_le h.size_le, fun hin => hk.not_ge hin.1⟩
      rw [h.cell_eq hlt]
      exact hf.linksTo (fun p hp => hopen p (hf.lt_size_of_link hp).2)
        fun c hc => hopen c (hf.lt_size_of_link hc).1
    · rw [cell_of_size_le (Nat.le_of_not_lt fun hlt => hm ⟨hle, hlt⟩)]
      exact Cell.linksTo_detached _ _ _

end Sound

end LiveMarkup.Forest
