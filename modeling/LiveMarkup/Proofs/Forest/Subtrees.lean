import Mathlib.Data.Finset.Card
import Mathlib.Data.Finset.Range
import LiveMarkup.Proofs.Forest.Addresses
import LiveMarkup.Proofs.Forest.Moves
import LiveMarkup.Proofs.Forest.Sound

/-!
# What lies below a node

In a sound forest everything below a node that is no fragment is a tree, whose labels are the nodes
themselves (`Sound.exists_subtree`), and what lies below a node without a parent is apart from what
lies below another one (`Sound.eq_of_inside`).  A `Stock` is a node that can take the place of a
comment, with the trees that it brings along.
-/

namespace LiveMarkup

/-- The trees that a node which looks like this brings along where it is inserted. -/
def Snapshot.pieces : Snapshot → List Tree
  | .tree t => [t]
  | .fragment ts => ts
  | .attr _ => []

namespace Forest

variable {f : Forest} {a b c d m n p : NodeId} {q : Option NodeId}

theorem HoldsBelow.congr {α : Type} {g : Forest} {ι : α → NodeId} {Ls : List (Labelled α)}
    (h : f.HoldsBelow ι p Ls) (hp : g.cell p = f.cell p)
    (hc : ∀ l ∈ Labelled.labelsAll Ls, g.cell (ι l) = f.cell (ι l)) : g.HoldsBelow ι p Ls :=
  ⟨by rw [children, hp]; exact h.children_eq, h.holds.congr hc⟩

/-! ### Nodes that lie inside two others -/

/-- What is above a node is a chain. -/
theorem Above.total (hc : f.Above c m) (hd : f.Above d m) : f.Above c d ∨ f.Above d c := by
  induction hc using Relation.ReflTransGen.head_induction_on generalizing d with
  | refl => exact Or.inr hd
  | @head c b hcb hbm ih =>
    rcases ih hd with hbd | hdb
    · exact Or.inl ((Above.of_parent hcb).trans hbd)
    · rcases hdb.cases with rfl | ⟨e, he, hde⟩
      · exact Or.inl (Above.of_parent hcb)
      · obtain rfl : c = e := Option.some.inj (hcb.symm.trans he)
        exact Or.inr hde

/-- What lies inside a node that is no attribute node has it above, or its owner has. -/
theorem Inside.above (ha : ¬ (f.kind c).isAttr = true) (h : f.Inside c m) :
    f.Above c ((f.owner m).getD m) := by
  rcases h with h | ⟨e, ho, he⟩
  · rcases ho : f.owner m with _ | e
    · exact h
    · have hm := h.eq_of_parent_none (parent_of_isAttr (isAttr_of_owner ho))
      exact absurd (hm ▸ isAttr_of_owner ho) ha
  · rwa [ho]

theorem Inside.refl (n : NodeId) : f.Inside n n := Or.inl (Above.refl n)

namespace Sound

variable (hf : f.Sound)

include hf

theorem eq_of_above (hc : f.parent c = q) (hd : f.parent d = q) (h : f.Above c d) : c = d := by
  rcases h.cases with e | ⟨p, hp, hcp⟩
  · exact e
  · exact absurd hcp (hf.not_above_of_parent ((hc.trans hd.symm).trans hp))

/-- What lies below one of two siblings, or of two nodes without a parent, is not below the other.
-/
theorem eq_of_inside (hc : f.parent c = q) (hd : f.parent d = q)
    (hca : ¬ (f.kind c).isAttr = true) (hda : ¬ (f.kind d).isAttr = true) (hcm : f.Inside c m)
    (hdm : f.Inside d m) : c = d := by
  rcases (hcm.above hca).total (hdm.above hda) with h | h
  · exact hf.eq_of_above hc hd h
  · exact (hf.eq_of_above hd hc h).symm

/-! ### Going down -/

open Classical in
/-- Children never lead back. -/
theorem wellFounded_child : WellFounded fun c n => f.parent c = some n := by
  -- A child has fewer nodes below it than its parent.
  let below (n : NodeId) : Finset ℕ := (Finset.range f.size).filter (f.Above n)
  refine Subrelation.wf (fun {c n} h => ?_) (measure fun n => (below n).card).wf
  refine Finset.card_lt_card (Finset.ssubset_iff_of_subset (fun m hm => ?_) |>.2
    ⟨n, ?_, fun hn => ?_⟩)
  · rw [Finset.mem_filter] at hm ⊢
    exact ⟨hm.1, (Above.of_parent h).trans hm.2⟩
  · exact Finset.mem_filter.2 ⟨Finset.mem_range.2 (hf.lt_size_of_child h), Above.refl n⟩
  · exact hf.not_above_of_parent h (Finset.mem_filter.1 hn).2

end Sound

/-! ### Trees -/

/-- Everything below `n` is the tree `L`. -/
structure Subtree (f : Forest) (n : NodeId) (L : Labelled NodeId) : Prop where
  label_eq : L.label = n
  holds : f.Holds id (f.link n) L
  inside : ∀ l ∈ L.labels, f.Inside n l
  nodup : L.labels.Nodup

/-- Everything below the nodes `ns` is the trees `Ls`. -/
structure Subtrees (f : Forest) (ns : List NodeId) (Ls : List (Labelled NodeId)) : Prop where
  labels_eq : Ls.map (·.label) = ns
  holds : ∀ L ∈ Ls, f.Holds id (f.link L.label) L
  inside : ∀ l ∈ Labelled.labelsAll Ls, ∃ n ∈ ns, f.Inside n l
  nodup : (Labelled.labelsAll Ls).Nodup

namespace Sound

variable (hf : f.Sound)

include hf

theorem exists_subtrees {ns : List NodeId} (htrees : ∀ n ∈ ns, ∃ L, f.Subtree n L)
    (hparent : ∀ n ∈ ns, f.parent n = q) (ha : ∀ n ∈ ns, ¬ (f.kind n).isAttr = true)
    (hd : ns.Nodup) : ∃ Ls, f.Subtrees ns Ls := by
  induction ns with
  | nil => exact ⟨[], ⟨rfl, by simp, by simp [Labelled.labelsAll], List.nodup_nil⟩⟩
  | cons n ns ih =>
    obtain ⟨⟨L, hL⟩, htrees⟩ := List.forall_mem_cons.1 htrees
    obtain ⟨hn, hparent⟩ := List.forall_mem_cons.1 hparent
    obtain ⟨hna, ha⟩ := List.forall_mem_cons.1 ha
    obtain ⟨hout, hd⟩ := List.nodup_cons.1 hd
    obtain ⟨Ls, hLs⟩ := ih htrees hparent ha hd
    refine ⟨L :: Ls, ⟨by rw [List.map_cons, hL.label_eq, hLs.labels_eq], ?_, ?_, ?_⟩⟩
    · exact List.forall_mem_cons.2 ⟨by rw [hL.label_eq]; exact hL.holds, hLs.holds⟩
    · intro l hl
      rcases List.mem_append.1 hl with hl | hl
      · exact ⟨n, List.mem_cons_self, hL.inside l hl⟩
      · obtain ⟨m, hm, hin⟩ := hLs.inside l hl
        exact ⟨m, List.mem_cons_of_mem _ hm, hin⟩
    · refine List.nodup_append.2 ⟨hL.nodup, hLs.nodup, fun l hl l' hl' e => ?_⟩
      obtain ⟨m, hm, hin⟩ := hLs.inside l' hl'
      have hnm := hf.eq_of_inside hn (hparent m hm) hna (ha m hm) (e ▸ hL.inside l hl) hin
      exact hout (hnm ▸ hm)

theorem exists_subtrees_children (n : NodeId) (htrees : ∀ c ∈ f.children n, ∃ L, f.Subtree c L) :
    ∃ Ls, f.Subtrees (f.children n) Ls :=
  hf.exists_subtrees htrees (fun _ hc => hf.mem_children_iff.1 hc)
    (fun _ hc => not_isAttr_of_parent (hf.mem_children_iff.1 hc)) (hf.nodup_children n)

/-- The trees below a node lie below it, linked to it. -/
theorem holdsBelow_of_subtrees {Ls : List (Labelled NodeId)} (h : f.Subtrees (f.children n) Ls) :
    f.HoldsBelow id n Ls := by
  refine ⟨h.labels_eq.symm, holdsAll_iff.2 fun L hL => ?_⟩
  have hchild : L.label ∈ f.children n := h.labels_eq ▸ List.mem_map_of_mem hL
  have hparent := hf.mem_children_iff.1 hchild
  have hlink := h.holds L hL
  rwa [show f.link L.label = some n from by
    rwa [parent_eq_link, if_neg (not_isAttr_of_parent hparent)] at hparent] at hlink

theorem not_mem_labelsAll_of_subtrees {Ls : List (Labelled NodeId)}
    (h : f.Subtrees (f.children n) Ls) (hm : (f.owner m).getD m = n) :
    m ∉ Labelled.labelsAll Ls := by
  intro hin
  obtain ⟨c, hc, hcm⟩ := h.inside m hin
  have hparent := hf.mem_children_iff.1 hc
  have habove := hcm.above (not_isAttr_of_parent hparent)
  rw [hm] at habove
  exact hf.not_above_of_parent hparent habove

theorem children_eq_nil (hn : (f.kind n).holdsChildren = false) : f.children n = [] := by
  refine List.eq_nil_iff_forall_not_mem.2 fun c hc => ?_
  have hholds := hf.holdsChildren_of_parent (hf.mem_children_iff.1 hc)
  rw [hn] at hholds
  cases hholds

theorem attributes_eq_nil (hn : (f.kind n).isElement = false) : f.attributes n = [] := by
  refine List.eq_nil_iff_forall_not_mem.2 fun a ha => ?_
  have helement := hf.isElement_of_owner (hf.mem_attributes_iff.1 ha)
  rw [hn] at helement
  cases helement

omit hf in
/-- A leaf is all that is below it. -/
theorem subtree_of_leaf {L : Labelled NodeId} (hlabel : L.label = n) (hlabels : L.labels = [n])
    (hL : f.Holds id (f.link n) L) : f.Subtree n L := by
  refine ⟨hlabel, hL, fun l hl => ?_, by simp [hlabels]⟩
  obtain rfl : l = n := by simpa [hlabels] using hl
  exact .refl l

/-- An attribute node as an attribute of a layout. -/
theorem holdsAttribute_attrAt (ha : a ∈ f.attributes n) :
    f.HoldsAttribute id n (a, f.attrAt a) := by
  have howner := hf.mem_attributes_iff.1 ha
  have hattr := isAttr_of_owner howner
  refine ⟨?_, rfl, ?_⟩
  · cases hk : f.kind a with
    | attr name => simp [Forest.attrAt, hk, Kind.attrName]
    | element _ | text | comment | fragment => simp [hk, Kind.isAttr] at hattr
  · rwa [owner_eq_link, if_pos hattr] at howner

/-- An element with its attribute nodes and the trees below it. -/
theorem subtree_of_element {tag : String} (hk : f.kind n = .element tag)
    {Ls : List (Labelled NodeId)} (h : f.Subtrees (f.children n) Ls) :
    f.Subtree n (.element n tag ((f.attributes n).map fun a => (a, f.attrAt a)) Ls) := by
  have hfst : ((f.attributes n).map fun a => (a, f.attrAt a)).map Prod.fst = f.attributes n := by
    simp [Function.comp_def]
  have hna : ¬ (f.kind n).isAttr = true := by simp [hk, Kind.isAttr]
  have hbelow := hf.holdsBelow_of_subtrees h
  refine ⟨rfl, ⟨⟨hk, rfl, ?_, hbelow.children_eq⟩, fun x hx => ?_, hbelow.holds⟩, ?_, ?_⟩
  · simp [Function.comp_def]
  · obtain ⟨a, ha, rfl⟩ := List.mem_map.1 hx
    exact hf.holdsAttribute_attrAt ha
  · intro l hl
    rw [Labelled.labels, hfst, List.cons_append, List.mem_cons, List.mem_append] at hl
    rcases hl with rfl | hl | hl
    · exact .refl l
    · exact Or.inr ⟨n, hf.mem_attributes_iff.1 hl, Above.refl n⟩
    · exact hbelow.holds.inside l hl
  · rw [Labelled.labels, hfst, List.cons_append, List.nodup_cons, List.mem_append, not_or]
    refine ⟨⟨fun hin => hna (hf.isAttr_of_mem_attributes hin),
      hf.not_mem_labelsAll_of_subtrees h (by rw [owner_of_not_isAttr hna]; rfl)⟩,
      List.nodup_append.2 ⟨hf.nodup_attributes n, h.nodup, fun l hl l' hl' e => ?_⟩⟩
    refine hf.not_mem_labelsAll_of_subtrees h ?_ (e ▸ hl')
    rw [hf.mem_attributes_iff.1 hl]
    rfl

/-- Everything below a node that is no attribute node and no fragment is a tree. -/
theorem exists_subtree (ha : ¬ (f.kind n).isAttr = true) (hfr : f.kind n ≠ .fragment) :
    ∃ L, f.Subtree n L := by
  induction n using hf.wellFounded_child.induction with
  | _ n ih =>
    have hchildren : ∃ Ls, f.Subtrees (f.children n) Ls :=
      hf.exists_subtrees_children n fun c hc => by
        have hparent := hf.mem_children_iff.1 hc
        exact ih c hparent (not_isAttr_of_parent hparent) (hf.ne_fragment_of_parent hparent)
    cases hk : f.kind n with
    | attr name => simp [hk, Kind.isAttr] at ha
    | fragment => exact absurd hk hfr
    | text =>
      exact ⟨.text n (f.data n), subtree_of_leaf rfl rfl
        ⟨hk, rfl, rfl, hf.children_eq_nil (n := n) (by rw [hk]; rfl)⟩⟩
    | comment =>
      exact ⟨.comment n (f.data n), subtree_of_leaf rfl rfl
        ⟨hk, rfl, rfl, hf.children_eq_nil (n := n) (by rw [hk]; rfl)⟩⟩
    | element tag =>
      obtain ⟨Ls, hLs⟩ := hchildren
      exact ⟨_, hf.subtree_of_element hk hLs⟩

/-- What is below the children of a node are trees. -/
theorem exists_subtrees_below (n : NodeId) : ∃ Ls, f.Subtrees (f.children n) Ls :=
  hf.exists_subtrees_children n fun _ hc => by
    have hparent := hf.mem_children_iff.1 hc
    exact hf.exists_subtree (not_isAttr_of_parent hparent) (hf.ne_fragment_of_parent hparent)

/-- Everything below a node that is no attribute node. -/
theorem exists_below (hn : ¬ (f.kind n).isAttr = true) :
    ∃ Ls : List (Labelled NodeId), f.HoldsBelow id n Ls ∧ (n :: Labelled.labelsAll Ls).Nodup ∧
      ∀ l ∈ Labelled.labelsAll Ls, f.Inside n l := by
  obtain ⟨Ls, hLs⟩ := hf.exists_subtrees_below n
  have hbelow := hf.holdsBelow_of_subtrees hLs
  have hout : n ∉ Labelled.labelsAll Ls :=
    hf.not_mem_labelsAll_of_subtrees hLs (by rw [owner_of_not_isAttr hn]; rfl)
  exact ⟨Ls, hbelow, List.nodup_cons.2 ⟨hout, hLs.nodup⟩, hbelow.holds.inside⟩

end Sound

/-! ### Nodes that can take the place of a comment -/

/-- A node that is no attribute node, with everything below it. -/
inductive Stock where
  | tree (L : Labelled NodeId)
  | fragment (n : NodeId) (Ls : List (Labelled NodeId))

namespace Stock

/-- The node itself. -/
def node : Stock → NodeId
  | tree L => L.label
  | fragment n _ => n

/-- The trees that take the place of a comment. -/
def trees : Stock → List (Labelled NodeId)
  | tree L => [L]
  | fragment _ Ls => Ls

/-- The node and everything below it. -/
def labels : Stock → List NodeId
  | tree L => L.labels
  | fragment n Ls => n :: Labelled.labelsAll Ls

theorem node_mem_labels (S : Stock) : S.node ∈ S.labels := by
  cases S with
  | tree L => exact L.label_mem_labels
  | fragment n Ls => exact List.mem_cons_self

theorem sublist_labels (S : Stock) : (Labelled.labelsAll S.trees).Sublist S.labels := by
  cases S with
  | tree L => simp [trees, labels, Labelled.labelsAll]
  | fragment n Ls => exact List.sublist_cons_self n _

/-- The node has no parent, and below it lies what the stock says. -/
def LiesIn (f : Forest) : Stock → Prop
  | tree L => L.label < f.size ∧ f.Holds id none L
  | fragment n Ls => f.kind n = .fragment ∧ f.link n = none ∧ f.HoldsBelow id n Ls

theorem LiesIn.lt_size {S : Stock} (h : S.LiesIn f) : ∀ l ∈ S.labels, l < f.size := by
  cases S with
  | fragment n Ls =>
    obtain ⟨hk, -, hbelow⟩ := h
    refine List.forall_mem_cons.2 ⟨lt_size_of_holdsChildren (by rw [hk]; rfl), fun l hl => ?_⟩
    exact hbelow.holds.lt_size l hl
  | tree L =>
    obtain ⟨hroot, hL⟩ := h
    cases L with
    | text l s | comment l s => exact List.forall_mem_singleton.2 hroot
    | element l tag as cs =>
      obtain ⟨-, has, hcs⟩ := hL
      intro m hm
      rw [labels, Labelled.labels, List.cons_append, List.mem_cons, List.mem_append] at hm
      rcases hm with rfl | hm | hm
      · exact hroot
      · obtain ⟨a, ha, rfl⟩ := List.mem_map.1 hm
        exact lt_size_of_isAttr (by rw [show f.kind a.1 = _ from (has a ha).kind_eq]; rfl)
      · exact hcs.lt_size m hm

theorem LiesIn.not_isAttr {S : Stock} (h : S.LiesIn f) : ¬ (f.kind S.node).isAttr = true := by
  cases S with
  | fragment n Ls => simp [node, h.1, Kind.isAttr]
  | tree L => exact h.2.kind_label.1

theorem LiesIn.parent_eq {S : Stock} (h : S.LiesIn f) : f.parent S.node = none := by
  rw [parent_eq_link, if_neg h.not_isAttr]
  cases S with
  | fragment n Ls => exact h.2.1
  | tree L => exact h.2.link_eq

/-- What lies below a node depends on it and the nodes below it only. -/
theorem LiesIn.congr {g : Forest} {S : Stock} (h : S.LiesIn f) (hsize : f.size ≤ g.size)
    (hc : ∀ l ∈ S.labels, g.cell l = f.cell l) : S.LiesIn g := by
  cases S with
  | tree L => exact ⟨h.1.trans_le hsize, h.2.congr hc⟩
  | fragment n Ls =>
    obtain ⟨hk, hl, hbelow⟩ := h
    obtain ⟨hn, hLs⟩ := List.forall_mem_cons.1 hc
    exact ⟨by rw [kind, hn]; exact hk, by rw [link, hn]; exact hl, hbelow.congr hn hLs⟩

/-- The trees that a node brings along are what it looks like. -/
theorem LiesIn.pieces_snapshot {S : Stock} (h : S.LiesIn f) (hd : S.labels.Nodup) :
    (f.snapshot S.node).pieces = Labelled.trees S.trees := by
  cases S with
  | fragment n Ls =>
    have hnodup : ((Labelled.labelsAll Ls).map id).Nodup := by
      rw [List.map_id]
      exact (List.nodup_cons.1 hd).2
    rw [node, h.2.2.snapshot h.1 hnodup, Snapshot.pieces, trees]
  | tree L =>
    have hnodup : (L.labels.map id).Nodup := by
      rw [List.map_id]
      exact hd
    have hsnapshot : f.snapshot L.label = .tree L.tree := h.2.snapshot hnodup
    rw [node, hsnapshot, Snapshot.pieces, trees]
    rfl

end Stock

/-- Everything below a node without a parent. -/
theorem Sound.exists_stock (hf : f.Sound) (hlt : n < f.size) (ha : ¬ (f.kind n).isAttr = true)
    (hn : f.parent n = none) :
    ∃ S : Stock, S.node = n ∧ S.LiesIn f ∧ (∀ l ∈ S.labels, f.Inside n l) ∧ S.labels.Nodup := by
  have hlink : f.link n = none := by rwa [parent_eq_link, if_neg ha] at hn
  by_cases hk : f.kind n = .fragment
  · obtain ⟨Ls, hbelow, hnodup, hinside⟩ := hf.exists_below ha
    exact ⟨.fragment n Ls, rfl, ⟨hk, hlink, hbelow⟩,
      List.forall_mem_cons.2 ⟨.refl n, hinside⟩, hnodup⟩
  · obtain ⟨L, hL⟩ := hf.exists_subtree ha hk
    have hholds := hL.holds
    rw [hlink] at hholds
    exact ⟨.tree L, hL.label_eq, ⟨hL.label_eq ▸ hlt, hholds⟩, hL.inside, hL.nodup⟩

end Forest

end LiveMarkup
