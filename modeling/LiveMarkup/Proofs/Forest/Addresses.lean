import LiveMarkup.Forest.Path
import LiveMarkup.Proofs.Forest.Layout

/-!
# Addresses

`Labelled.addresses` lists the labels of a tree with the path that leads to each.  In a forest that
holds the tree these paths lead to the nodes with these labels (`Forest.HoldsBelow.descend`), and
all of them lie inside the node that holds the tree (`Forest.HoldsAll.inside`).
-/

namespace LiveMarkup

namespace Labelled

variable {α β : Type}

mutual

/-- All labels of a tree, each with the path that leads to it from the root. -/
def addresses : Labelled α → List (α × Path)
  | element l _ as cs =>
    (l, []) :: as.map (fun a => (a.1, [.attr a.2.name])) ++ addressesAll 0 cs
  | text l _ => [(l, [])]
  | comment l _ => [(l, [])]

/-- All labels of siblings, each with the path that leads to it from the node that holds them; the
first of them is the child at place `index`. -/
def addressesAll (index : ℕ) : List (Labelled α) → List (α × Path)
  | [] => []
  | L :: Ls => L.addresses.map (fun a => (a.1, .child index :: a.2)) ++ addressesAll (index + 1) Ls

end

theorem addressesAll_append (index : ℕ) (Ls Ms : List (Labelled α)) :
    addressesAll index (Ls ++ Ms) =
      addressesAll index Ls ++ addressesAll (index + Ls.length) Ms := by
  induction Ls generalizing index with
  | nil => rfl
  | cons L Ls ih =>
    rw [List.cons_append, addressesAll, addressesAll, ih, List.append_assoc, List.length_cons,
      Nat.add_right_comm, Nat.add_assoc]

mutual

theorem fst_addresses (L : Labelled α) : L.addresses.map Prod.fst = L.labels := by
  cases L with
  | text l s | comment l s => rfl
  | element l tag as cs =>
    rw [addresses, labels, List.map_append, fst_addressesAll 0 cs, List.map_cons, List.map_map]
    rfl

theorem fst_addressesAll (index : ℕ) (Ls : List (Labelled α)) :
    (addressesAll index Ls).map Prod.fst = labelsAll Ls := by
  cases Ls with
  | nil => rfl
  | cons L Ls =>
    rw [addressesAll, labelsAll, List.map_append, fst_addressesAll, List.map_map]
    exact congrArg (· ++ _) (fst_addresses L)

end

mutual

theorem addresses_map (φ : α → β) (L : Labelled α) :
    (L.map φ).addresses = L.addresses.map fun a => (φ a.1, a.2) := by
  cases L with
  | text l s | comment l s => rfl
  | element l tag as cs =>
    rw [map, addresses, addresses, addressesAll_mapAll φ 0 cs, List.map_append, List.map_cons,
      List.map_map, List.map_map]
    rfl

theorem addressesAll_mapAll (φ : α → β) (index : ℕ) (Ls : List (Labelled α)) :
    addressesAll index (mapAll φ Ls) = (addressesAll index Ls).map fun a => (φ a.1, a.2) := by
  cases Ls with
  | nil => rfl
  | cons L Ls =>
    rw [mapAll, addressesAll, addressesAll, addressesAll_mapAll, addresses_map φ L, List.map_append,
      List.map_map, List.map_map]
    rfl

end

end Labelled

namespace Forest

variable {α : Type} {f : Forest} {ι : α → NodeId} {m n p root : NodeId} {q : Option NodeId}

/-! ### Following addresses -/

theorem HoldsElement.attrNode {tag : String} {as : List (α × Attribute)} {cs : List NodeId}
    (he : HoldsElement f n q tag (as.map (ι ·.1)) cs) (ha : ∀ a ∈ as, HoldsAttribute f ι n a)
    (hsmall : ∀ a ∈ as, IsSmall a.2.name) (hnames : (as.map (·.2.name)).Nodup)
    {a : α × Attribute} (hm : a ∈ as) : f.attrNode n a.2.name = some (ι a.1) := by
  rw [Forest.attrNode, he.attributes_eq, List.find?_map, hsmall a hm]
  have hname : ∀ b ∈ as, (f.kind (ι b.1)).attrName = b.2.name := fun b hb => by
    rw [(ha b hb).kind_eq]
    rfl
  obtain ⟨b, hb⟩ := Option.isSome_iff_exists.1 (List.find?_isSome
    (p := (fun c => (f.kind c).attrName == a.2.name) ∘ (ι ·.1)).2 ⟨a, hm, by simp [hname a hm]⟩)
  have hmem := List.mem_of_find?_eq_some hb
  have heq : b.2.name = a.2.name := by simpa [hname b hmem] using List.find?_some hb
  rw [hb, List.inj_on_of_nodup_map hnames hmem hm heq]
  rfl

mutual

/-- An address of a tree leads to the node with its label. -/
theorem Holds.descend {q : Option NodeId} {L : Labelled α} (h : Holds f ι q L) (hL : L.tree.Named) :
    ∀ a ∈ L.addresses, f.descend (ι L.label) a.2 = .ok [ι a.1] := by
  cases L with
  | text l s | comment l s =>
    intro a ha
    obtain rfl : a = (l, []) := by simpa [Labelled.addresses] using ha
    rw [Forest.descend]
    rfl
  | element l tag as cs =>
    obtain ⟨he, has, hcs⟩ := h
    obtain ⟨hsmall, hnames, hchildren⟩ := hL
    intro a ha
    rw [Labelled.addresses, List.cons_append, List.mem_cons, List.mem_append] at ha
    rcases ha with rfl | ha | ha
    · rw [Forest.descend]
      rfl
    · obtain ⟨b, hb, rfl⟩ := List.mem_map.1 ha
      have hb' : b.2 ∈ as.map Prod.snd := List.mem_map_of_mem hb
      have hattr := he.attrNode has (fun c hc => hsmall c.2 (List.mem_map_of_mem hc))
        (by simpa [Function.comp_def] using hnames) hb
      simp only [Forest.descend, Labelled.label, hattr]
    · exact hcs.descend hchildren 0 (by rw [List.drop_zero]; exact he.children_eq) a ha

theorem HoldsAll.descend {q : Option NodeId} {Ls : List (Labelled α)} {n : NodeId}
    (h : HoldsAll f ι q Ls) (hLs : Tree.NamedAll (Labelled.trees Ls)) (index : ℕ)
    (hn : (f.children n).drop index = Ls.map (ι ·.label)) :
    ∀ a ∈ Labelled.addressesAll index Ls, f.descend n a.2 = .ok [ι a.1] := by
  cases Ls with
  | nil => simp [Labelled.addressesAll]
  | cons L Ls =>
    intro a ha
    rcases List.mem_append.1 ha with ha | ha
    · obtain ⟨b, hb, rfl⟩ := List.mem_map.1 ha
      have hget : (f.children n)[index]? = some (ι L.label) := by
        rw [← List.head?_drop, hn]
        rfl
      simp only [Forest.descend, hget]
      exact h.1.descend hLs.1 b hb
    · refine h.2.descend hLs.2 (index + 1) ?_ a ha
      rw [← List.tail_drop, hn]
      rfl

end

theorem HoldsBelow.descend {Ls : List (Labelled α)} (h : HoldsBelow f ι p Ls)
    (hLs : Tree.NamedAll (Labelled.trees Ls)) :
    ∀ a ∈ Labelled.addressesAll 0 Ls, f.descend p a.2 = .ok [ι a.1] :=
  h.holds.descend hLs 0 h.children_eq

/-- Paths that lead to one node each lead to these nodes together. -/
theorem descendAll_eq_ok {paths : List Path} {ns : List NodeId}
    (h : List.Forall₂ (fun path n => f.descend root path = .ok [n]) paths ns) :
    f.descendAll root paths = .ok ns := by
  induction h with
  | nil => rw [descendAll]
  | cons hpath _ ih => simp only [descendAll, hpath, ih, List.singleton_append]

/-! ### What lies inside a node -/

/-- `n` is `root` or below it, or an attribute node of an element that is. -/
def Inside (f : Forest) (root n : NodeId) : Prop :=
  f.Above root n ∨ ∃ e, f.owner n = some e ∧ f.Above root e

theorem Inside.of_above (ha : f.Above root m) (h : f.Inside m n) : f.Inside root n :=
  h.imp ha.trans fun ⟨e, ho, he⟩ => ⟨e, ho, ha.trans he⟩

theorem above_of_link_eq (hk : ¬ (f.kind n).isAttr = true) (hl : f.link n = some p) : f.Above p n :=
  .of_parent (by rw [parent_eq_link, if_neg hk, hl])

mutual

/-- All nodes of a tree lie inside the node that it is linked to. -/
theorem Holds.inside {p : NodeId} {L : Labelled α} (h : Holds f ι (some p) L) :
    ∀ l ∈ L.labels, f.Inside p (ι l) := by
  cases L with
  | text l s | comment l s =>
    intro m hm
    obtain rfl : m = l := by simpa [Labelled.labels] using hm
    exact Or.inl (above_of_link_eq (by rw [h.kind_eq]; simp [Kind.isAttr]) h.link_eq)
  | element l tag as cs =>
    obtain ⟨he, has, hcs⟩ := h
    have habove : f.Above p (ι l) :=
      above_of_link_eq (by rw [he.kind_eq]; simp [Kind.isAttr]) he.link_eq
    intro m hm
    rw [Labelled.labels, List.cons_append, List.mem_cons, List.mem_append] at hm
    rcases hm with rfl | hm | hm
    · exact Or.inl habove
    · obtain ⟨a, ha, rfl⟩ := List.mem_map.1 hm
      refine Or.inr ⟨ι l, ?_, habove⟩
      rw [owner_eq_link, (has a ha).kind_eq, (has a ha).link_eq]
      rfl
    · exact .of_above habove (hcs.inside m hm)

theorem HoldsAll.inside {p : NodeId} {Ls : List (Labelled α)} (h : HoldsAll f ι (some p) Ls) :
    ∀ l ∈ Labelled.labelsAll Ls, f.Inside p (ι l) := by
  cases Ls with
  | nil => simp [Labelled.labelsAll]
  | cons L Ls =>
    intro m hm
    rcases List.mem_append.1 hm with hm | hm
    · exact h.1.inside m hm
    · exact h.2.inside m hm

end

end Forest

end LiveMarkup
