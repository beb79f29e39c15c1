import LiveMarkup.Proofs.Template.Filling

/-!
# Paths to filled holes

To fill holes moves nothing: the addresses of a filled tree are those of the tree
(`Labelled.addressesAll_fillAll`), so the path of a hole leads to the node that its text has been
put at (`Forest.Filled.descend`).  Whether this is an attribute node, and of which name, can be read
off the path (`Forest.Filled.kind_eq_attr_iff`).
-/

namespace LiveMarkup

variable {α : Type} {φ : α → List ℕ} {σ : ℕ → Option String}

namespace Labelled

mutual

/-- Labels have the same addresses in a filled tree. -/
theorem addresses_fill (L : Labelled α) : (L.fill φ σ).addresses = L.addresses := by
  cases L with
  | text l s => rfl
  | comment l s =>
    rw [fill]
    split <;> rfl
  | element l tag as cs =>
    rw [fill, addresses, addresses, addressesAll_fillAll 0 cs, List.map_map]
    refine congrArg (fun bs => (l, []) :: bs ++ addressesAll 0 cs)
      (List.map_congr_left fun a _ => ?_)
    rw [Function.comp_apply, fst_fillAttribute, name_fillAttribute]

theorem addressesAll_fillAll (index : ℕ) (Ls : List (Labelled α)) :
    addressesAll index (fillAll φ σ Ls) = addressesAll index Ls := by
  cases Ls with
  | nil => rfl
  | cons L Ls => rw [fillAll, addressesAll, addressesAll, addresses_fill L, addressesAll_fillAll]

end

mutual

/-- Attributes keep their names in a filled tree. -/
theorem named_fill {L : Labelled α} (h : L.tree.Named) : (L.fill φ σ).tree.Named := by
  cases L with
  | text l s => trivial
  | comment l s =>
    rw [fill]
    split <;> trivial
  | element l tag as cs =>
    obtain ⟨hsmall, hnames, hchildren⟩ := h
    have hsame : ((as.map (fillAttribute φ σ)).map Prod.snd).map Attribute.name =
        (as.map Prod.snd).map Attribute.name := by
      simp only [List.map_map]
      exact List.map_congr_left fun a _ => name_fillAttribute a
    refine ⟨fun a ha => ?_, hsame ▸ hnames, namedAll_fillAll hchildren⟩
    have hname : a.name ∈ (as.map Prod.snd).map Attribute.name :=
      hsame ▸ List.mem_map_of_mem ha
    obtain ⟨b, hb, heq⟩ := List.mem_map.1 hname
    exact heq ▸ hsmall b hb

theorem namedAll_fillAll {Ls : List (Labelled α)} (h : Tree.NamedAll (trees Ls)) :
    Tree.NamedAll (trees (fillAll φ σ Ls)) := by
  cases Ls with
  | nil => trivial
  | cons L Ls => exact ⟨named_fill h.1, namedAll_fillAll h.2⟩

end

end Labelled

namespace Forest

variable {f : Forest} {ι : α → NodeId} {q : Option NodeId} {root : NodeId}

mutual

/-- The last step of an address is the name of an attribute if it leads to an attribute node. -/
theorem Holds.kind_eq_attr_iff {q : Option NodeId} {L : Labelled α} (h : Holds f ι q L) :
    ∀ a ∈ L.addresses, ∀ name,
      f.kind (ι a.1) = .attr name ↔ a.2.getLast? = some (.attr name) := by
  cases L with
  | text l s | comment l s =>
    intro a ha name
    obtain rfl : a = (l, []) := by simpa [Labelled.addresses] using ha
    simp [HoldsLeaf.kind_eq h]
  | element l tag as cs =>
    obtain ⟨he, has, hcs⟩ := h
    intro a ha name
    rw [Labelled.addresses, List.cons_append, List.mem_cons, List.mem_append] at ha
    rcases ha with rfl | ha | ha
    · simp [he.kind_eq]
    · obtain ⟨b, hb, rfl⟩ := List.mem_map.1 ha
      simp [(has b hb).kind_eq]
    · exact hcs.kind_eq_attr_iff 0 a ha name

theorem HoldsAll.kind_eq_attr_iff {q : Option NodeId} {Ls : List (Labelled α)}
    (h : HoldsAll f ι q Ls) (index : ℕ) : ∀ a ∈ Labelled.addressesAll index Ls, ∀ name,
      f.kind (ι a.1) = .attr name ↔ a.2.getLast? = some (.attr name) := by
  cases Ls with
  | nil => simp [Labelled.addressesAll]
  | cons L Ls =>
    intro a ha name
    rcases List.mem_append.1 ha with ha | ha
    · obtain ⟨b, hb, rfl⟩ := List.mem_map.1 ha
      rw [h.1.kind_eq_attr_iff b hb name]
      cases b.2 with
      | nil => simp
      | cons step path => simp
    · exact h.2.kind_eq_attr_iff (index + 1) a ha name

end

section Filled

variable {Ms : List (Labelled α)} (h : Filled f ι root φ σ Ms)

include h

/-- The address of a label leads to the node that stands for it. -/
theorem Filled.descend (hnamed : Tree.NamedAll (Labelled.trees Ms)) {a : α × Path}
    (ha : a ∈ Labelled.addressesAll 0 Ms) : f.descend root a.2 = .ok [ι a.1] :=
  h.layout.descend (Labelled.namedAll_fillAll hnamed) a
    ((Labelled.addressesAll_fillAll 0 Ms).symm ▸ ha)

theorem Filled.kind_eq_attr_iff {a : α × Path} (ha : a ∈ Labelled.addressesAll 0 Ms)
    (name : String) : f.kind (ι a.1) = .attr name ↔ a.2.getLast? = some (.attr name) :=
  h.layout.holds.kind_eq_attr_iff 0 a ((Labelled.addressesAll_fillAll 0 Ms).symm ▸ ha) name

end Filled

end Forest

end LiveMarkup
