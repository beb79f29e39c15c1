import LiveMarkup.Proofs.Forest.SplicedLayout

/-!
# Expanded trees

A `Look` is what is seen of a value: trees in place of a comment, or a text as the value of an
attribute.  `Labelled.expand τ` is a labelled tree with the looks `τ` at its comments and
attributes.  Putting the trees of a look where it is due does not change the expanded tree
(`Forest.HoldsAll.expandAll_splice`, `Forest.HoldsAll.expandAll_write`), and a blank look shows what
is there anyway (`Forest.HoldsAll.expandAll_congr`). -/

namespace LiveMarkup

/-- What is seen of a value in place of a comment, and as the value of an attribute. -/
structure Look where
  trees : List Tree
  word : String

/-- What is seen where there is no value: an empty comment, or an empty value. -/
def Look.blank : Look := ⟨[.comment ""], ""⟩

namespace Labelled

variable {α β : Type} {τ τ' : α → Option Look}

/-- An attribute with the look for its label. -/
def expandAttribute (τ : α → Option Look) (a : α × Attribute) : Attribute :=
  match τ a.1 with
  | some look => ⟨a.2.name, look.word⟩
  | none => a.2

mutual

/-- A tree with looks at its comments and attributes. -/
def expand (τ : α → Option Look) : Labelled α → List Tree
  | element _ tag as cs => [.element tag (as.map (expandAttribute τ)) (expandAll τ cs)]
  | text _ s => [.text s]
  | comment l s =>
    match τ l with
    | some look => look.trees
    | none => [.comment s]

/-- Several trees with looks at their comments and attributes. -/
def expandAll (τ : α → Option Look) : List (Labelled α) → List Tree
  | [] => []
  | L :: Ls => L.expand τ ++ expandAll τ Ls

end

theorem expandAll_append (Ls Ms : List (Labelled α)) :
    expandAll τ (Ls ++ Ms) = expandAll τ Ls ++ expandAll τ Ms := by
  induction Ls with
  | nil => rfl
  | cons L Ls ih => rw [List.cons_append, expandAll, expandAll, ih, List.append_assoc]

mutual

/-- Without looks a tree stays as it is. -/
theorem expand_none (L : Labelled α) : L.expand (fun _ => none) = [L.tree] := by
  cases L with
  | text l s | comment l s => rfl
  | element l tag as cs =>
    rw [expand, expandAll_none cs, tree]
    rfl

theorem expandAll_none (Ls : List (Labelled α)) : expandAll (fun _ => none) Ls = trees Ls := by
  cases Ls with
  | nil => rfl
  | cons L Ls => rw [expandAll, expand_none L, expandAll_none Ls, trees, List.singleton_append]

end

mutual

theorem expand_map (φ : β → α) (L : Labelled β) : (L.map φ).expand τ = L.expand (τ ∘ φ) := by
  cases L with
  | text l s | comment l s => rfl
  | element l tag as cs =>
    rw [map, expand, expand, expandAll_mapAll φ cs, List.map_map]
    rfl

theorem expandAll_mapAll (φ : β → α) (Ls : List (Labelled β)) :
    expandAll τ (mapAll φ Ls) = expandAll (τ ∘ φ) Ls := by
  cases Ls with
  | nil => rfl
  | cons L Ls => rw [mapAll, expandAll, expandAll, expand_map φ L, expandAll_mapAll φ Ls]

end

end Labelled

namespace Forest

open Labelled

variable {f : Forest} {q : Option NodeId}

/-! ### Other looks for the same tree -/

section Congr

variable {α : Type} {ι : α → NodeId} {τ τ' : α → Option Look}

/-- At the label of a comment or an attribute there is the same look as before, or none where the
look was blank and so is the node. -/
def LooksLike (f : Forest) (ι : α → NodeId) (τ τ' : α → Option Look) (l : α) : Prop :=
  f.kind (ι l) = .comment ∨ (f.kind (ι l)).isAttr = true →
    τ' l = τ l ∨ τ' l = none ∧ τ l = some .blank ∧ f.data (ι l) = ""

theorem HoldsAttribute.expandAttribute_congr {n : NodeId} {a : α × Attribute}
    (h : f.HoldsAttribute ι n a) (ha : f.LooksLike ι τ τ' a.1) :
    expandAttribute τ' a = expandAttribute τ a := by
  have hattr : (f.kind (ι a.1)).isAttr = true := by rw [h.kind_eq]; rfl
  rcases ha (Or.inr hattr) with heq | ⟨hnone, hblank, hdata⟩
  · rw [expandAttribute, expandAttribute, heq]
  · have hvalue : a.2.value = "" := h.data_eq.symm.trans hdata
    rw [expandAttribute, expandAttribute, hnone, hblank]
    simp only [Look.blank, ← hvalue]

mutual

theorem Holds.expand_congr {q : Option NodeId} {L : Labelled α} (h : f.Holds ι q L)
    (hL : ∀ l ∈ L.labels, f.LooksLike ι τ τ' l) : L.expand τ' = L.expand τ := by
  cases L with
  | text l s => rfl
  | comment l s =>
    have hkind : f.kind (ι l) = .comment := HoldsLeaf.kind_eq h
    rw [expand, expand]
    rcases hL l (by simp [labels]) (Or.inl hkind) with heq | ⟨hnone, hblank, hdata⟩
    · rw [heq]
    · have hs : s = "" := (HoldsLeaf.data_eq h).symm.trans hdata
      rw [hnone, hblank, hs]
      rfl
  | element l tag as cs =>
    obtain ⟨-, has, hcs⟩ := h
    have hattributes : as.map (expandAttribute τ') = as.map (expandAttribute τ) :=
      List.map_congr_left fun a ha => (has a ha).expandAttribute_congr
        (hL a.1 (by simp [labels, show a.1 ∈ as.map Prod.fst from List.mem_map_of_mem ha]))
    rw [expand, expand, hattributes,
      HoldsAll.expandAll_congr hcs fun m hm => hL m (by simp [labels, hm])]

/-- A layout looks the same with other looks that show the same. -/
theorem HoldsAll.expandAll_congr {q : Option NodeId} {Ls : List (Labelled α)}
    (h : f.HoldsAll ι q Ls) (hL : ∀ l ∈ labelsAll Ls, f.LooksLike ι τ τ' l) :
    expandAll τ' Ls = expandAll τ Ls := by
  cases Ls with
  | nil => rfl
  | cons L Ls =>
    rw [expandAll, expandAll, Holds.expand_congr h.1 fun l hl => hL l (List.mem_append_left _ hl),
      HoldsAll.expandAll_congr h.2 fun l hl => hL l (List.mem_append_right _ hl)]

end

end Congr

/-! ### Trees in place of a comment -/

section Splice

variable {n : NodeId} {Ms : List (Labelled NodeId)} {τ τ' : NodeId → Option Look} {look : Look}

mutual

theorem Holds.expandAll_splice {q : Option NodeId} {L : Labelled NodeId} (h : f.Holds id q L)
    (hn : f.kind n = .comment) (hlook : τ n = some look) (hMs : expandAll τ' Ms = look.trees)
    (hL : ∀ l ∈ L.labels, l ≠ n → τ' l = τ l) :
    expandAll τ' (L.splice n Ms) = L.expand τ := by
  cases L with
  | text l s => rfl
  | comment l s =>
    rw [splice, expand]
    split_ifs with hl
    · rw [hl, hlook, hMs]
    · rw [expandAll, expandAll, List.append_nil, expand, hL l (by simp [labels]) hl]
  | element l tag as cs =>
    obtain ⟨-, has, hcs⟩ := h
    have hattributes : as.map (expandAttribute τ') = as.map (expandAttribute τ) :=
      List.map_congr_left fun a ha => by
        have hmem : a.1 ∈ as.map Prod.fst := List.mem_map_of_mem ha
        rw [expandAttribute, expandAttribute,
          hL a.1 (by simp [labels, hmem]) ((has a ha).label_ne hn)]
    rw [splice, expandAll, expandAll, List.append_nil, expand, expand, hattributes,
      HoldsAll.expandAll_splice hcs hn hlook hMs fun m hm => hL m (by simp [labels, hm])]

/-- Trees that look like the look of a comment take its place unseen. -/
theorem HoldsAll.expandAll_splice {q : Option NodeId} {Ls : List (Labelled NodeId)}
    (h : f.HoldsAll id q Ls) (hn : f.kind n = .comment) (hlook : τ n = some look)
    (hMs : expandAll τ' Ms = look.trees) (hL : ∀ l ∈ labelsAll Ls, l ≠ n → τ' l = τ l) :
    expandAll τ' (spliceAll n Ms Ls) = expandAll τ Ls := by
  cases Ls with
  | nil => rfl
  | cons L Ls =>
    rw [spliceAll, Labelled.expandAll_append, expandAll,
      Holds.expandAll_splice h.1 hn hlook hMs fun l hl => hL l (List.mem_append_left _ hl),
      HoldsAll.expandAll_splice h.2 hn hlook hMs fun l hl => hL l (List.mem_append_right _ hl)]

end

end Splice

/-! ### Another value for an attribute -/

section Write

variable {n : NodeId} {τ τ' : NodeId → Option Look} {look : Look}

theorem expandAttribute_write (hlook : τ n = some look) (hnone : τ' n = none)
    {a : NodeId × Attribute} (ha : a.1 ≠ n → τ' a.1 = τ a.1) :
    expandAttribute τ' (writeAttribute n look.word a) = expandAttribute τ a := by
  rw [expandAttribute, fst_writeAttribute, writeAttribute, expandAttribute]
  split_ifs with hn
  · rw [hn, hnone, hlook]
  · rw [ha hn]

mutual

theorem Holds.expand_write {q : Option NodeId} {L : Labelled NodeId} (h : f.Holds id q L)
    (hn : (f.kind n).isAttr = true) (hlook : τ n = some look) (hnone : τ' n = none)
    (hL : ∀ l ∈ L.labels, l ≠ n → τ' l = τ l) :
    (L.write n look.word).expand τ' = L.expand τ := by
  cases L with
  | text l s => rfl
  | comment l s =>
    have hl : l ≠ n := by
      rintro rfl
      have hkind : f.kind l = .comment := HoldsLeaf.kind_eq h
      simp [hkind, Kind.isAttr] at hn
    rw [write, expand, expand, hL l (by simp [labels]) hl]
  | element l tag as cs =>
    obtain ⟨-, -, hcs⟩ := h
    have hattributes : (as.map (writeAttribute n look.word)).map (expandAttribute τ') =
        as.map (expandAttribute τ) := by
      rw [List.map_map]
      refine List.map_congr_left fun a ha => expandAttribute_write hlook hnone (hL a.1 ?_)
      simp [labels, show a.1 ∈ as.map Prod.fst from List.mem_map_of_mem ha]
    rw [write, expand, expand, hattributes,
      HoldsAll.expandAll_write hcs hn hlook hnone fun m hm => hL m (by simp [labels, hm])]

/-- An attribute that gets the text of its look looks as before. -/
theorem HoldsAll.expandAll_write {q : Option NodeId} {Ls : List (Labelled NodeId)}
    (h : f.HoldsAll id q Ls) (hn : (f.kind n).isAttr = true) (hlook : τ n = some look)
    (hnone : τ' n = none) (hL : ∀ l ∈ labelsAll Ls, l ≠ n → τ' l = τ l) :
    expandAll τ' (writeAll n look.word Ls) = expandAll τ Ls := by
  cases Ls with
  | nil => rfl
  | cons L Ls =>
    rw [writeAll, expandAll, expandAll,
      Holds.expand_write h.1 hn hlook hnone fun l hl => hL l (List.mem_append_left _ hl),
      HoldsAll.expandAll_write h.2 hn hlook hnone fun l hl => hL l (List.mem_append_right _ hl)]

end

end Write

end Forest

end LiveMarkup
