import LiveMarkup.Proofs.Template.Content

/-!
# Filled trees

`Labelled.fill φ σ` puts texts into the holes of a labelled tree: `φ` gives the holes at a label and
`σ` the text for a hole.  A comment with a hole becomes a text, and an attribute with a hole gets a
value; an element keeps its holes.
-/

namespace LiveMarkup

namespace Labelled

variable {α β : Type} {φ : α → List ℕ} {σ : ℕ → Option String}

/-- The text for a node with exactly one hole. -/
def valueAt (σ : ℕ → Option String) : List ℕ → Option String
  | [i] => σ i
  | _ => none

/-- An attribute with the value for its hole. -/
def fillAttribute (φ : α → List ℕ) (σ : ℕ → Option String) (a : α × Attribute) : α × Attribute :=
  match valueAt σ (φ a.1) with
  | some v => (a.1, ⟨a.2.name, v⟩)
  | none => a

mutual

/-- A tree with texts in its holes. -/
def fill (φ : α → List ℕ) (σ : ℕ → Option String) : Labelled α → Labelled α
  | element l tag as cs => element l tag (as.map (fillAttribute φ σ)) (fillAll φ σ cs)
  | text l s => text l s
  | comment l s =>
    match valueAt σ (φ l) with
    | some v => text l v
    | none => comment l s

/-- Several trees with texts in their holes. -/
def fillAll (φ : α → List ℕ) (σ : ℕ → Option String) : List (Labelled α) → List (Labelled α)
  | [] => []
  | L :: Ls => L.fill φ σ :: fillAll φ σ Ls

end

theorem fillAll_eq_map (Ls : List (Labelled α)) : fillAll φ σ Ls = Ls.map (fill φ σ) := by
  induction Ls with
  | nil => rfl
  | cons L Ls ih => rw [fillAll, ih, List.map_cons]

theorem fillAll_append (Ls Ms : List (Labelled α)) :
    fillAll φ σ (Ls ++ Ms) = fillAll φ σ Ls ++ fillAll φ σ Ms := by
  simp [fillAll_eq_map]

@[simp] theorem fst_fillAttribute (a : α × Attribute) : (fillAttribute φ σ a).1 = a.1 := by
  unfold fillAttribute
  split <;> rfl

theorem name_fillAttribute (a : α × Attribute) : (fillAttribute φ σ a).2.name = a.2.name := by
  unfold fillAttribute
  split <;> rfl

@[simp] theorem label_fill (L : Labelled α) : (L.fill φ σ).label = L.label := by
  cases L with
  | element l tag as cs => rfl
  | text l s => rfl
  | comment l s =>
    rw [fill]
    split <;> rfl

mutual

theorem labels_fill (L : Labelled α) : (L.fill φ σ).labels = L.labels := by
  cases L with
  | text l s => rfl
  | comment l s =>
    rw [fill]
    split <;> rfl
  | element l tag as cs =>
    rw [fill, labels, labels, labelsAll_fillAll, List.map_map]
    simp [Function.comp_def]

theorem labelsAll_fillAll (Ls : List (Labelled α)) :
    labelsAll (fillAll φ σ Ls) = labelsAll Ls := by
  cases Ls with
  | nil => rfl
  | cons L Ls => rw [fillAll, labelsAll, labelsAll, labels_fill, labelsAll_fillAll]

end

theorem valueAt_none (l : List ℕ) : valueAt (fun _ => none) l = none := by
  unfold valueAt
  split <;> rfl

theorem fillAttribute_none (a : α × Attribute) : fillAttribute φ (fun _ => none) a = a := by
  rw [fillAttribute, valueAt_none]

mutual

/-- Without texts nothing is filled. -/
theorem fill_none (L : Labelled α) : L.fill φ (fun _ => none) = L := by
  cases L with
  | text l s => rfl
  | comment l s => rw [fill, valueAt_none]
  | element l tag as cs =>
    rw [fill, fillAll_none, List.map_congr_left fun a _ => fillAttribute_none a, List.map_id']

theorem fillAll_none (Ls : List (Labelled α)) : fillAll φ (fun _ => none) Ls = Ls := by
  cases Ls with
  | nil => rfl
  | cons L Ls => rw [fillAll, fill_none, fillAll_none]

end

theorem map_fillAttribute (ψ : α → β) (χ : β → List ℕ) (a : α × Attribute) :
    fillAttribute χ σ (ψ a.1, a.2) =
      (ψ (fillAttribute (χ ∘ ψ) σ a).1, (fillAttribute (χ ∘ ψ) σ a).2) := by
  unfold fillAttribute
  rw [Function.comp_apply]
  cases valueAt σ (χ (ψ a.1)) <;> rfl

mutual

/-- Labels may be changed before or after holes are filled. -/
theorem fill_map (ψ : α → β) (χ : β → List ℕ) (L : Labelled α) :
    (L.map ψ).fill χ σ = (L.fill (χ ∘ ψ) σ).map ψ := by
  cases L with
  | text l s => rfl
  | comment l s =>
    rw [map, fill, fill, Function.comp_apply]
    cases valueAt σ (χ (ψ l)) <;> rfl
  | element l tag as cs =>
    rw [map, fill, fill, map, fillAll_mapAll, List.map_map, List.map_map]
    exact congrArg (element _ _ · _) (List.map_congr_left fun a _ => map_fillAttribute ψ χ a)

theorem fillAll_mapAll (ψ : α → β) (χ : β → List ℕ) (Ls : List (Labelled α)) :
    fillAll χ σ (mapAll ψ Ls) = mapAll ψ (fillAll (χ ∘ ψ) σ Ls) := by
  cases Ls with
  | nil => rfl
  | cons L Ls => rw [mapAll, fillAll, fillAll, mapAll, fill_map, fillAll_mapAll]

end

/-! ### Holes at elements and elsewhere -/

mutual

/-- The holes at elements. -/
def elementHoles : Labelled (List ℕ) → List ℕ
  | element l _ _ cs => l ++ elementHolesAll cs
  | text _ _ => []
  | comment _ _ => []

/-- The holes at elements in several trees. -/
def elementHolesAll : List (Labelled (List ℕ)) → List ℕ
  | [] => []
  | L :: Ls => L.elementHoles ++ elementHolesAll Ls

end

mutual

/-- The holes at attributes, texts and comments. -/
def dataHoles : Labelled (List ℕ) → List ℕ
  | element _ _ as cs => (as.map Prod.fst).flatten ++ dataHolesAll cs
  | text l _ => l
  | comment l _ => l

/-- The holes at attributes, texts and comments in several trees. -/
def dataHolesAll : List (Labelled (List ℕ)) → List ℕ
  | [] => []
  | L :: Ls => L.dataHoles ++ dataHolesAll Ls

end

theorem elementHolesAll_append (Ls Ms : List (Labelled (List ℕ))) :
    elementHolesAll (Ls ++ Ms) = elementHolesAll Ls ++ elementHolesAll Ms := by
  induction Ls with
  | nil => rfl
  | cons L Ls ih => rw [List.cons_append, elementHolesAll, elementHolesAll, ih, List.append_assoc]

theorem dataHolesAll_append (Ls Ms : List (Labelled (List ℕ))) :
    dataHolesAll (Ls ++ Ms) = dataHolesAll Ls ++ dataHolesAll Ms := by
  induction Ls with
  | nil => rfl
  | cons L Ls ih => rw [List.cons_append, dataHolesAll, dataHolesAll, ih, List.append_assoc]

mutual

theorem perm_holes (L : Labelled (List ℕ)) :
    L.labels.flatten.Perm (L.elementHoles ++ L.dataHoles) := by
  cases L with
  | text l s | comment l s => simp [labels, elementHoles, dataHoles]
  | element l tag as cs =>
    have hcs := perm_holesAll cs
    rw [List.perm_iff_count] at hcs ⊢
    intro i
    have hi := hcs i
    simp only [labels, elementHoles, dataHoles, List.flatten_append, List.flatten_cons,
      List.count_append, List.cons_append] at hi ⊢
    omega

/-- Every hole is at an element or elsewhere. -/
theorem perm_holesAll (Ls : List (Labelled (List ℕ))) :
    (labelsAll Ls).flatten.Perm (elementHolesAll Ls ++ dataHolesAll Ls) := by
  cases Ls with
  | nil => exact List.Perm.refl _
  | cons L Ls =>
    have hL := perm_holes L
    have hLs := perm_holesAll Ls
    rw [List.perm_iff_count] at hL hLs ⊢
    intro i
    have hi := hL i
    have hi' := hLs i
    simp only [labelsAll, elementHolesAll, dataHolesAll, List.flatten_append,
      List.count_append] at hi hi' ⊢
    omega

end

end Labelled

namespace Template

theorem fst_holesAt (path : Path) (index : ℕ) (Ls : List (Labelled (List ℕ))) :
    (holesAt path index Ls).map Prod.fst = (Labelled.labelsAll Ls).flatten := by
  rw [← Labelled.fst_addressesAll index, holesAt, holesOf, List.map_flatMap, List.flatMap_def]
  simp [Function.comp_def]

end Template

end LiveMarkup
