import Mathlib.Data.List.Nodup
import LiveMarkup.Markup.Nesting

/-!
# Labelled trees

A labelled tree is a tree whose nodes and attributes carry labels: the numbers of the nodes of a
forest that look like it, or the holes of a template.  `Labelled.tree` forgets the labels, and
`Labelled.numbered` labels a tree with consecutive numbers in the order in which it is planted.
-/

namespace LiveMarkup

/-- A tree with labels at its nodes and attributes. -/
inductive Labelled (α : Type) where
  | element (label : α) (tag : String) (attributes : List (α × Attribute))
    (children : List (Labelled α))
  | text (label : α) (data : String)
  | comment (label : α) (data : String)

namespace Labelled

variable {α β : Type}

/-- The label of the root. -/
def label : Labelled α → α
  | element l _ _ _ => l
  | text l _ => l
  | comment l _ => l

mutual

/-- The tree without its labels. -/
def tree : Labelled α → Tree
  | element _ tag as cs => .element tag (as.map Prod.snd) (trees cs)
  | text _ s => .text s
  | comment _ s => .comment s

/-- Several trees without their labels. -/
def trees : List (Labelled α) → List Tree
  | [] => []
  | L :: Ls => L.tree :: trees Ls

end

mutual

/-- All labels of a tree, those of attributes after that of their element. -/
def labels : Labelled α → List α
  | element l _ as cs => l :: as.map Prod.fst ++ labelsAll cs
  | text l _ => [l]
  | comment l _ => [l]

/-- All labels of several trees. -/
def labelsAll : List (Labelled α) → List α
  | [] => []
  | L :: Ls => L.labels ++ labelsAll Ls

end

mutual

/-- Changes the labels. -/
def map (φ : α → β) : Labelled α → Labelled β
  | element l tag as cs => .element (φ l) tag (as.map fun a => (φ a.1, a.2)) (mapAll φ cs)
  | text l s => .text (φ l) s
  | comment l s => .comment (φ l) s

/-- Changes the labels of several trees. -/
def mapAll (φ : α → β) : List (Labelled α) → List (Labelled β)
  | [] => []
  | L :: Ls => L.map φ :: mapAll φ Ls

end

/-- Labels attributes with consecutive numbers as well. -/
def numberedAttributes (n : Nat) : List (α × Attribute) → List ((Nat × α) × Attribute)
  | [] => []
  | (l, a) :: as => ((n, l), a) :: numberedAttributes (n + 1) as

mutual

/-- Labels a tree with consecutive numbers as well. -/
def numbered (n : Nat) : Labelled α → Labelled (Nat × α)
  | element l tag as cs =>
    .element (n, l) tag (numberedAttributes (n + 1) as) (numberedAll (n + 1 + as.length) cs)
  | text l s => .text (n, l) s
  | comment l s => .comment (n, l) s

/-- Labels several trees with consecutive numbers as well. -/
def numberedAll (n : Nat) : List (Labelled α) → List (Labelled (Nat × α))
  | [] => []
  | L :: Ls => L.numbered n :: numberedAll (n + L.labels.length) Ls

end

/-! ### Trees -/

theorem trees_eq_map (Ls : List (Labelled α)) : trees Ls = Ls.map tree := by
  induction Ls with
  | nil => rfl
  | cons L Ls ih => rw [trees, ih, List.map_cons]

theorem labelsAll_eq_flatMap (Ls : List (Labelled α)) : labelsAll Ls = Ls.flatMap labels := by
  induction Ls with
  | nil => rfl
  | cons L Ls ih => rw [labelsAll, ih, List.flatMap_cons]

theorem trees_append (Ls Ms : List (Labelled α)) : trees (Ls ++ Ms) = trees Ls ++ trees Ms := by
  simp [trees_eq_map]

theorem labelsAll_append (Ls Ms : List (Labelled α)) :
    labelsAll (Ls ++ Ms) = labelsAll Ls ++ labelsAll Ms := by
  simp [labelsAll_eq_flatMap]

theorem label_mem_labels (L : Labelled α) : L.label ∈ L.labels := by
  cases L <;> simp [label, labels]

/-- The roots of trees are among the labels of the trees. -/
theorem labels_subset_labelsAll (Ls : List (Labelled α)) : Ls.map label ⊆ labelsAll Ls :=
  fun l hl => by
    obtain ⟨L, hL, rfl⟩ := List.mem_map.1 hl
    rw [labelsAll_eq_flatMap]
    exact List.mem_flatMap.2 ⟨L, hL, L.label_mem_labels⟩

/-! ### Numbers -/

theorem fst_numberedAttributes (n : Nat) (as : List (α × Attribute)) :
    (numberedAttributes n as).map (Prod.fst ∘ Prod.fst) = List.range' n as.length := by
  induction as generalizing n with
  | nil => rfl
  | cons a as ih => simp [numberedAttributes, ih, List.range'_succ]

theorem snd_numberedAttributes (n : Nat) (as : List (α × Attribute)) :
    (numberedAttributes n as).map (fun a => (a.1.2, a.2)) = as := by
  induction as generalizing n with
  | nil => rfl
  | cons a as ih => simp [numberedAttributes, ih]

mutual

/-- The numbers are consecutive. -/
theorem fst_labels_numbered (n : Nat) (L : Labelled α) :
    (L.numbered n).labels.map Prod.fst = List.range' n L.labels.length := by
  cases L with
  | text l s | comment l s => rfl
  | element l tag as cs =>
    rw [numbered, labels, labels, List.map_append, fst_labelsAll_numbered, List.map_cons,
      List.map_map, fst_numberedAttributes]
    simp only [List.length_append, List.length_cons, List.length_map, List.cons_append]
    rw [List.range'_append_1, ← List.range'_succ]

theorem fst_labelsAll_numbered (n : Nat) (Ls : List (Labelled α)) :
    (labelsAll (numberedAll n Ls)).map Prod.fst = List.range' n (labelsAll Ls).length := by
  cases Ls with
  | nil => rfl
  | cons L Ls =>
    rw [numberedAll, labelsAll, labelsAll, List.map_append, fst_labels_numbered,
      fst_labelsAll_numbered, List.length_append, List.range'_append_1]

end

mutual

theorem map_snd_numbered (n : Nat) (L : Labelled α) : (L.numbered n).map Prod.snd = L := by
  cases L with
  | text l s | comment l s => rfl
  | element l tag as cs =>
    rw [numbered, map, snd_numberedAttributes, mapAll_snd_numbered]

theorem mapAll_snd_numbered (n : Nat) (Ls : List (Labelled α)) :
    mapAll Prod.snd (numberedAll n Ls) = Ls := by
  cases Ls with
  | nil => rfl
  | cons L Ls => rw [numberedAll, mapAll, map_snd_numbered, mapAll_snd_numbered]

end

theorem label_map (φ : α → β) (L : Labelled α) : (L.map φ).label = φ L.label := by
  cases L <;> rfl

mutual

theorem tree_map (φ : α → β) (L : Labelled α) : (L.map φ).tree = L.tree := by
  cases L with
  | text l s | comment l s => rfl
  | element l tag as cs => simp [map, tree, trees_mapAll]

theorem trees_mapAll (φ : α → β) (Ls : List (Labelled α)) : trees (mapAll φ Ls) = trees Ls := by
  cases Ls with
  | nil => rfl
  | cons L Ls => rw [mapAll, trees, trees, tree_map, trees_mapAll]

end

mutual

theorem labels_map (φ : α → β) (L : Labelled α) : (L.map φ).labels = L.labels.map φ := by
  cases L with
  | text l s | comment l s => rfl
  | element l tag as cs => simp [map, labels, labelsAll_mapAll, Function.comp_def]

theorem labelsAll_mapAll (φ : α → β) (Ls : List (Labelled α)) :
    labelsAll (mapAll φ Ls) = (labelsAll Ls).map φ := by
  cases Ls with
  | nil => rfl
  | cons L Ls => rw [mapAll, labelsAll, labelsAll, List.map_append, labels_map, labelsAll_mapAll]

end

theorem trees_numberedAll (n : Nat) (Ls : List (Labelled α)) :
    trees (numberedAll n Ls) = trees Ls := by
  rw [← trees_mapAll Prod.snd, mapAll_snd_numbered]

theorem nodup_labels_numberedAll (n : Nat) (Ls : List (Labelled α)) :
    ((labelsAll (numberedAll n Ls)).map Prod.fst).Nodup := by
  rw [fst_labelsAll_numbered]
  exact List.nodup_range'

/-- The numbers from the next one on are different from this one too. -/
theorem nodup_cons_labels_numberedAll (n : Nat) (Ls : List (Labelled α)) :
    (n :: (labelsAll (numberedAll (n + 1) Ls)).map Prod.fst).Nodup := by
  refine List.nodup_cons.2 ⟨fun hin => ?_, nodup_labels_numberedAll (n + 1) Ls⟩
  rw [fst_labelsAll_numbered] at hin
  exact absurd (List.mem_range'_1.1 hin).1 (Nat.not_succ_le_self n)

end Labelled

end LiveMarkup
