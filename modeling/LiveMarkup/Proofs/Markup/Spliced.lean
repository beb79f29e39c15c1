import Mathlib.Tactic.SplitIfs
import LiveMarkup.Proofs.Markup.Labelled

/-!
# Spliced trees

`Labelled.splice n Ms` puts the trees `Ms` in place of the comment with the label `n`, and
`Labelled.write n s` gives the attribute with the label `n` the value `s`.
-/

namespace LiveMarkup.Labelled

variable {α : Type} [DecidableEq α] {n : α} {Ms : List (Labelled α)}

mutual

/-- A tree with other trees in place of the comment with a label. -/
def splice (n : α) (Ms : List (Labelled α)) : Labelled α → List (Labelled α)
  | element l tag as cs => [element l tag as (spliceAll n Ms cs)]
  | text l s => [text l s]
  | comment l s => if l = n then Ms else [comment l s]

/-- Several trees with others in place of the comment with a label. -/
def spliceAll (n : α) (Ms : List (Labelled α)) : List (Labelled α) → List (Labelled α)
  | [] => []
  | L :: Ls => L.splice n Ms ++ spliceAll n Ms Ls

end

/-- An attribute with another value if it has the label. -/
def writeAttribute (n : α) (s : String) (a : α × Attribute) : α × Attribute :=
  if a.1 = n then (a.1, ⟨a.2.name, s⟩) else a

mutual

/-- A tree with another value for the attribute with a label. -/
def write (n : α) (s : String) : Labelled α → Labelled α
  | element l tag as cs => element l tag (as.map (writeAttribute n s)) (writeAll n s cs)
  | text l t => text l t
  | comment l t => comment l t

/-- Several trees with another value for the attribute with a label. -/
def writeAll (n : α) (s : String) : List (Labelled α) → List (Labelled α)
  | [] => []
  | L :: Ls => L.write n s :: writeAll n s Ls

end

mutual

/-- A tree without the label stays as it is. -/
theorem splice_of_not_mem {L : Labelled α} (h : n ∉ L.labels) : L.splice n Ms = [L] := by
  cases L with
  | text l s => rfl
  | comment l s => exact if_neg fun e => h (by simp [labels, e])
  | element l tag as cs =>
    rw [splice, spliceAll_of_not_mem fun hn => h (by simp [labels, hn])]

theorem spliceAll_of_not_mem {Ls : List (Labelled α)} (h : n ∉ labelsAll Ls) :
    spliceAll n Ms Ls = Ls := by
  cases Ls with
  | nil => rfl
  | cons L Ls =>
    rw [labelsAll, List.mem_append, not_or] at h
    rw [spliceAll, splice_of_not_mem h.1, spliceAll_of_not_mem h.2, List.singleton_append]

end

@[simp] theorem fst_writeAttribute (s : String) (a : α × Attribute) :
    (writeAttribute n s a).1 = a.1 := by
  unfold writeAttribute
  split_ifs <;> rfl

@[simp] theorem label_write (s : String) (L : Labelled α) : (L.write n s).label = L.label := by
  cases L <;> rfl

theorem writeAll_eq_map (s : String) (Ls : List (Labelled α)) :
    writeAll n s Ls = Ls.map (write n s) := by
  induction Ls with
  | nil => rfl
  | cons L Ls ih => rw [writeAll, ih, List.map_cons]

mutual

theorem labels_write (s : String) (L : Labelled α) : (L.write n s).labels = L.labels := by
  cases L with
  | text l t | comment l t => rfl
  | element l tag as cs =>
    rw [write, labels, labels, labelsAll_writeAll, List.map_map]
    simp [Function.comp_def]

theorem labelsAll_writeAll (s : String) (Ls : List (Labelled α)) :
    labelsAll (writeAll n s Ls) = labelsAll Ls := by
  cases Ls with
  | nil => rfl
  | cons L Ls => rw [writeAll, labelsAll, labelsAll, labels_write, labelsAll_writeAll]

end

end LiveMarkup.Labelled
