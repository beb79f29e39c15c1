import Mathlib.Data.List.Nodup
import Mathlib.Logic.Relation
import LiveMarkup.Forest.Attribute
import LiveMarkup.Forest.Copy

/-!
# Cells after a change

A forest is read through six views: the number of its nodes, and for every node its kind, its data,
its link to the node that holds it, its children and its attribute nodes.  This file says what the
elementary changes `setParent`, `setChildren`, `setAttributes`, `writeData` and `push` do to each
view.  Every other operation on nodes is a sequence of these, and nothing further on looks into the
array of cells.
-/

namespace LiveMarkup.Forest

variable (f : Forest) (m n : NodeId)

/-- The link of a node to what holds it: its parent, or its owner if it is an attribute node. -/
def link (f : Forest) (n : NodeId) : Option NodeId := (f.cell n).parent

theorem parent_eq_link : f.parent n = if (f.kind n).isAttr then none else f.link n := rfl

theorem owner_eq_link : f.owner n = if (f.kind n).isAttr then f.link n else none := rfl

/-! ### The array of cells -/

theorem cell_of_size_le {f : Forest} {n : NodeId} (h : f.size ≤ n) :
    f.cell n = .detached .comment "" := by
  simp only [size] at h
  simp [cell, h]

@[simp] theorem size_modify (change : Cell → Cell) : (f.modify n change).size = f.size := by
  simp [modify, size]

theorem cell_modify (change : Cell → Cell) :
    (f.modify n change).cell m =
      if m = n ∧ n < f.size then change (f.cell n) else f.cell m := by
  by_cases hm : m = n
  · subst hm
    by_cases hs : m < f.size
    · simp only [size] at hs
      simp [cell, modify, size, hs, Array.getElem_modify]
    · rw [if_neg fun h => hs h.2, cell_of_size_le (Nat.le_of_not_lt hs)]
      simp only [size] at hs
      simp [cell, modify, hs]
  · simp [cell, modify, Array.getElem?_modify, hm, Ne.symm hm]

theorem modify_congr {f : Forest} {n : NodeId} {change change' : Cell → Cell}
    (h : change (f.cell n) = change' (f.cell n)) : f.modify n change = f.modify n change' := by
  simp only [modify, Forest.mk.injEq]
  refine Array.ext (by simp) fun i hi _ => ?_
  simp only [Array.size_modify] at hi
  rw [Array.getElem_modify, Array.getElem_modify]
  split_ifs with hin
  · subst hin
    simpa [cell, hi] using h
  · rfl

@[simp] theorem size_push (c : Cell) : (f.push c).size = f.size + 1 := by
  simp [push, size]

theorem cell_push (c : Cell) : (f.push c).cell m = if m = f.size then c else f.cell m := by
  by_cases hm : m = f.size
  · simp [cell, push, hm, size]
  · simp only [size] at hm
    simp [cell, push, size, hm, Array.getElem?_push]

/-! ### Numbers that are not in use -/

section NotInUse

variable {f : Forest} {n : NodeId}

theorem kind_of_size_le (h : f.size ≤ n) : f.kind n = .comment := by
  rw [kind, cell_of_size_le h]; rfl

theorem link_of_size_le (h : f.size ≤ n) : f.link n = none := by
  rw [link, cell_of_size_le h]; rfl

theorem children_of_size_le (h : f.size ≤ n) : f.children n = [] := by
  rw [children, cell_of_size_le h]; rfl

theorem attributes_of_size_le (h : f.size ≤ n) : f.attributes n = [] := by
  rw [attributes, cell_of_size_le h]; rfl

end NotInUse

/-! ### Setting the link of a node -/

section SetParent

variable (q : Option NodeId)

@[simp] theorem size_setParent : (f.setParent n q).size = f.size := size_modify f n _

theorem cell_setParent :
    (f.setParent n q).cell m =
      if m = n ∧ n < f.size then { f.cell n with parent := q } else f.cell m :=
  cell_modify f m n _

@[simp] theorem kind_setParent : (f.setParent n q).kind m = f.kind m := by
  simp only [kind, cell_setParent]
  split_ifs with h <;> simp [h]

@[simp] theorem data_setParent : (f.setParent n q).data m = f.data m := by
  simp only [data, cell_setParent]
  split_ifs with h <;> simp [h]

@[simp] theorem children_setParent : (f.setParent n q).children m = f.children m := by
  simp only [children, cell_setParent]
  split_ifs with h <;> simp [h]

@[simp] theorem attributes_setParent : (f.setParent n q).attributes m = f.attributes m := by
  simp only [attributes, cell_setParent]
  split_ifs with h <;> simp [h]

theorem link_setParent :
    (f.setParent n q).link m = if m = n ∧ n < f.size then q else f.link m := by
  simp only [link, cell_setParent]
  split_ifs with h <;> rfl

end SetParent

/-! ### Changing the children of a node -/

section SetChildren

variable (change : List NodeId → List NodeId)

@[simp] theorem size_setChildren : (f.setChildren n change).size = f.size := size_modify f n _

theorem cell_setChildren :
    (f.setChildren n change).cell m =
      if m = n ∧ n < f.size then { f.cell n with children := change (f.cell n).children }
      else f.cell m :=
  cell_modify f m n _

@[simp] theorem kind_setChildren : (f.setChildren n change).kind m = f.kind m := by
  simp only [kind, cell_setChildren]
  split_ifs with h <;> simp [h]

@[simp] theorem data_setChildren : (f.setChildren n change).data m = f.data m := by
  simp only [data, cell_setChildren]
  split_ifs with h <;> simp [h]

@[simp] theorem link_setChildren : (f.setChildren n change).link m = f.link m := by
  simp only [link, cell_setChildren]
  split_ifs with h <;> simp [h]

@[simp] theorem attributes_setChildren :
    (f.setChildren n change).attributes m = f.attributes m := by
  simp only [attributes, cell_setChildren]
  split_ifs with h <;> simp [h]

theorem children_setChildren :
    (f.setChildren n change).children m =
      if m = n ∧ n < f.size then change (f.children n) else f.children m := by
  simp only [children, cell_setChildren]
  split_ifs with h <;> rfl

end SetChildren

/-! ### Changing the attribute nodes of a node -/

section SetAttributes

variable (change : List NodeId → List NodeId)

@[simp] theorem size_setAttributes : (f.setAttributes n change).size = f.size := size_modify f n _

theorem cell_setAttributes :
    (f.setAttributes n change).cell m =
      if m = n ∧ n < f.size then { f.cell n with attributes := change (f.cell n).attributes }
      else f.cell m :=
  cell_modify f m n _

@[simp] theorem kind_setAttributes : (f.setAttributes n change).kind m = f.kind m := by
  simp only [kind, cell_setAttributes]
  split_ifs with h <;> simp [h]

@[simp] theorem data_setAttributes : (f.setAttributes n change).data m = f.data m := by
  simp only [data, cell_setAttributes]
  split_ifs with h <;> simp [h]

@[simp] theorem link_setAttributes : (f.setAttributes n change).link m = f.link m := by
  simp only [link, cell_setAttributes]
  split_ifs with h <;> simp [h]

@[simp] theorem children_setAttributes : (f.setAttributes n change).children m = f.children m := by
  simp only [children, cell_setAttributes]
  split_ifs with h <;> simp [h]

theorem attributes_setAttributes :
    (f.setAttributes n change).attributes m =
      if m = n ∧ n < f.size then change (f.attributes n) else f.attributes m := by
  simp only [attributes, cell_setAttributes]
  split_ifs with h <;> rfl

end SetAttributes

/-! ### Writing data -/

section WriteData

variable (change : String → String)

@[simp] theorem size_writeData : (f.writeData n change).size = f.size := size_modify f n _

theorem cell_writeData :
    (f.writeData n change).cell m =
      if m = n ∧ n < f.size then { f.cell n with data := change (f.cell n).data }
      else f.cell m :=
  cell_modify f m n _

@[simp] theorem kind_writeData : (f.writeData n change).kind m = f.kind m := by
  simp only [kind, cell_writeData]
  split_ifs with h <;> simp [h]

@[simp] theorem link_writeData : (f.writeData n change).link m = f.link m := by
  simp only [link, cell_writeData]
  split_ifs with h <;> simp [h]

@[simp] theorem children_writeData : (f.writeData n change).children m = f.children m := by
  simp only [children, cell_writeData]
  split_ifs with h <;> simp [h]

@[simp] theorem attributes_writeData : (f.writeData n change).attributes m = f.attributes m := by
  simp only [attributes, cell_writeData]
  split_ifs with h <;> simp [h]

theorem data_writeData :
    (f.writeData n change).data m =
      if m = n ∧ n < f.size then change (f.data n) else f.data m := by
  simp only [data, cell_writeData]
  split_ifs with h <;> rfl

end WriteData

/-! ### New nodes -/

section Create

variable (k : Kind) (s : String)

@[simp] theorem fst_create : (f.create k s).1 = f.size := rfl

@[simp] theorem size_create : (f.create k s).2.size = f.size + 1 := size_push f _

theorem cell_create :
    (f.create k s).2.cell m = if m = f.size then .detached k s else f.cell m :=
  cell_push f m _

theorem kind_create : (f.create k s).2.kind m = if m = f.size then k else f.kind m := by
  simp only [kind, cell_create]
  split_ifs <;> rfl

theorem data_create : (f.create k s).2.data m = if m = f.size then s else f.data m := by
  simp only [data, cell_create]
  split_ifs <;> rfl

@[simp] theorem link_create : (f.create k s).2.link m = f.link m := by
  simp only [link, cell_create]
  split_ifs with h
  · rw [h, cell_of_size_le (Nat.le_refl _)]; rfl
  · rfl

@[simp] theorem children_create : (f.create k s).2.children m = f.children m := by
  simp only [children, cell_create]
  split_ifs with h
  · rw [h, cell_of_size_le (Nat.le_refl _)]; rfl
  · rfl

@[simp] theorem attributes_create : (f.create k s).2.attributes m = f.attributes m := by
  simp only [attributes, cell_create]
  split_ifs with h
  · rw [h, cell_of_size_le (Nat.le_refl _)]; rfl
  · rfl

end Create

end LiveMarkup.Forest
