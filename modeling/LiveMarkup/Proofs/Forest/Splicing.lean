import LiveMarkup.Proofs.Forest.Planting

/-!
# Appending loose nodes

A node that has no parent and does not hold the place it is to go to is appended without a refusal:
nothing else changes than the children of its new parent and its own link (`Sound.append_of_loose`).
-/

namespace LiveMarkup.Forest

variable {f g : Forest} {m n p : NodeId}

/-! ### Nodes without a parent -/

theorem link_of_parent_eq_none (ha : ¬ (f.kind n).isAttr = true) (h : f.parent n = none) :
    f.link n = none := by
  rwa [parent_eq_link, if_neg ha] at h

theorem modify_id (f : Forest) (n : NodeId) : f.modify n id = f := by
  rw [modify, Forest.mk.injEq]
  refine Array.ext (by simp) fun i hi _ => ?_
  simp [Array.getElem_modify]

/-- Setting the link of a node to what it is changes nothing. -/
theorem setParent_eq_self {q : Option NodeId} (h : f.link n = q) : f.setParent n q = f := by
  have hcell : ({ f.cell n with parent := q } : Cell) = id (f.cell n) := by
    rw [← h]
    rfl
  have hsame : f.setParent n q = f.modify n id := modify_congr hcell
  exact hsame.trans (modify_id f n)

theorem detach_eq_self (ha : ¬ (f.kind n).isAttr = true) (h : f.parent n = none) :
    f.detach n = f := by
  rw [detach, h]
  exact setParent_eq_self (link_of_parent_eq_none ha h)

/-! ### Places among the children of a node -/

/-- The place of a child is the place of its first occurrence among the children of its parent. -/
theorem indexInParent_eq (hp : f.parent n = some p) (hn : n ∈ f.children p) :
    f.indexInParent n = some ((f.children p).idxOf n) := by
  rw [indexInParent, hp]
  obtain ⟨i, hi⟩ := Option.isSome_iff_exists.1 (List.isSome_idxOf?.2 hn)
  simp only [hi, List.idxOf_eq_getD_idxOf?, Option.getD_some]

namespace Sound

/-- Nothing refuses a loose node at the end of a list of children or before one of them. -/
theorem insertFault?_of_loose (hf : f.Sound) (hp : (f.kind p).holdsChildren = true)
    (hn : Loose f p n) {reference : Option NodeId}
    (hr : ∀ r, reference = some r → f.parent r = some p) :
    f.insertFault? p n reference = none := by
  have hout : f.contains n p = false := by
    rw [Bool.eq_false_iff]
    exact fun h => hn.not_above (hf.contains_iff.1 h)
  cases reference with
  | none => simp [insertFault?, hp, hn.not_isAttr, hout]
  | some r => simp [insertFault?, hp, hn.not_isAttr, hout, hr r rfl]

theorem append_of_loose (hf : f.Sound) (hp : (f.kind p).holdsChildren = true) (hn : Loose f p n) :
    f.append p n = (.ok (), f.insertAt p (f.children p).length n) := by
  rw [append, Forest.insertBefore, hf.insertFault?_of_loose hp hn (by simp)]
  simp [Forest.pickUp, hn.ne_fragment, detach_eq_self hn.not_isAttr hn.parent_eq,
    Forest.insertAllAt]

/-- A new node is loose wherever it is to go. -/
theorem loose_create (hf : f.Sound) {k : Kind} {s : String} (hattr : k.isAttr = false)
    (hfr : k ≠ .fragment) (hp : p < f.size) : Loose (f.create k s).2 p f.size := by
  have hkind : (f.create k s).2.kind f.size = k := by rw [kind_create, if_pos rfl]
  have hnone : f.link f.size = none := link_of_size_le le_rfl
  refine ⟨by simp, by simp [hkind, hattr], by simpa [hkind] using hfr, ?_, fun habove => ?_⟩
  · rw [parent_eq_link, link_create, hnone, ite_self]
  · exact absurd (lt_size_of_above hf (Grows.create f k s) hp habove) (Nat.lt_irrefl _)

end Sound

end LiveMarkup.Forest
