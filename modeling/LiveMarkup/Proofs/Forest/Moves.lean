import LiveMarkup.Proofs.Forest.Cells

/-!
# Links and lists after a move

What taking a node out of its place, emptying a node and putting a node into a place do to the
parents, the owners and the lists of all nodes.  The statements hold in every forest; where a list
is changed at one node only, they name that node.
-/

namespace LiveMarkup.Forest

variable {f : Forest} {m n p : NodeId}

/-! ### Reading parents and owners -/

theorem parent_of_isAttr (h : (f.kind n).isAttr = true) : f.parent n = none := by
  rw [parent_eq_link, if_pos h]

theorem owner_of_not_isAttr (h : ¬ (f.kind n).isAttr = true) : f.owner n = none := by
  rw [owner_eq_link, if_neg h]

theorem not_isAttr_of_parent (h : f.parent n = some p) : ¬ (f.kind n).isAttr = true := by
  intro ha
  rw [parent_of_isAttr ha] at h
  cases h

theorem isAttr_of_owner (h : f.owner n = some p) : (f.kind n).isAttr = true := by
  by_contra ha
  rw [owner_of_not_isAttr ha] at h
  cases h

theorem lt_size_of_parent (h : f.parent n = some p) : n < f.size := by
  by_contra hn
  have hl := link_of_size_le (Nat.le_of_not_lt hn)
  rw [parent_eq_link] at h
  split_ifs at h
  rw [hl] at h
  cases h

theorem lt_size_of_owner (h : f.owner n = some p) : n < f.size := by
  by_contra hn
  have hl := link_of_size_le (Nat.le_of_not_lt hn)
  rw [owner_eq_link] at h
  split_ifs at h
  rw [hl] at h
  cases h

theorem lt_size_of_mem_children (h : n ∈ f.children p) : p < f.size := by
  by_contra hp
  rw [children_of_size_le (Nat.le_of_not_lt hp)] at h
  cases h

theorem lt_size_of_mem_attributes (h : n ∈ f.attributes p) : p < f.size := by
  by_contra hp
  rw [attributes_of_size_le (Nat.le_of_not_lt hp)] at h
  cases h

theorem lt_size_of_holdsChildren (h : (f.kind p).holdsChildren = true) : p < f.size := by
  by_contra hp
  rw [kind_of_size_le (Nat.le_of_not_lt hp)] at h
  cases h

theorem lt_size_of_isElement (h : (f.kind p).isElement = true) : p < f.size := by
  by_contra hp
  rw [kind_of_size_le (Nat.le_of_not_lt hp)] at h
  cases h

theorem lt_size_of_isAttr (h : (f.kind p).isAttr = true) : p < f.size := by
  by_contra hp
  rw [kind_of_size_le (Nat.le_of_not_lt hp)] at h
  cases h

/-- Two forests whose kinds and links agree have the same parents. -/
theorem parent_congr {g : Forest} (hk : g.kind n = f.kind n) (hl : g.link n = f.link n) :
    g.parent n = f.parent n := by
  rw [parent_eq_link, parent_eq_link, hk, hl]

/-- Two forests whose kinds and links agree have the same owners. -/
theorem owner_congr {g : Forest} (hk : g.kind n = f.kind n) (hl : g.link n = f.link n) :
    g.owner n = f.owner n := by
  rw [owner_eq_link, owner_eq_link, hk, hl]

/-! ### The links of attribute nodes -/

/-- An attribute node has no parent, whatever its link. -/
theorem parent_setParent_of_isAttr (h : (f.kind n).isAttr = true) (q : Option NodeId) :
    (f.setParent n q).parent m = f.parent m := by
  rw [parent_eq_link, parent_eq_link, kind_setParent, link_setParent]
  split_ifs with hm hn
  · rfl
  · exact absurd (hn.1 ▸ h) hm
  · rfl

theorem owner_setParent_of_isAttr (h : (f.kind n).isAttr = true) (q : Option NodeId) :
    (f.setParent n q).owner m = if m = n then q else f.owner m := by
  rw [owner_eq_link, owner_eq_link, kind_setParent, link_setParent]
  by_cases hm : m = n
  · subst hm
    rw [if_pos h, if_pos ⟨rfl, lt_size_of_isAttr h⟩, if_pos rfl]
  · have hout : ¬ (m = n ∧ n < f.size) := fun e => hm e.1
    rw [if_neg hout, if_neg hm]

@[simp] theorem parent_setAttributes (change : List NodeId → List NodeId) :
    (f.setAttributes n change).parent m = f.parent m :=
  parent_congr (kind_setAttributes f m n change) (link_setAttributes f m n change)

@[simp] theorem owner_setAttributes (change : List NodeId → List NodeId) :
    (f.setAttributes n change).owner m = f.owner m :=
  owner_congr (kind_setAttributes f m n change) (link_setAttributes f m n change)

/-! ### New nodes -/

theorem parent_create (k : Kind) (s : String) : (f.create k s).2.parent m = f.parent m := by
  by_cases hm : m = f.size
  · have hl : f.link m = none := link_of_size_le (Nat.le_of_eq hm.symm)
    rw [parent_eq_link, parent_eq_link, link_create, hl, ite_self, ite_self]
  · exact parent_congr (by rw [kind_create, if_neg hm]) (link_create f m k s)

theorem owner_create (k : Kind) (s : String) : (f.create k s).2.owner m = f.owner m := by
  by_cases hm : m = f.size
  · have hl : f.link m = none := link_of_size_le (Nat.le_of_eq hm.symm)
    rw [owner_eq_link, owner_eq_link, link_create, hl, ite_self, ite_self]
  · exact owner_congr (by rw [kind_create, if_neg hm]) (link_create f m k s)

/-! ### Taking a node out of its parent -/

@[simp] theorem size_detach : (f.detach n).size = f.size := by
  unfold detach
  cases f.parent n <;> simp

@[simp] theorem kind_detach : (f.detach n).kind m = f.kind m := by
  unfold detach
  cases f.parent n <;> simp

@[simp] theorem data_detach : (f.detach n).data m = f.data m := by
  unfold detach
  cases f.parent n <;> simp

@[simp] theorem attributes_detach : (f.detach n).attributes m = f.attributes m := by
  unfold detach
  cases f.parent n <;> simp

theorem link_detach : (f.detach n).link m = if m = n then none else f.link m := by
  have hout : ¬ n < f.size → f.link n = none := fun h => link_of_size_le (Nat.le_of_not_lt h)
  unfold detach
  cases f.parent n <;> simp only [link_setParent, link_setChildren, size_setChildren] <;>
    split_ifs <;> simp_all

theorem parent_detach : (f.detach n).parent m = if m = n then none else f.parent m := by
  rw [parent_eq_link, parent_eq_link, kind_detach, link_detach]
  split_ifs <;> rfl

theorem owner_detach : (f.detach n).owner m = if m = n then none else f.owner m := by
  rw [owner_eq_link, owner_eq_link, kind_detach, link_detach]
  split_ifs <;> rfl

theorem children_detach :
    (f.detach n).children m =
      if f.parent n = some m then (f.children m).filter (· != n) else f.children m := by
  unfold detach
  rcases hp : f.parent n with _ | p
  · simp
  · simp only [children_setParent, children_setChildren, Option.some.injEq]
    by_cases hm : m = p
    · subst hm
      by_cases hs : m < f.size
      · simp [hs]
      · simp [hs, children_of_size_le (Nat.le_of_not_lt hs)]
    · simp [hm, Ne.symm hm]

/-! ### Putting a node among the children of another -/

section InsertAt

variable (i : Nat)

@[simp] theorem size_insertAt : (f.insertAt p i n).size = f.size := by
  simp [insertAt]

@[simp] theorem kind_insertAt : (f.insertAt p i n).kind m = f.kind m := by
  simp [insertAt]

@[simp] theorem data_insertAt : (f.insertAt p i n).data m = f.data m := by
  simp [insertAt]

@[simp] theorem attributes_insertAt : (f.insertAt p i n).attributes m = f.attributes m := by
  simp [insertAt]

theorem link_insertAt (hn : n < f.size) :
    (f.insertAt p i n).link m = if m = n then some p else f.link m := by
  simp [insertAt, link_setParent, hn]

theorem parent_insertAt (hn : n < f.size) (ha : ¬ (f.kind n).isAttr = true) :
    (f.insertAt p i n).parent m = if m = n then some p else f.parent m := by
  rw [parent_eq_link, parent_eq_link, kind_insertAt, link_insertAt _ hn]
  by_cases hm : m = n
  · subst hm
    simp [ha]
  · simp [hm]

theorem owner_insertAt (hn : n < f.size) (ha : ¬ (f.kind n).isAttr = true) :
    (f.insertAt p i n).owner m = f.owner m := by
  rw [owner_eq_link, owner_eq_link, kind_insertAt, link_insertAt _ hn]
  by_cases hm : m = n
  · subst hm
    simp [ha]
  · simp [hm]

theorem children_insertAt (hp : p < f.size) :
    (f.insertAt p i n).children m =
      if m = p then (f.children p).insertIdx i n else f.children m := by
  simp [insertAt, children_setChildren, hp]

end InsertAt

/-! ### Emptying a node -/

/-- Cutting the links of some nodes. -/
theorem foldl_setParent_none (cs : List NodeId) (f : Forest) :
    let g := cs.foldl (fun f c => f.setParent c none) f
    g.size = f.size ∧ ∀ m, g.kind m = f.kind m ∧ g.data m = f.data m ∧
      g.children m = f.children m ∧ g.attributes m = f.attributes m ∧
      g.link m = if m ∈ cs then none else f.link m := by
  induction cs generalizing f with
  | nil => simp
  | cons c cs ih =>
    obtain ⟨hs, hv⟩ := ih (f.setParent c none)
    refine ⟨by simpa using hs, fun m => ?_⟩
    obtain ⟨hk, hd, hc, ha, hl⟩ := hv m
    refine ⟨by simpa using hk, by simpa using hd, by simpa using hc, by simpa using ha, ?_⟩
    simp only [List.foldl_cons, hl, link_setParent, List.mem_cons]
    by_cases hm : m = c
    · subst hm
      have hout : ¬ m < f.size → f.link m = none := fun h => link_of_size_le (Nat.le_of_not_lt h)
      by_cases hs : m < f.size <;> simp [hs, hout]
    · simp [hm]

section TakeChildren

@[simp] theorem fst_takeChildren : (f.takeChildren n).1 = f.children n := rfl

@[simp] theorem size_takeChildren : (f.takeChildren n).2.size = f.size :=
  (foldl_setParent_none (f.children n) _).1.trans (size_setChildren f n _)

@[simp] theorem kind_takeChildren : (f.takeChildren n).2.kind m = f.kind m :=
  ((foldl_setParent_none (f.children n) _).2 m).1.trans (kind_setChildren f m n _)

@[simp] theorem data_takeChildren : (f.takeChildren n).2.data m = f.data m :=
  ((foldl_setParent_none (f.children n) _).2 m).2.1.trans (data_setChildren f m n _)

@[simp] theorem attributes_takeChildren : (f.takeChildren n).2.attributes m = f.attributes m :=
  ((foldl_setParent_none (f.children n) _).2 m).2.2.2.1.trans (attributes_setChildren f m n _)

theorem children_takeChildren :
    (f.takeChildren n).2.children m = if m = n then [] else f.children m := by
  refine ((foldl_setParent_none (f.children n) _).2 m).2.2.1.trans ?_
  rw [children_setChildren]
  by_cases hm : m = n
  · subst hm
    by_cases hs : m < f.size
    · simp [hs]
    · simp [hs, children_of_size_le (Nat.le_of_not_lt hs)]
  · simp [hm]

theorem link_takeChildren :
    (f.takeChildren n).2.link m = if m ∈ f.children n then none else f.link m := by
  refine ((foldl_setParent_none (f.children n) _).2 m).2.2.2.2.trans ?_
  rw [link_setChildren]

end TakeChildren

end LiveMarkup.Forest
