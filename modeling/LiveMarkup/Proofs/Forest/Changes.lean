import LiveMarkup.Proofs.Forest.History

/-!
# What operations on nodes are made of

However many steps an operation takes, each of them creates a node, changes a link of a node or
writes the data of one (`Changes`).  So what no such step can do is done by no operation, whether it
succeeds or is refused half-way.

Data is written to nodes of some kinds only, which `Changes` has as a parameter: to move nodes
writes nothing, to join texts writes texts, and to set an attribute writes attribute nodes.  Nodes
that can have children are created without data.
-/

namespace LiveMarkup.Forest

variable {W : Kind → Prop} {f g : Forest} {a m n p : NodeId} {ns : List NodeId}

/-- One elementary step after the other leads from a forest to another; data is written to nodes of
the kinds in `W` only. -/
inductive Changes (W : Kind → Prop) (f : Forest) : Forest → Prop
  | refl : Changes W f f
  | create {g : Forest} (h : Changes W f g) (k : Kind) (s : String)
      (hs : k.holdsChildren = true → s = "") : Changes W f (g.create k s).2
  | setParent {g : Forest} (h : Changes W f g) (n : NodeId) (q : Option NodeId) :
    Changes W f (g.setParent n q)
  | setChildren {g : Forest} (h : Changes W f g) (n : NodeId)
      (change : List NodeId → List NodeId) : Changes W f (g.setChildren n change)
  | setAttributes {g : Forest} (h : Changes W f g) (n : NodeId)
      (change : List NodeId → List NodeId) : Changes W f (g.setAttributes n change)
  | writeData {g : Forest} {n : NodeId} (h : Changes W f g) (hn : W (g.kind n))
      (change : String → String) : Changes W f (g.writeData n change)

namespace Changes

/-- A new node that is no element and no fragment. -/
theorem create_leaf (h : Changes W f g) {k : Kind} (hk : k.holdsChildren = false) (s : String) :
    Changes W f (g.create k s).2 :=
  h.create k s fun hholds => absurd (hk.symm.trans hholds) Bool.false_ne_true

/-! ### Moving nodes -/

section Moving

variable (h : Changes W f g)

include h

theorem detach (n : NodeId) : Changes W f (g.detach n) := by
  unfold Forest.detach
  split
  · exact (h.setChildren _ _).setParent _ _
  · exact h.setParent _ _

theorem orphan (ns : List NodeId) : Changes W f (ns.foldl (fun g c => g.setParent c none) g) := by
  induction ns generalizing g with
  | nil => exact h
  | cons n ns ih => exact ih (h.setParent n none)

theorem takeChildren (n : NodeId) : Changes W f (g.takeChildren n).2 := (h.setChildren n _).orphan _

theorem insertAllAt (p : NodeId) (i : ℕ) (ns : List NodeId) :
    Changes W f (g.insertAllAt p i ns) := by
  induction ns generalizing g i with
  | nil => exact h
  | cons n ns ih => exact ih ((h.setParent n _).setChildren p _) _

theorem pickUp (n : NodeId) : Changes W f (g.pickUp n).2 := by
  unfold Forest.pickUp
  split_ifs
  · exact h.takeChildren n
  · exact h.detach n

theorem insertBefore (p n : NodeId) (reference : Option NodeId) :
    Changes W f (g.insertBefore p n reference).2 := by
  unfold Forest.insertBefore
  split
  · exact h
  · dsimp only
    split
    · exact (h.pickUp n).insertAllAt p _ _
    · exact h.pickUp n

theorem append (p n : NodeId) : Changes W f (g.append p n).2 := h.insertBefore p n none

theorem appendAll (p : NodeId) (ns : List NodeId) : Changes W f (Page.appendAll g p ns) := by
  induction ns generalizing g with
  | nil => exact h
  | cons n ns ih => exact ih (h.append p n)

theorem removeChild (p n : NodeId) : Changes W f (g.removeChild p n).2 := by
  unfold Forest.removeChild
  split_ifs
  · exact h.detach n
  · exact h

theorem remove (n : NodeId) : Changes W f (g.remove n) := by
  unfold Forest.remove
  split
  · exact (h.setAttributes _ _).setParent n none
  · exact h.detach n

theorem insertEach (p anchor : NodeId) (ns : List NodeId) :
    Changes W f (g.insertEach p anchor ns).2 := by
  induction ns generalizing g with
  | nil => exact h
  | cons n ns ih =>
    have hfirst := h.insertBefore p n (some anchor)
    rw [Forest.insertEach]
    split_ifs
    · exact ih h
    · split
      · next heq =>
        rw [heq] at hfirst
        exact ih hfirst
      · exact hfirst

theorem replaceWith (n : NodeId) (ns : List NodeId) : Changes W f (g.replaceWith n ns).2 := by
  unfold Forest.replaceWith
  split
  · exact h
  · next p _ =>
    have hinsert := h.insertEach p n ns
    split
    · next heq =>
      rw [heq] at hinsert
      dsimp only
      split_ifs
      · exact hinsert
      · exact hinsert.detach n
    · exact hinsert

end Moving

/-- To save what a container shows is to move its children to a new fragment. -/
theorem save {page : Page} (h : Changes W f page.forest) (m : Mount) :
    Changes W f (page.save m).2.forest :=
  ((h.create .fragment "" fun _ => rfl).takeChildren m.container).appendAll _ _

/-! ### Joining texts -/

theorem absorb (h : Changes W f g) (hW : W .text) (hn : g.kind n = .text) (ns : List NodeId) :
    Changes W f (g.absorb n ns).2 := by
  induction ns generalizing g with
  | nil => exact h
  | cons m ns ih =>
    rw [Forest.absorb]
    split_ifs
    · have hwritten := h.writeData (n := n) (hn ▸ hW) (· ++ g.data m)
      exact ih (hwritten.detach m) (by simpa using hn)
    · exact h

theorem joinSiblings (h : Changes W f g) (hW : W .text) {deeper : Forest → NodeId → Forest}
    (hdeeper : ∀ {g : Forest}, Changes W f g → ∀ n, Changes W f (deeper g n)) (ns : List NodeId) :
    Changes W f (joinSiblings deeper g ns) := by
  fun_induction Forest.joinSiblings deeper g ns with
  | case1 => exact h
  | case2 g n ns hn joined ih =>
    have hjoined := h.absorb hW hn ns
    refine ih ?_
    split_ifs
    · exact hjoined.detach n
    · exact hjoined
  | case3 g n ns _ ih => exact ih (hdeeper h n)

theorem normalize (h : Changes W f g) (hW : W .text) (n : NodeId) :
    Changes W f (g.normalize n) := by
  unfold Forest.normalize
  generalize g.size + 1 = fuel
  induction fuel generalizing g n with
  | zero => exact h
  | succ fuel ih => exact h.joinSiblings hW (fun h n => ih h n) (g.children n)

/-! ### Data and attributes -/

theorem setData (h : Changes W f g) (hn : (g.kind n).holdsChildren = false → W (g.kind n))
    (s : String) : Changes W f (g.setData n s).2 := by
  unfold Forest.setData
  split
  case h_4 => exact h
  all_goals next hk => exact h.writeData (hn (by rw [hk]; rfl)) fun _ => s

theorem setValue (h : Changes W f g) (hn : (g.kind n).holdsChildren = false → W (g.kind n))
    (s : String) : Changes W f (g.setValue n s).2 := by
  unfold Forest.setValue
  split_ifs
  · exact h.setData hn s
  · exact h

theorem setAttr (h : Changes W f g) (hW : ∀ a ∈ g.attributes n, W (g.kind a)) (name s : String) :
    Changes W f (g.setAttr n name s).2 := by
  unfold Forest.setAttr
  split
  · exact h
  · split
    · next a ha => exact h.writeData (hW a (List.mem_of_find?_eq_some ha)) fun _ => s
    · have hnew := h.create_leaf (k := .attr name.toLower) rfl s
      exact (hnew.setParent g.size (some n)).setAttributes n (· ++ [g.size])

section Attributes

variable (h : Changes W f g)

include h

theorem removeAttr (n : NodeId) (name : String) : Changes W f (g.removeAttr n name).2 := by
  unfold Forest.removeAttr
  split
  · exact h
  · split
    · exact h.remove _
    · exact h

theorem setAttrNode (n a : NodeId) : Changes W f (g.setAttrNode n a).2 := by
  unfold Forest.setAttrNode
  split
  · exact h
  · split_ifs
    · exact h
    · split
      · split_ifs <;> exact h
      · split
        · exact ((h.setAttributes _ _).setParent _ _).setParent _ _
        · exact (h.setAttributes _ _).setParent _ _

theorem removeAttrNode (n a : NodeId) : Changes W f (g.removeAttrNode n a).2 := by
  unfold Forest.removeAttrNode
  split_ifs
  · exact h.remove a
  · exact h

/-! ### Planting -/

theorem plantAttr (n : NodeId) (b : Attribute) : Changes W f (g.plantAttr n b) :=
  ((h.create_leaf (k := .attr b.name) rfl b.value).setParent g.size (some n)).setAttributes n
    (· ++ [g.size])

theorem plantAttrs (n : NodeId) (bs : List Attribute) :
    Changes W f (bs.foldl (fun g b => g.plantAttr n b) g) := by
  induction bs generalizing g with
  | nil => exact h
  | cons b bs ih => exact ih (h.plantAttr n b)

end Attributes

mutual

theorem plant {g : Forest} (h : Changes W f g) (t : Tree) : Changes W f (g.plant t).2 := by
  cases t with
  | text s | comment s => exact h.create_leaf rfl s
  | element tag as ts => exact ((h.create _ "" fun _ => rfl).plantAttrs _ as).plantBelow _ ts

theorem plantBelow {g : Forest} (h : Changes W f g) (p : NodeId) (ts : List Tree) :
    Changes W f (g.plantBelow p ts) := by
  cases ts with
  | nil => exact h
  | cons t ts => exact (((h.plant t).setParent _ _).setChildren p _).plantBelow p ts

end

section Copies

variable (h : Changes W f g)

include h

theorem plantFragment (ts : List Tree) : Changes W f (g.plantFragment ts).2 :=
  (h.create _ "" fun _ => rfl).plantBelow _ ts

theorem plantSnapshot (s : Snapshot) : Changes W f (g.plantSnapshot s).2 := by
  cases s with
  | tree t => exact h.plant t
  | attr b => exact h.create_leaf rfl b.value
  | fragment ts => exact h.plantFragment ts

theorem copy (n : NodeId) (deep : Bool) : Changes W f (g.copy n deep).2 := by
  unfold Forest.copy
  split_ifs
  · exact h.plantSnapshot _
  · split
    · exact h.plant _
    · exact h.plantFragment []
    · exact h.plantSnapshot _

end Copies

end Changes

/-! ### Operations -/

/-- Whether an operation writes data of nodes that are there. -/
def Operation.Writes : Operation → Prop
  | .normalize _ => True
  | .setAttr _ _ _ => True
  | _ => False

/-- Every operation but the release of a node is made of elementary steps.  An operation that writes
writes texts, or what stands in a list of attributes. -/
theorem Changes.perform {op : Operation} (hop : ∀ n, op ≠ .release n)
    (hW : op.Writes → f.Sound ∧ W .text ∧ ∀ k : Kind, k.isAttr = true → W k) :
    Changes W f (op.perform f) := by
  have h : Changes W f f := .refl
  cases op with
  | element _ | fragment => exact h.create _ "" fun _ => rfl
  | text s | comment s | attr _ s => exact h.create_leaf rfl s
  | append p n => exact h.append p n
  | insertBefore p n reference => exact h.insertBefore p n reference
  | removeChild p n => exact h.removeChild p n
  | remove n => exact h.remove n
  | replaceWith n ns => exact h.replaceWith n ns
  | takeChildren n => exact h.takeChildren n
  | clone n deep => exact h.copy n deep
  | normalize n => exact h.normalize (hW trivial).2.1 n
  | setAttr n name value =>
    obtain ⟨hf, -, hattr⟩ := hW trivial
    exact h.setAttr (fun a ha => hattr _ (hf.isAttr_of_mem_attributes ha)) name value
  | setAttrNode n a => exact h.setAttrNode n a
  | removeAttr n name => exact h.removeAttr n name
  | removeAttrNode n a => exact h.removeAttrNode n a
  | release n => exact absurd rfl (hop n)

/-! ### Releasing nodes -/

@[simp] theorem size_takeApart (f : Forest) (n : NodeId) : (f.takeApart n).size = f.size := by
  rw [takeApart, size_modify, (foldl_setParent_none _ f).1]

theorem data_takeApart (f : Forest) (n m : NodeId) : (f.takeApart n).data m = f.data m := by
  have hmodify (g : Forest) : (g.modify n fun c =>
      { c with children := [], attributes := [], listeners := [] }).data m = g.data m := by
    simp only [data, cell_modify]
    split_ifs with hm
    · exact congrArg (fun k => (cell g k).data) hm.1.symm
    · rfl
  exact (hmodify _).trans ((foldl_setParent_none _ f).2 m).2.1

end LiveMarkup.Forest
