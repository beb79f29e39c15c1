import LiveMarkup.Proofs.Forest.Planting
import LiveMarkup.Run.Release

/-!
# Forests with a history

Every forest that comes about by operations on nodes, in any order and whether or not each of them
is refused, is well formed (`wellFormed_performAll`): the two sides of every link agree, walks along
parents come to an end, and only elements and fragments have children.

The invariant behind it is `Forest.Sound`.  It holds of the forest without nodes, every operation
keeps it (`Sound.perform`), and it survives the release of nodes, which cuts the links to what they
held.
-/

namespace LiveMarkup.Forest

variable {f g : Forest} {a m n p : NodeId}

namespace Sound

theorem empty : Forest.empty.Sound := by
  have hl : ∀ n, Forest.empty.link n = none := fun n => link_of_size_le (Nat.zero_le n)
  have hp : ∀ n, Forest.empty.parent n = none := fun n => by rw [parent_eq_link, hl, ite_self]
  have ho : ∀ n, Forest.empty.owner n = none := fun n => by rw [owner_eq_link, hl, ite_self]
  have hc : ∀ n, Forest.empty.children n = [] := fun n => children_of_size_le (Nat.zero_le n)
  have ha : ∀ n, Forest.empty.attributes n = [] := fun n => attributes_of_size_le (Nat.zero_le n)
  refine ⟨⟨by simp [hp, hc], by simp [hc], ⟨fun n => ⟨n, by simp [hp]⟩⟩, by simp [hp],
    by simp [hp]⟩,
    ⟨by simp [ho, ha], by simp [ha], by simp [ho], by simp [ho], fun n => ?_⟩⟩
  rw [kind_of_size_le (Nat.zero_le n)]
  exact isSmall_empty

/-! ### Joining texts -/

theorem detach_text (hf : f.Sound) (hn : f.kind n = .text) : (f.detach n).Sound :=
  hf.detach (owner_of_not_isAttr (by simp [hn, Kind.isAttr]))

theorem absorb (hf : f.Sound) (n : NodeId) (rest : List NodeId) :
    (f.absorb n rest).2.Sound ∧ ∀ m, (f.absorb n rest).2.kind m = f.kind m := by
  induction rest generalizing f with
  | nil => exact ⟨hf, fun _ => rfl⟩
  | cons m rest ih =>
    rw [Forest.absorb]
    split_ifs with hm
    · have hs := (hf.writeData n (· ++ f.data m)).detach_text (n := m) (by simpa using hm)
      exact ⟨(ih hs).1, fun k => by simpa using (ih hs).2 k⟩
    · exact ⟨hf, fun _ => rfl⟩

theorem joinSiblings {deeper : Forest → NodeId → Forest}
    (hdeeper : ∀ {f : Forest}, f.Sound → ∀ n, (deeper f n).Sound) (hf : f.Sound)
    (ns : List NodeId) : (joinSiblings deeper f ns).Sound := by
  fun_induction Forest.joinSiblings deeper f ns with
  | case1 => exact hf
  | case2 f n ns hn joined ih =>
    obtain ⟨hs, hk⟩ := hf.absorb n ns
    refine ih ?_
    split_ifs
    · exact hs.detach_text (by rw [hk, hn])
    · exact hs
  | case3 f n ns _ ih => exact ih (hdeeper hf n)

theorem normalize (hf : f.Sound) (n : NodeId) : (f.normalize n).Sound := by
  unfold Forest.normalize
  generalize f.size + 1 = fuel
  induction fuel generalizing f n with
  | zero => exact hf
  | succ fuel ih => exact hf.joinSiblings (fun hf n => ih hf n) (f.children n)

/-! ### Data -/

theorem setData (hf : f.Sound) (n : NodeId) (s : String) : (f.setData n s).2.Sound := by
  unfold Forest.setData
  split
  case h_4 => exact hf
  all_goals exact hf.writeData n fun _ => s

theorem setValue (hf : f.Sound) (n : NodeId) (s : String) : (f.setValue n s).2.Sound := by
  unfold Forest.setValue
  split_ifs
  · exact hf.setData n s
  · exact hf

/-! ### Release -/

/-- Emptying the lists of a node. -/
theorem views_modify_empty (f : Forest) (n m : NodeId) :
    let g := f.modify n fun c => { c with children := [], attributes := [], listeners := [] }
    g.kind m = f.kind m ∧ g.children m = (if m = n then [] else f.children m) ∧
      g.attributes m = (if m = n then [] else f.attributes m) ∧ g.link m = f.link m := by
  simp only [kind, children, attributes, link, cell_modify]
  by_cases hm : m = n
  · subst hm
    by_cases hs : m < f.size
    · simp [hs]
    · simp [hs, cell_of_size_le (Nat.le_of_not_lt hs), Cell.detached]
  · simp [hm]

/-- A node that is taken apart loses its lists, and what was in them loses its link. -/
theorem views_takeApart (f : Forest) (n m : NodeId) :
    (f.takeApart n).kind m = f.kind m ∧
      (f.takeApart n).children m = (if m = n then [] else f.children m) ∧
      (f.takeApart n).attributes m = (if m = n then [] else f.attributes m) ∧
      (f.takeApart n).link m =
        if m ∈ f.children n ++ f.attributes n then none else f.link m := by
  obtain ⟨hk, -, hc, ha, hl⟩ :=
    (foldl_setParent_none (f.children n ++ f.attributes n) f).2 m
  rw [← hk, ← hc, ← ha, ← hl]
  exact views_modify_empty _ n m

theorem parent_takeApart (hf : f.Sound) :
    (f.takeApart n).parent m = if f.parent m = some n then none else f.parent m := by
  obtain ⟨hk, -, -, hl⟩ := views_takeApart f n m
  rw [parent_eq_link, hk, hl]
  simp only [List.mem_append, hf.mem_children_iff]
  by_cases ha : (f.kind m).isAttr = true
  · rw [if_pos ha, parent_of_isAttr ha, ite_self]
  · have hna : m ∉ f.attributes n := fun h => ha (hf.isAttr_of_mem_attributes h)
    have hlink : f.parent m = f.link m := by rw [parent_eq_link, if_neg ha]
    simp [ha, hna, hlink]

theorem owner_takeApart (hf : f.Sound) :
    (f.takeApart n).owner m = if f.owner m = some n then none else f.owner m := by
  obtain ⟨hk, -, -, hl⟩ := views_takeApart f n m
  rw [owner_eq_link, hk, hl]
  simp only [List.mem_append, hf.mem_attributes_iff]
  by_cases ha : (f.kind m).isAttr = true
  · have hnc : m ∉ f.children n := fun h => not_isAttr_of_parent (hf.mem_children_iff.1 h) ha
    have hlink : f.owner m = f.link m := by rw [owner_eq_link, if_pos ha]
    simp [ha, hnc, hlink]
  · rw [if_neg ha, owner_of_not_isAttr ha, ite_self]

theorem takeApart (hf : f.Sound) (n : NodeId) : (f.takeApart n).Sound where
  toSoundChildren := hf.toSoundChildren.emptied (fun m => (views_takeApart f n m).1)
    (fun _ => hf.parent_takeApart) (fun m => (views_takeApart f n m).2.1)
  toSoundAttributes := hf.toSoundAttributes.emptied (fun m => (views_takeApart f n m).1)
    (fun _ => hf.owner_takeApart) (fun m => (views_takeApart f n m).2.2.1)

/-! ### Walks end -/

theorem length_lineage_le (f : Forest) (fuel : ℕ) (n : NodeId) :
    (f.lineage fuel n).length ≤ fuel := by
  induction fuel generalizing n with
  | zero => exact le_rfl
  | succ fuel ih =>
    rw [lineage]
    cases f.parent n with
    | none => exact Nat.succ_le_succ fuel.zero_le
    | some p => exact Nat.succ_le_succ (ih p)

/-- A walk that has come to a node without a parent goes no further. -/
theorem lineage_of_top {fuel fuel' : ℕ} (ht : ∃ top ∈ f.lineage fuel n, f.parent top = none)
    (hle : (f.lineage fuel n).length ≤ fuel') : f.lineage fuel' n = f.lineage fuel n := by
  induction fuel generalizing fuel' n with
  | zero =>
    obtain ⟨top, hm, -⟩ := ht
    cases hm
  | succ fuel ih =>
    obtain ⟨top, hm, htop⟩ := ht
    cases fuel' with
    | zero => cases hle
    | succ fuel' =>
      rw [lineage] at hm hle ⊢
      rw [lineage]
      cases hp : f.parent n with
      | none => rfl
      | some p =>
        rw [hp] at hm hle
        have hup : ∃ top ∈ f.lineage fuel p, f.parent top = none := by
          rcases List.mem_cons.1 hm with rfl | hm
          · rw [hp] at htop
            cases htop
          · exact ⟨top, hm, htop⟩
        exact congrArg _ (ih hup (Nat.le_of_succ_le_succ hle))

theorem lineage_of_le {fuel fuel' : ℕ} (ht : ∃ top ∈ f.lineage fuel n, f.parent top = none)
    (hle : fuel ≤ fuel') : f.lineage fuel' n = f.lineage fuel n :=
  lineage_of_top ht ((length_lineage_le f fuel n).trans hle)

theorem indicesTo_of_le {root : NodeId} {fuel fuel' : ℕ} {rest : List ℕ}
    (ht : ∃ top ∈ f.lineage fuel n, f.parent top = none) (hle : fuel ≤ fuel') :
    f.indicesTo root fuel' n rest = f.indicesTo root fuel n rest := by
  induction fuel generalizing n fuel' rest with
  | zero =>
    obtain ⟨top, hm, -⟩ := ht
    cases hm
  | succ fuel ih =>
    obtain ⟨fuel', rfl⟩ := Nat.exists_eq_add_of_lt (Nat.lt_of_succ_le hle)
    rw [indicesTo, indicesTo]
    rcases hp : f.parent n with _ | p
    · rfl
    · rw [lineage, hp] at ht
      obtain ⟨top, hm, htop⟩ := ht
      rcases List.mem_cons.1 hm with rfl | hm
      · rw [hp] at htop
        cases htop
      · rcases f.indexInParent n with _ | i
        · rfl
        · simp only
          rw [ih ⟨top, hm, htop⟩ (by omega)]

end Sound

/-! ### Histories -/

/-- The operations on nodes, which are spoken of by number. -/
inductive Operation where
  | element (tag : String)
  | text (data : String)
  | comment (data : String)
  | fragment
  | attr (name value : String)
  | append (p n : NodeId)
  | insertBefore (p n : NodeId) (reference : Option NodeId)
  | removeChild (p n : NodeId)
  | remove (n : NodeId)
  | replaceWith (n : NodeId) (ns : List NodeId)
  | takeChildren (n : NodeId)
  | clone (n : NodeId) (deep : Bool)
  | normalize (n : NodeId)
  | setAttr (n : NodeId) (name value : String)
  | setAttrNode (n a : NodeId)
  | removeAttr (n : NodeId) (name : String)
  | removeAttrNode (n a : NodeId)
  /-- Nothing holds the node any more. -/
  | release (n : NodeId)

namespace Operation

/-- The nodes that an operation is applied to. -/
def operands : Operation → List NodeId
  | element _ | text _ | comment _ | fragment | attr _ _ => []
  | append p n | removeChild p n => [p, n]
  | insertBefore p n reference => p :: n :: reference.toList
  | replaceWith n ns => n :: ns
  | remove n | takeChildren n | clone n _ | normalize n | release n => [n]
  | setAttr n _ _ | removeAttr n _ => [n]
  | setAttrNode n a | removeAttrNode n a => [n, a]

/-- The forest after an operation, whether it succeeds or is refused. -/
def perform (f : Forest) : Operation → Forest
  | element tag => (f.create (.element tag.toLower) "").2
  | text data => (f.create .text data).2
  | comment data => (f.create .comment data).2
  | fragment => (f.create .fragment "").2
  | attr name value => (f.create (.attr name.toLower) value).2
  | append p n => (f.append p n).2
  | insertBefore p n reference => (f.insertBefore p n reference).2
  | removeChild p n => (f.removeChild p n).2
  | remove n => f.remove n
  | replaceWith n ns => (f.replaceWith n ns).2
  | takeChildren n => (f.takeChildren n).2
  | clone n deep => (f.copy n deep).2
  | normalize n => f.normalize n
  | setAttr n name value => (f.setAttr n name value).2
  | setAttrNode n a => (f.setAttrNode n a).2
  | removeAttr n name => (f.removeAttr n name).2
  | removeAttrNode n a => (f.removeAttrNode n a).2
  | release n => f.takeApart n

end Operation

/-- Whether each operation of a sequence is applied to nodes that are there. -/
def admits (f : Forest) : List Operation → Bool
  | [] => true
  | op :: ops => op.operands.all (· < f.size) && (op.perform f).admits ops

/-- The forest after a sequence of operations. -/
def performAll (f : Forest) (ops : List Operation) : Forest := ops.foldl Operation.perform f

/-- Every operation on nodes that are there keeps a forest sound. -/
theorem Sound.perform (hf : f.Sound) (op : Operation) (hop : ∀ n ∈ op.operands, n < f.size) :
    (op.perform f).Sound := by
  cases op with
  | element _ | text _ | comment _ | fragment => exact hf.create _ _ isSmall_empty
  | attr name value => exact hf.create _ _ (isSmall_toLower name)
  | append p n => exact hf.insertBefore (hop n (by simp [Operation.operands])) p none
  | insertBefore p n reference =>
    exact hf.insertBefore (hop n (by simp [Operation.operands])) p reference
  | removeChild p n => exact hf.removeChild p n
  | remove n => exact hf.remove n
  | replaceWith n ns =>
    exact hf.replaceWith n fun m hm => hop m (List.mem_cons_of_mem _ hm)
  | takeChildren n => exact hf.takeChildren n
  | clone n deep => exact hf.copy n deep
  | normalize n => exact hf.normalize n
  | setAttr n name value => exact hf.setAttr n name value
  | setAttrNode n a => exact hf.setAttrNode n a
  | removeAttr n name => exact hf.removeAttr n name
  | removeAttrNode n a => exact hf.removeAttrNode n a
  | release n => exact hf.takeApart n

theorem Sound.performAll (hf : f.Sound) {ops : List Operation} (hops : f.admits ops = true) :
    (f.performAll ops).Sound := by
  induction ops generalizing f with
  | nil => exact hf
  | cons op ops ih =>
    obtain ⟨hop, hops⟩ := Bool.and_eq_true_iff.1 hops
    exact ih (hf.perform op (by simpa using hop)) hops

/-- What holds of the nodes of a forest at every time. -/
structure WellFormed (f : Forest) : Prop where
  /-- A node is in the list of children of its parent, once, and in no other. -/
  count_children (p n : NodeId) : (f.children p).count n = if f.parent n = some p then 1 else 0
  /-- Parents never lead back. -/
  acyclic (n : NodeId) : ¬ Relation.TransGen (fun m p => f.parent m = some p) n n
  /-- The walk to the ancestors comes to a node without a parent, and then it ends. -/
  walk_ends (n : NodeId) : (∃ top ∈ f.ancestors n, f.parent top = none) ∧
    ∀ fuel > f.size, f.lineage fuel n = f.ancestors n
  /-- A node contains the nodes from which parents lead to it. -/
  contains_iff (n m : NodeId) :
    f.contains n m = true ↔ Relation.ReflTransGen (fun m p => f.parent m = some p) m n
  /-- The walk that finds a path ends as well. -/
  path_ends (root n : NodeId) (rest : List ℕ) :
    ∀ fuel > f.size, f.indicesTo root fuel n rest = f.indicesTo root (f.size + 1) n rest
  /-- Only elements and fragments have children, and these are neither attribute nodes nor
  fragments. -/
  kinds {p n : NodeId} : n ∈ f.children p →
    ((∃ tag, f.kind p = .element tag) ∨ f.kind p = .fragment) ∧
      (∀ name, f.kind n ≠ .attr name) ∧ f.kind n ≠ .fragment
  /-- An attribute node is in the list of attributes of its owner, once, and in no other. -/
  count_attributes (e a : NodeId) : (f.attributes e).count a = if f.owner a = some e then 1 else 0
  /-- No element has two attributes of one name, in whatever letters it is written. -/
  names_differ {e a b : NodeId} : a ∈ f.attributes e → b ∈ f.attributes e →
    (f.kind a).attrName.toLower = (f.kind b).attrName.toLower → a = b

theorem count_of_nodup {l : List NodeId} {q : Prop} [Decidable q] (hd : l.Nodup) (hq : n ∈ l ↔ q) :
    l.count n = if q then 1 else 0 := by
  split_ifs with h
  · exact List.count_eq_one_of_mem hd (hq.2 h)
  · exact List.count_eq_zero.2 fun hn => h (hq.1 hn)

theorem Sound.wellFormed (hf : f.Sound) : f.WellFormed := by
  refine ⟨fun p n => count_of_nodup (hf.nodup_children p) hf.mem_children_iff, fun n hn => ?_,
    fun n => ⟨hf.exists_top n, fun fuel hfuel => Sound.lineage_of_le (hf.exists_top n) hfuel⟩,
    fun n m => ?_, fun root n rest fuel hfuel => Sound.indicesTo_of_le (hf.exists_top n) hfuel,
    fun {p n} hn => ?_, fun e a => count_of_nodup (hf.nodup_attributes e) hf.mem_attributes_iff,
    fun {e a b} ha hb hab => ?_⟩
  · exact hf.acyclic n (Relation.transGen_swap.1 hn)
  · rw [hf.contains_iff]
    exact Relation.reflTransGen_swap.symm
  · have hp := hf.mem_children_iff.1 hn
    have hkp := hf.holdsChildren_of_parent hp
    have hkn := not_isAttr_of_parent hp
    refine ⟨?_, fun name hname => hkn (by rw [hname]; rfl), hf.ne_fragment_of_parent hp⟩
    cases hk : f.kind p <;> simp_all [Kind.holdsChildren]
  · rw [hf.isSmall_attrName a, hf.isSmall_attrName b] at hab
    exact hf.eq_of_attrName_eq (hf.mem_attributes_iff.1 ha) (hf.mem_attributes_iff.1 hb) hab

/-- Every forest that comes about by a sequence of operations on nodes is well formed, whichever of
them are refused. -/
theorem wellFormed_performAll {ops : List Operation} (hops : Forest.empty.admits ops = true) :
    (Forest.empty.performAll ops).WellFormed :=
  (Sound.empty.performAll hops).wellFormed

/-- A list item with an attribute is put into a list, and the list not into its item; the item is
copied and replaced by text, and then nothing holds it any more. -/
def shortHistory : List Operation :=
  [.element "UL", .element "li", .attr "Class" "a", .append 0 1, .setAttrNode 1 2, .append 1 0,
    .text "b", .clone 1 true, .replaceWith 1 [3, 4], .normalize 0, .release 1]

theorem wellFormed_shortHistory :
    Forest.empty.admits shortHistory = true ∧ (Forest.empty.performAll shortHistory).WellFormed :=
  have hops : Forest.empty.admits shortHistory = true := by decide +kernel
  ⟨hops, wellFormed_performAll hops⟩

end LiveMarkup.Forest
