import LiveMarkup.Proofs.Forest.Lasting
import LiveMarkup.Proofs.Forest.Redrawn
import LiveMarkup.Proofs.Run.Clones

/-!
# Work outside a set of nodes

`Forest.Outside S f g` says that `g` comes from `f` by operations on nodes that are not in `S`,
writes of their data, changes of their listeners, and by planting new nodes: this is all that is
ever done to a forest.  If no other node leads to one of `S`, such work leaves the nodes of `S` as
they are (`Outside.avoids`).

To clear a container and to save what it shows is such work, as long as the container is not in `S`.
Once the screen of a container has been saved, no other node leads to the fragment or to what the
container showed (`Saves.sealed_shown`).
-/

namespace LiveMarkup.Forest

variable {S : Set NodeId} {f g h : Forest} {c m n p v : NodeId}

/-- Work on other nodes than those in `S`. -/
inductive Outside (S : Set NodeId) : Forest → Forest → Prop
  | refl (f : Forest) : Outside S f f
  | perform {f : Forest} (op : Operation) : (∀ m ∈ op.operands, f.Open S m) →
    Outside S f (op.perform f)
  | setData {f : Forest} {m : NodeId} (s : String) : f.Open S m → Outside S f (f.setData m s).2
  | setValue {f : Forest} {m : NodeId} (s : String) : f.Open S m → Outside S f (f.setValue m s).2
  | modifyListeners {f : Forest} {m : NodeId} (change : List Listener → List Listener) :
    f.Open S m → Outside S f (f.modify m fun c => { c with listeners := change c.listeners })
  | plant (f : Forest) {t : Tree} : t.Named → Outside S f (f.plant t).2
  | plantFragment (f : Forest) {ts : List Tree} : Tree.NamedAll ts →
    Outside S f (f.plantFragment ts).2
  | trans {f g h : Forest} : Outside S f g → Outside S g h → Outside S f h

namespace Outside

/-- Work on other nodes leaves sealed nodes alone. -/
theorem avoids (hfg : Outside S f g) (hf : f.Sealed S) : Avoids S f g := by
  induction hfg with
  | refl => exact hf.refl
  | perform op hop => exact .perform hf op hop
  | setData s hm => exact .setData hf hm.not_mem s
  | setValue s hm => exact .setValue hf hm.not_mem s
  | modifyListeners change hm => exact .modify_listeners hf hm.not_mem change
  | plant f _ => exact (Avoids.plant hf _).1
  | plantFragment f _ => exact (Avoids.plantFragment hf _).1
  | trans _ _ ih ih' => exact (ih hf).trans (ih' (ih hf).seals)

theorem sound (hfg : Outside S f g) (hf : f.Sound) : g.Sound := by
  induction hfg with
  | refl => exact hf
  | perform op hop => exact hf.perform op fun m hm => (hop m hm).lt
  | setData s _ => exact hf.setData _ s
  | setValue s _ => exact hf.setValue _ s
  | modifyListeners change _ => exact hf.modify_listeners change _
  | plant f ht => exact hf.plant _ ht
  | plantFragment f hts => exact hf.plantFragment hts
  | trans _ _ ih ih' => exact ih' (ih hf)

/-- All nodes last, and keep their kind. -/
theorem lasts (hfg : Outside S f g) (hf : f.Sound) : Lasts (fun _ => False) f g := by
  induction hfg with
  | refl f => exact .refl f
  | perform op _ => exact .perform hf op
  | setData s _ => exact .of_changes (.setData .refl (fun _ => id) s)
  | setValue s _ => exact .of_changes (.setValue .refl (fun _ => id) s)
  | modifyListeners change _ => exact .modify_listeners _ _ change
  | plant f _ => exact .of_changes (.plant .refl _)
  | plantFragment f _ => exact .of_changes (.plantFragment .refl _)
  | trans hfg _ ih ih' => exact (ih hf).trans (ih' (hfg.sound hf))

end Outside

/-! ### Clearing a container -/

/-- A container is emptied and given a class; the next free number is that of the comment which it
gets then. -/
def emptiedWith (f : Forest) (c : NodeId) (cls : String) : Forest :=
  ((f.takeChildren c).2.setClassName c cls).2

/-- A container is emptied and given a class, and a new comment as its only child. -/
def cleared (f : Forest) (c : NodeId) (cls : String) : Forest :=
  (((f.emptiedWith c cls).create .comment "").2.append c (f.emptiedWith c cls).size).2

/-- To clear a container is work on other nodes than those in a set that it is not in. -/
theorem Outside.cleared (hf : f.Sealed S) (hc : f.Open S c) (cls : String) :
    Outside S f (f.cleared c cls) := by
  have htake : Outside S f (f.takeChildren c).2 :=
    .perform (.takeChildren c) (List.forall_mem_singleton.2 hc)
  have hset : Outside S f (f.emptiedWith c cls) :=
    htake.trans (.perform (.setAttr c "class" cls) (List.forall_mem_singleton.2
      ((htake.avoids hf).open_mono hc)))
  have hnew : Outside S f ((f.emptiedWith c cls).create .comment "").2 :=
    hset.trans (.perform (.comment "") (List.forall_mem_nil _))
  have hcomment : ((f.emptiedWith c cls).create .comment "").2.Open S (f.emptiedWith c cls).size :=
    Avoids.open_create (hset.avoids hf).seals .comment ""
  refine hnew.trans (.perform (.append c (f.emptiedWith c cls).size) ?_)
  exact List.forall_mem_cons.2 ⟨(hnew.avoids hf).open_mono hc, List.forall_mem_singleton.2 hcomment⟩

/-! ### Saving what a container shows -/

/-- Nodes are put into a fragment one after the other. -/
theorem Outside.appendAll (hf : f.Sealed S) (hp : f.Open S p) {ns : List NodeId}
    (hns : ∀ n ∈ ns, f.Open S n) : Outside S f (Page.appendAll f p ns) := by
  induction ns generalizing f with
  | nil => exact .refl f
  | cons n ns ih =>
    obtain ⟨hn, hrest⟩ := List.forall_mem_cons.1 hns
    have hfirst : Outside S f (f.append p n).2 :=
      .perform (.append p n) (List.forall_mem_cons.2 ⟨hp, List.forall_mem_singleton.2 hn⟩)
    have havoids := hfirst.avoids hf
    exact hfirst.trans (ih havoids.seals (havoids.open_mono hp) (havoids.all_mono hrest))

/-- To save what a container shows is work on other nodes than those in a set that it is not in. -/
theorem Outside.save {page : Page} (hf : page.forest.Sealed S) {mount : Mount}
    (hc : page.forest.Open S mount.container) :
    Outside S page.forest (page.save mount).2.forest := by
  have hnew : Outside S page.forest (page.forest.create .fragment "").2 :=
    .perform .fragment (List.forall_mem_nil _)
  have htake := hnew.trans (.perform (.takeChildren mount.container)
    (List.forall_mem_singleton.2 ((hnew.avoids hf).open_mono hc)))
  have hfragment := Avoids.open_create hf .fragment ""
  refine htake.trans (.appendAll (htake.avoids hf).seals (hfragment.mono ?_) fun n hn => ?_)
  · exact Nat.le_of_eq size_takeChildren.symm
  · have hn : n ∈ (page.forest.create .fragment "").2.children mount.container := hn
    rw [children_create] at hn
    exact (htake.avoids hf).open_mono (hf.child hc.not_mem hn)

/-- What lies inside the children of a node. -/
def shown (f : Forest) (c : NodeId) : Set NodeId := {n | ∃ x ∈ f.children c, f.Inside x n}

theorem inside_iff_above (hn : ¬ (f.kind n).isAttr = true) : f.Inside m n ↔ f.Above m n := by
  refine ⟨fun h => h.resolve_right ?_, Or.inl⟩
  rintro ⟨e, ho, -⟩
  exact hn (isAttr_of_owner ho)

section Shown

variable (hf : f.Sound)

include hf

theorem mem_shown_of_parent_eq (hn : f.parent n = some c) : n ∈ f.shown c :=
  ⟨n, hf.mem_children_iff.2 hn, .refl n⟩

theorem lt_size_of_mem_shown (hn : n ∈ f.shown c) : n < f.size := by
  obtain ⟨x, hx, habove | ⟨e, ho, -⟩⟩ := hn
  · rcases habove.cases with rfl | ⟨p, hp, -⟩
    · exact lt_size_of_parent (hf.mem_children_iff.1 hx)
    · exact lt_size_of_parent hp
  · exact lt_size_of_owner ho

/-- A child of another node is shown if that node is. -/
theorem mem_shown_iff_of_parent (hn : f.parent n = some p) (hp : p ≠ c) :
    n ∈ f.shown c ↔ p ∈ f.shown c := by
  refine exists_congr fun x => and_congr_right fun hx => ?_
  have hkind : ¬ (f.kind p).isAttr = true := by
    have hholds := hf.holdsChildren_of_parent hn
    cases hk : f.kind p <;> simp_all [Kind.holdsChildren, Kind.isAttr]
  rw [inside_iff_above (not_isAttr_of_parent hn), inside_iff_above hkind]
  refine ⟨fun h => ?_, fun h => h.trans (.of_parent hn)⟩
  rcases h.cases with rfl | ⟨q, hq, habove⟩
  · rw [hf.mem_children_iff, hn] at hx
    exact absurd (Option.some.inj hx) hp
  · obtain rfl : q = p := Option.some.inj (hq.symm.trans hn)
    exact habove

/-- An attribute node is shown if its owner is. -/
theorem mem_shown_iff_of_owner (hn : f.owner n = some p) : n ∈ f.shown c ↔ p ∈ f.shown c := by
  refine exists_congr fun x => and_congr_right fun hx => ?_
  have hkind : ¬ (f.kind p).isAttr = true := by
    have helement := hf.isElement_of_owner hn
    cases hk : f.kind p <;> simp_all [Kind.isElement, Kind.isAttr]
  rw [inside_iff_above hkind]
  refine ⟨fun h => ?_, fun h => Or.inr ⟨p, hn, h⟩⟩
  have habove := h.above (not_isAttr_of_parent (hf.mem_children_iff.1 hx))
  rwa [hn] at habove

/-- What holds a node that is shown is the node that shows it, or is shown as well. -/
theorem cases_of_mem_shown (hn : n ∈ f.shown c) :
    (∃ p, f.parent n = some p ∧ (p = c ∨ p ≠ c ∧ p ∈ f.shown c)) ∨
      ∃ e, f.owner n = some e ∧ e ∈ f.shown c := by
  obtain ⟨x, hx, habove | ⟨e, ho, habove⟩⟩ := id hn
  · left
    rcases habove.cases with rfl | ⟨p, hp, -⟩
    · exact ⟨c, hf.mem_children_iff.1 hx, Or.inl rfl⟩
    · by_cases hpc : p = c
      · exact ⟨p, hp, Or.inl hpc⟩
      · exact ⟨p, hp, Or.inr ⟨hpc, (mem_shown_iff_of_parent hf hp hpc).1 hn⟩⟩
  · exact Or.inr ⟨e, ho, (mem_shown_iff_of_owner hf ho).1 hn⟩

/-- No node is among those it shows. -/
theorem not_mem_shown : c ∉ f.shown c := by
  rintro ⟨x, hx, habove | ⟨e, ho, -⟩⟩
  · exact hf.not_above_of_parent (hf.mem_children_iff.1 hx) habove
  · have hholds := hf.holdsChildren_of_parent (hf.mem_children_iff.1 hx)
    have hattr := isAttr_of_owner ho
    cases hk : f.kind c <;> simp_all [Kind.holdsChildren, Kind.isAttr]

end Shown

namespace Saves

theorem kind_fragment (hs : Saves f g c) : g.kind f.size = .fragment := by
  rw [hs.kind_eq, if_pos rfl]

theorem children_fragment (hs : Saves f g c) : g.children f.size = f.children c := by
  rw [hs.children_eq, if_pos rfl]

theorem lt_size (hs : Saves f g c) : f.size < g.size := by
  rw [hs.size_eq]
  exact Nat.lt_succ_self _

/-- Only the nodes that were saved have another parent. -/
theorem parent_eq (hf : f.Sound) (hs : Saves f g c) (n : NodeId) :
    g.parent n = if f.parent n = some c then some f.size else f.parent n := by
  refine Option.ext fun q => ?_
  rw [← hs.sound.mem_children_iff, hs.children_eq]
  by_cases hn : f.parent n = some c
  · rw [if_pos hn]
    split_ifs with hq hqc
    · rw [hq]
      exact iff_of_true (hf.mem_children_iff.2 hn) rfl
    · exact iff_of_false List.not_mem_nil fun h => hq (Option.some.inj h).symm
    · rw [hf.mem_children_iff, hn]
      exact iff_of_false (fun h => hqc (Option.some.inj h).symm)
        fun h => hq (Option.some.inj h).symm
  · rw [if_neg hn]
    split_ifs with hq hqc
    · rw [hq]
      exact iff_of_false (hn ∘ hf.mem_children_iff.1) fun h => (hf.lt_size_of_child h).ne rfl
    · rw [hqc]
      exact iff_of_false List.not_mem_nil hn
    · exact hf.mem_children_iff

/-- Attribute nodes keep their owner. -/
theorem owner_eq (hf : f.Sound) (hs : Saves f g c) (n : NodeId) : g.owner n = f.owner n := by
  refine Option.ext fun e => ?_
  rw [← hs.sound.mem_attributes_iff, hs.attributes_eq, hf.mem_attributes_iff]

/-- A node that was saved, or that lies inside one, is linked to no other nodes than these and the
fragment. -/
theorem mem_iff_of_link (hf : f.Sound) (hs : Saves f g c) (h : g.link n = some p) :
    n ∈ insert f.size (f.shown c) ↔ p ∈ insert f.size (f.shown c) := by
  simp only [Set.mem_insert_iff]
  by_cases hn : (g.kind n).isAttr = true
  · have ho : f.owner n = some p := by rw [← hs.owner_eq hf, owner_eq_link, if_pos hn, h]
    have hp : p < f.size := lt_size_of_isElement (hf.isElement_of_owner ho)
    rw [or_iff_right (lt_size_of_owner ho).ne, or_iff_right hp.ne, mem_shown_iff_of_owner hf ho]
  · have hparent : g.parent n = some p := by rw [parent_eq_link, if_neg hn, h]
    rw [hs.parent_eq hf] at hparent
    split_ifs at hparent with hc
    · obtain rfl := Option.some.inj hparent
      exact iff_of_true (Or.inr (mem_shown_of_parent_eq hf hc)) (Or.inl rfl)
    · have hp : p ≠ c := fun heq => hc (heq ▸ hparent)
      rw [or_iff_right (lt_size_of_parent hparent).ne,
        or_iff_right (hf.lt_size_of_child hparent).ne, mem_shown_iff_of_parent hf hparent hp]

/-- Nothing else leads to the fragment and to what was saved. -/
theorem sealed_shown (hf : f.Sound) (hs : Saves f g c) :
    g.Sealed (insert f.size (f.shown c)) where
  lt {n} hn := by
    rcases hn with rfl | hn
    · exact hs.lt_size
    · exact (lt_size_of_mem_shown hf hn).trans hs.lt_size
  links {n} hn := by
    have hlt {m p : NodeId} (h : g.link m = some p) : m < g.size ∧ p < g.size :=
      hs.sound.lt_size_of_link h
    exact hs.sound.linksTo (fun p hp => ⟨(hlt hp).2, (hs.mem_iff_of_link hf hp).not.1 hn⟩)
      fun m hm => ⟨(hlt hm).1, (hs.mem_iff_of_link hf hm).not.2 hn⟩

/-- The container is not one of these nodes. -/
theorem open_container (hf : f.Sound) (hs : Saves f g c) (hc : c < f.size) :
    g.Open (insert f.size (f.shown c)) c :=
  ⟨hc.trans hs.lt_size, fun hin => hin.elim hc.ne (not_mem_shown hf)⟩

end Saves

end LiveMarkup.Forest
