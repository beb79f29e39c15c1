import Mathlib.Data.List.Find
import LiveMarkup.Proofs.Forest.Planting
import LiveMarkup.Screen.Placement

/-!
# What edits leave alone

Whether it succeeds or is refused half-way, an insertion moves only the nodes that it was asked to
move; every other node keeps what it is, its data, its attributes and its parent (`Forest.Spares`).
A value that is placed at a comment moves the comment only if it succeeds.  Setting an attribute
moves no node and changes no other attribute (`Forest.Sets`).
-/

namespace LiveMarkup.Forest

variable {f g h : Forest} {a m n p v : NodeId} {ms ns : List NodeId}

/-- All nodes of `f` are in `g` as they were, up to their children and listeners.  Only the nodes in
`ns`, and the children of the fragments in `ns`, may have another parent. -/
structure Spares (f g : Forest) (ns : List NodeId) : Prop where
  size_le : f.size ≤ g.size
  kind_eq {m : NodeId} : m < f.size → g.kind m = f.kind m
  data_eq {m : NodeId} : m < f.size → g.data m = f.data m
  attributes_eq {m : NodeId} : m < f.size → g.attributes m = f.attributes m
  parent_eq {m : NodeId} : m < f.size → m ∉ ns →
    (∀ v ∈ ns, f.kind v = .fragment → f.parent m ≠ some v) → g.parent m = f.parent m

namespace Spares

theorem refl (f : Forest) (ns : List NodeId) : Spares f f ns :=
  ⟨le_rfl, fun _ => rfl, fun _ => rfl, fun _ => rfl, fun _ _ _ => rfl⟩

theorem mono (hs : Spares f g ns) (hsub : ns ⊆ ms) : Spares f g ms :=
  ⟨hs.size_le, hs.kind_eq, hs.data_eq, hs.attributes_eq, fun hm hout hfr =>
    hs.parent_eq hm (fun hin => hout (hsub hin)) fun v hv => hfr v (hsub hv)⟩

/-- Nodes that were not there at first do not count among those that have moved. -/
theorem trans (hf : f.Sound) (hfg : Spares f g ns) (hgh : Spares g h ms)
    (hms : ∀ m ∈ ms, m ∈ ns ∨ f.size ≤ m) : Spares f h ns := by
  have hle {m : NodeId} (hm : m < f.size) : m < g.size := hm.trans_le hfg.size_le
  refine ⟨hfg.size_le.trans hgh.size_le, fun hm => (hgh.kind_eq (hle hm)).trans (hfg.kind_eq hm),
    fun hm => (hgh.data_eq (hle hm)).trans (hfg.data_eq hm),
    fun hm => (hgh.attributes_eq (hle hm)).trans (hfg.attributes_eq hm), fun {m} hm hout hfr => ?_⟩
  have hkept := hfg.parent_eq hm hout hfr
  refine (hgh.parent_eq (hle hm) (fun hin => ?_) fun v hv hkind hparent => ?_).trans hkept
  · rcases hms m hin with hin | hnew
    · exact hout hin
    · exact absurd hm (Nat.not_lt.2 hnew)
  · rw [hkept] at hparent
    have hvs : v < f.size := hf.lt_size_of_child hparent
    rcases hms v hv with hv | hnew
    · exact hfr v hv ((hfg.kind_eq hvs).symm.trans hkind) hparent
    · exact absurd hvs (Nat.not_lt.2 hnew)

theorem create (f : Forest) (k : Kind) (s : String) : Spares f (f.create k s).2 [] := by
  refine ⟨by simp, fun hm => ?_, fun hm => ?_, fun _ => by simp, fun _ _ _ => parent_create k s⟩
  · rw [kind_create, if_neg hm.ne]
  · rw [data_create, if_neg hm.ne]

theorem detach (f : Forest) (n : NodeId) : Spares f (f.detach n) [n] := by
  refine ⟨by simp, by simp, by simp, by simp, fun {m} _ hout _ => ?_⟩
  rw [parent_detach, if_neg (by simpa using hout)]

theorem takeChildren (hf : f.Sound) (hn : f.kind n = .fragment) :
    Spares f (f.takeChildren n).2 [n] := by
  refine ⟨by simp, by simp, by simp, by simp, fun {m} _ _ hfr => ?_⟩
  rw [hf.parent_takeChildren_eq, if_neg (hfr n List.mem_cons_self hn)]

end Spares

/-! ### Insertion and replacement -/

/-- Putting nodes among the children of `p` gives no other node another parent. -/
theorem parent_insertAllAt (i : ℕ) (hm : m ∉ ns) :
    (f.insertAllAt p i ns).parent m = f.parent m := by
  induction ns generalizing f i with
  | nil => rfl
  | cons n ns ih =>
    rw [List.mem_cons, not_or] at hm
    rw [insertAllAt, ih _ hm.2]
    refine parent_congr (by simp) ?_
    simp [insertAt, link_setParent, hm.1]

theorem insertAllAt_views (ns : List NodeId) (i : ℕ) :
    (f.insertAllAt p i ns).data m = f.data m ∧
      (f.insertAllAt p i ns).attributes m = f.attributes m := by
  induction ns generalizing f i with
  | nil => exact ⟨rfl, rfl⟩
  | cons n ns ih =>
    obtain ⟨hd, ha⟩ := ih (f := f.insertAt p i n) (i + 1)
    exact ⟨hd.trans (data_insertAt i), ha.trans (attributes_insertAt i)⟩

namespace Spares

variable (hf : f.Sound)

include hf

theorem pickUp (n : NodeId) : Spares f (f.pickUp n).2 [n] := by
  unfold Forest.pickUp
  split_ifs with hn
  · exact takeChildren hf hn
  · exact detach f n

/-- What an insertion moves is the node itself or the child of a fragment. -/
theorem not_mem_pickUp (hmn : m ≠ n) (hfr : f.kind n = .fragment → f.parent m ≠ some n) :
    m ∉ (f.pickUp n).1 := by
  unfold Forest.pickUp
  split_ifs with hn
  · exact fun hin => hfr hn (hf.mem_children_iff.1 hin)
  · simpa using hmn

theorem insertBefore (p n : NodeId) (reference : Option NodeId) :
    Spares f (f.insertBefore p n reference).2 [n] := by
  have hpick := pickUp hf n
  unfold Forest.insertBefore
  rcases f.insertFault? p n reference with _ | fault
  · simp only
    split
    · next i _ =>
      obtain ⟨hsize, hkind⟩ := insertAllAt_frame (f := (f.pickUp n).2) (p := p) (f.pickUp n).1 i
      refine ⟨hpick.size_le.trans_eq hsize.symm, fun {m} hm => (hkind m).trans (hpick.kind_eq hm),
        fun hm => ((insertAllAt_views _ i).1).trans (hpick.data_eq hm),
        fun hm => ((insertAllAt_views _ i).2).trans (hpick.attributes_eq hm),
        fun {m} hm hout hfr => ?_⟩
      have hmoved : m ∉ (f.pickUp n).1 :=
        not_mem_pickUp hf (by simpa using hout) (hfr n List.mem_cons_self)
      exact (parent_insertAllAt i hmoved).trans (hpick.parent_eq hm hout hfr)
    · exact hpick
  · exact refl f [n]

theorem insertEach (p anchor : NodeId) (hns : ∀ n ∈ ns, n < f.size) :
    Spares f (f.insertEach p anchor ns).2 ns := by
  induction ns generalizing f with
  | nil => exact refl f []
  | cons n ns ih =>
    have hrest : ∀ m ∈ ns, m < f.size := fun m hm => hns m (List.mem_cons_of_mem _ hm)
    have hsub : ∀ m ∈ ns, m ∈ n :: ns ∨ f.size ≤ m := fun m hm => Or.inl (List.mem_cons_of_mem _ hm)
    rw [Forest.insertEach]
    split_ifs
    · exact (ih hf hrest).mono (List.subset_cons_self n ns)
    · have hn : n < f.size := hns n List.mem_cons_self
      have hs := hf.insertBefore hn p (some anchor)
      have hfirst : Spares f (f.insertBefore p n (some anchor)).2 (n :: ns) :=
        (insertBefore hf p n (some anchor)).mono (by simp)
      split
      · next g heq =>
        rw [heq] at hs hfirst
        exact hfirst.trans hf (ih hs fun m hm => (hrest m hm).trans_le hfirst.size_le) hsub
      · exact hfirst

end Spares

/-- The nodes that may have moved when a value was placed at `n`: on success `n` has made way. -/
def movedBy {ε : Type} (n : NodeId) (ns : List NodeId) : Except ε Unit → List NodeId
  | .ok () => n :: ns
  | .error _ => ns

theorem mem_movedBy {ε : Type} {outcome : Except ε Unit} (hm : m ∈ movedBy n ms outcome) :
    m ∈ movedBy n ns outcome ∨ m ∈ ms := by
  rcases outcome with fault | u
  · exact Or.inr hm
  · rcases List.mem_cons.1 hm with rfl | hm
    · exact Or.inl List.mem_cons_self
    · exact Or.inr hm

theorem movedBy_subset {ε : Type} (n : NodeId) (ns : List NodeId) (outcome : Except ε Unit) :
    movedBy n ns outcome ⊆ n :: ns := by
  cases outcome with
  | ok u => exact List.Subset.refl _
  | error fault => exact List.subset_cons_self n ns

theorem Spares.replaceWith (hf : f.Sound) (n : NodeId) (hns : ∀ m ∈ ns, m < f.size) :
    Spares f (f.replaceWith n ns).2 (movedBy n ns (f.replaceWith n ns).1) := by
  unfold Forest.replaceWith
  rcases hp : f.parent n with _ | p
  · exact refl f (n :: ns)
  · have heach := insertEach hf p n hns
    rcases heq : f.insertEach p n ns with ⟨_ | u, g⟩
    · rw [heq] at heach
      simpa only [heq, movedBy] using heach
    · rw [heq] at heach
      have hlast : Spares g (if ns.contains n then g else g.detach n) [n] := by
        split_ifs
        · exact refl g [n]
        · exact detach g n
      simp only [heq]
      exact (heach.mono (List.subset_cons_self n ns)).trans hf hlast (by simp [movedBy])

/-! ### Placing at a comment -/

@[simp] theorem snd_placed {α : Type} (edit : Edit α) : (placed edit).2 = edit.2 := by
  obtain ⟨_ | _, f⟩ := edit <;> rfl

@[simp] theorem movedBy_placed (edit : Edit Unit) :
    movedBy n ns (placed edit).1 = movedBy n ns edit.1 := by
  obtain ⟨_ | _, f⟩ := edit <;> rfl

section Comment

variable (hf : f.Sound) (hn : f.kind n = .comment)

include hf hn

theorem sound_placeText (kind s : String) : (f.placeText n kind s).2.Sound := by
  have hg : (f.create .text s).2.Sound := hf.create .text s isSmall_empty
  simp only [placeText, hn, fst_create, snd_placed]
  exact hg.replaceWith n (by simp)

theorem spares_placeText (kind s : String) :
    Spares f (f.placeText n kind s).2 (movedBy n [] (f.placeText n kind s).1) := by
  have hg : (f.create .text s).2.Sound := hf.create .text s isSmall_empty
  have hnew : ∀ m ∈ [f.size], m < (f.create .text s).2.size := by simp
  simp only [placeText, hn, fst_create, snd_placed, movedBy_placed]
  refine ((Spares.create f .text s).mono (List.nil_subset _)).trans hf
    (Spares.replaceWith hg n hnew) fun m hm => ?_
  exact (mem_movedBy hm).imp_right fun hm => (List.mem_singleton.1 hm).ge

theorem spares_placeNode {v : NodeId} (hv : v < f.size) :
    (f.placeNode n v).2.Sound ∧
      Spares f (f.placeNode n v).2 (movedBy n [v] (f.placeNode n v).1) := by
  unfold placeNode
  split_ifs with hattr hel
  · simp [hn, Kind.isElement] at hel
  · exact ⟨hf, .refl f [v]⟩
  · have hvs : ∀ m ∈ [v], m < f.size := by simpa using hv
    simp only [hn, snd_placed, movedBy_placed]
    exact ⟨hf.replaceWith n hvs, .replaceWith hf n hvs⟩

end Comment

/-- Adding a slot before `anchor` moves no node. -/
theorem spares_addSlot (hf : f.Sound) (p anchor : NodeId) :
    (f.addSlot p anchor).2.2.Sound ∧ Spares f (f.addSlot p anchor).2.2 [] := by
  have hg : (f.create .comment "").2.Sound := hf.create .comment "" isSmall_empty
  simp only [addSlot, fst_create, snd_placed]
  refine ⟨hg.insertBefore (by simp) p (some anchor), (Spares.create f .comment "").trans hf
    (Spares.insertBefore hg p f.size (some anchor)) ?_⟩
  exact fun m hm => Or.inr (List.mem_singleton.1 hm).ge

/-! ### Setting an attribute -/

/-- The element `n` has the value `value` for the attribute `name`, and nothing else has changed but
that there may be a new node for it. -/
structure Sets (f g : Forest) (n : NodeId) (name value : String) : Prop where
  size_le : f.size ≤ g.size
  kind_eq {m : NodeId} : m < f.size → g.kind m = f.kind m
  link_eq {m : NodeId} : m < f.size → g.link m = f.link m
  children_eq (m : NodeId) : g.children m = f.children m
  attributes_eq {m : NodeId} : m ≠ n → g.attributes m = f.attributes m
  data_eq {m : NodeId} : m < f.size → f.attrNode n name ≠ some m → g.data m = f.data m
  attrValue_eq (other : String) : g.attrValue n other =
    if other.toLower = name.toLower then some value else f.attrValue n other

/-- Names that differ in case only stand for the same attribute node. -/
theorem attrNode_congr {name other : String} (h : other.toLower = name.toLower) :
    f.attrNode n other = f.attrNode n name := by
  rw [attrNode, attrNode, h]

/-- An attribute has a value by the attribute nodes of the element alone. -/
theorem attrValue_congr (ha : g.attributes n = f.attributes n)
    (hk : ∀ a ∈ f.attributes n, g.kind a = f.kind a)
    (hd : ∀ a ∈ f.attributes n, g.data a = f.data a) (name : String) :
    g.attrValue n name = f.attrValue n name := by
  have hnode : g.attrNode n name = f.attrNode n name := by
    rw [attrNode, attrNode, ha]
    exact List.find?_congr fun a hmem => by rw [hk a hmem]
  rw [attrValue, attrValue, hnode]
  rcases hfound : f.attrNode n name with _ | a
  · rfl
  · rw [Option.map_some, Option.map_some, hd a (Sound.of_attrNode_eq_some hfound).1]

theorem sets_writeData (hf : f.Sound) {name : String} (hnode : f.attrNode n name = some a)
    (value : String) : Sets f (f.writeData a fun _ => value) n name value := by
  obtain ⟨hmem, hname⟩ := Sound.of_attrNode_eq_some hnode
  have has : a < f.size := lt_size_of_owner (hf.mem_attributes_iff.1 hmem)
  refine ⟨by simp, by simp, by simp, by simp, by simp, fun {m} _ hm => ?_, fun other => ?_⟩
  · rw [data_writeData, if_neg fun h => hm (hnode.trans (congrArg some h.1.symm))]
  · have hsame : (f.writeData a fun _ => value).attrNode n other = f.attrNode n other := by
      simp [attrNode]
    rw [attrValue, hsame]
    split_ifs with h
    · rw [attrNode_congr h, hnode, Option.map_some, data_writeData, if_pos ⟨rfl, has⟩]
    · rcases hother : f.attrNode n other with _ | b
      · simp [attrValue, hother]
      · have hba : b ≠ a := fun e =>
          h ((Sound.of_attrNode_eq_some hother).2.symm.trans (e ▸ hname))
        simp [attrValue, hother, data_writeData, hba]

theorem sets_plantAttr (hf : f.Sound) (he : (f.kind n).isElement = true) {name : String}
    (hnode : f.attrNode n name = none) (value : String) :
    Sets f (f.plantAttr n ⟨name.toLower, value⟩) n name value := by
  have hn : n < f.size := lt_size_of_isElement he
  have hkind : (f.plantAttr n ⟨name.toLower, value⟩).kind f.size = .attr name.toLower := by
    simp [plantAttr, kind_create]
  have hold {m : NodeId} (hm : m < f.size) :
      (f.plantAttr n ⟨name.toLower, value⟩).kind m = f.kind m ∧
        (f.plantAttr n ⟨name.toLower, value⟩).data m = f.data m := by
    simp [plantAttr, kind_create, data_create, hm.ne]
  refine ⟨by simp [plantAttr], fun hm => (hold hm).1, fun {m} hm => ?_, by simp [plantAttr],
    fun {m} hm => by simp [plantAttr, attributes_setAttributes, hm], fun hm _ => (hold hm).2,
    fun other => ?_⟩
  · simp [plantAttr, link_setParent, hm.ne]
  · have hfind : (f.plantAttr n ⟨name.toLower, value⟩).attrNode n other =
        (f.attrNode n other).or (if other.toLower = name.toLower then some f.size else none) := by
      have hnew : [f.size].find? (fun b =>
          ((f.plantAttr n ⟨name.toLower, value⟩).kind b).attrName == other.toLower) =
            if other.toLower = name.toLower then some f.size else none := by
        rw [List.find?_singleton, hkind]
        simp only [Kind.attrName, beq_iff_eq, eq_comm (a := other.toLower)]
      rw [attrNode, attributes_plantAttr _ hn, List.find?_append, hnew]
      congr 1
      exact List.find?_congr fun b hb => by
        rw [(hold (lt_size_of_owner (hf.mem_attributes_iff.1 hb))).1]
    rw [attrValue, hfind]
    split_ifs with h
    · rw [attrNode_congr h, hnode, Option.none_or, Option.map_some]
      simp [plantAttr, data_create]
    · rw [Option.or_none, attrValue]
      rcases hother : f.attrNode n other with _ | b
      · rfl
      · have hmem := (Sound.of_attrNode_eq_some hother).1
        rw [Option.map_some, Option.map_some,
          (hold (lt_size_of_owner (hf.mem_attributes_iff.1 hmem))).2]

theorem exists_setAttr (hf : f.Sound) (he : (f.kind n).isElement = true) (name value : String) :
    ∃ g, f.setAttr n name value = (.ok (), g) ∧ Sets f g n name value := by
  unfold setAttr requireElement
  simp only [he, if_true]
  rcases hnode : f.attrNode n name with _ | a
  · exact ⟨_, rfl, sets_plantAttr hf he hnode value⟩
  · exact ⟨_, rfl, sets_writeData hf hnode value⟩

end LiveMarkup.Forest
