import LiveMarkup.Proofs.Forest.Edits

/-!
# Attribute nodes in a sound forest

An element owns attribute nodes with names of their own.  Whatever gives it one for which it had no
name keeps a forest sound (`Sound.own`), and so do taking one away (`Sound.disown`) and giving one
in the place of another with its name (`Sound.supersede`).
-/

namespace LiveMarkup.Forest

variable {f g : Forest} {a n : NodeId}

namespace Sound

theorem not_mem_attributes (hf : f.Sound) (ho : f.owner a = none) (e : NodeId) :
    a ∉ f.attributes e := fun h => by
  rw [hf.mem_attributes_iff, ho] at h
  cases h

/-! ### Giving and taking attribute nodes -/

/-- An element owns one more attribute node, which it had no name for. -/
theorem own (hf : f.Sound) {e : NodeId} (he : (f.kind e).isElement = true)
    (ho : f.owner a = none)
    (hname : ∀ b ∈ f.attributes e, (f.kind b).attrName ≠ (f.kind a).attrName)
    (hk : ∀ m, g.kind m = f.kind m) (hp : ∀ m, g.parent m = f.parent m)
    (hc : ∀ m, g.children m = f.children m)
    (hown : ∀ m, g.owner m = if m = a then some e else f.owner m)
    (hattr : ∀ m, g.attributes m = if m = e then f.attributes e ++ [a] else f.attributes m) :
    g.Sound := by
  refine ⟨hf.toSoundChildren.congr (fun n _ => hk n) hp hc,
    hf.toSoundAttributes.gain hk he (a := a) (fun {q b} h => ?_) (fun {q b} => ?_) (fun q => ?_)⟩
  · rw [hown] at h
    split_ifs at h with hb
    · exact Or.inl ⟨hb, (Option.some.inj h).symm⟩
    · exact Or.inr ⟨h, fun hq => hname b (hf.mem_attributes_iff.2 (hq ▸ h))⟩
  · rw [hattr, hown]
    by_cases hq : q = e
    · subst hq
      rw [if_pos rfl, List.mem_append, List.mem_singleton, hf.mem_attributes_iff]
      by_cases hb : b = a <;> simp [hb, ho]
    · rw [if_neg hq, hf.mem_attributes_iff]
      by_cases hb : b = a
      · simp [hb, ho, Ne.symm hq]
      · simp [hb]
  · rw [hattr]
    split_ifs
    · exact (hf.nodup_attributes e).append (List.nodup_singleton a)
        (List.disjoint_singleton.2 (hf.not_mem_attributes ho e))
    · exact hf.nodup_attributes q

/-- An element no longer owns an attribute node. -/
theorem disown (hf : f.Sound) (hk : ∀ m, g.kind m = f.kind m)
    (hp : ∀ m, g.parent m = f.parent m) (hc : ∀ m, g.children m = f.children m)
    (hown : ∀ m, g.owner m = if m = a then none else f.owner m)
    (hattr : ∀ m, g.attributes m = (f.attributes m).filter (· != a)) : g.Sound := by
  refine ⟨hf.toSoundChildren.congr (fun n _ => hk n) hp hc,
    hf.toSoundAttributes.cut hk (fun {e m} h => ?_) (fun {e m} => ?_) (fun e => ?_)⟩
  · rw [hown] at h
    split_ifs at h
    exact h
  · rw [hattr, List.mem_filter, hf.mem_attributes_iff, hown]
    by_cases hm : m = a <;> simp [hm]
  · exact hattr e ▸ (hf.nodup_attributes e).filter _

theorem remove (hf : f.Sound) (n : NodeId) : (f.remove n).Sound := by
  unfold Forest.remove
  rcases ho : f.owner n with _ | o
  · exact hf.detach ho
  · have ha : (f.kind n).isAttr = true := isAttr_of_owner ho
    have hos : o < f.size := lt_size_of_mem_attributes (hf.mem_attributes_iff.2 ho)
    have hak : ((f.setAttributes o fun as => as.filter (· != n)).kind n).isAttr = true := by
      rwa [kind_setAttributes]
    refine hf.disown (a := n) (by simp) (fun m => ?_) (by simp) (fun m => ?_) (fun m => ?_)
    · rw [parent_setParent_of_isAttr hak, parent_setAttributes]
    · rw [owner_setParent_of_isAttr hak, owner_setAttributes]
    · simp only [attributes_setParent, attributes_setAttributes, hos, and_true]
      split_ifs with hm
      · rw [hm]
      · refine (List.filter_eq_self.2 fun c hc => ?_).symm
        have hcn : c ≠ n := fun e => by
          rw [e, hf.mem_attributes_iff, ho] at hc
          exact hm (Option.some.inj hc).symm
        simpa using hcn

/-- A new attribute node, which the element had no name for. -/
theorem plantAttr (hf : f.Sound) {e : NodeId} (he : (f.kind e).isElement = true) {name : String}
    (hs : IsSmall name) (hname : ∀ b ∈ f.attributes e, (f.kind b).attrName ≠ name)
    (value : String) : (f.plantAttr e ⟨name, value⟩).Sound := by
  have hes : e < f.size := lt_size_of_isElement he
  have hkind : ∀ m < f.size, (f.create (.attr name) value).2.kind m = f.kind m :=
    fun m hm => by rw [kind_create, if_neg (Nat.ne_of_lt hm)]
  have hak : ((f.create (.attr name) value).2.kind f.size).isAttr = true := by
    rw [kind_create, if_pos rfl]
    rfl
  refine (hf.create (.attr name) value hs).own (e := e) (a := f.size) (by rwa [hkind e hes])
    (by rw [owner_create, owner_eq_link, link_of_size_le le_rfl, ite_self]) ?_
    (by simp [Forest.plantAttr]) (fun m => ?_) (by simp [Forest.plantAttr]) (fun m => ?_)
    (fun m => ?_)
  · intro b hb
    rw [attributes_create] at hb
    rw [hkind b (lt_size_of_owner (hf.mem_attributes_iff.1 hb)), kind_create, if_pos rfl]
    exact hname b hb
  · simp only [Forest.plantAttr, fst_create]
    rw [parent_setAttributes, parent_setParent_of_isAttr hak]
  · simp only [Forest.plantAttr, fst_create]
    rw [owner_setAttributes, owner_setParent_of_isAttr hak]
  · simp [Forest.plantAttr, attributes_setAttributes, Nat.lt_succ_of_lt hes]

theorem ne_of_attrNode_eq_none {e : NodeId} {name : String} (h : f.attrNode e name = none) :
    ∀ b ∈ f.attributes e, (f.kind b).attrName ≠ name.toLower := by
  simpa [attrNode] using h

theorem of_attrNode_eq_some {e : NodeId} {name : String} (h : f.attrNode e name = some a) :
    a ∈ f.attributes e ∧ (f.kind a).attrName = name.toLower :=
  ⟨List.mem_of_find?_eq_some h, by simpa using List.find?_some h⟩

theorem setAttr (hf : f.Sound) (e : NodeId) (name value : String) :
    (f.setAttr e name value).2.Sound := by
  unfold Forest.setAttr requireElement
  by_cases he : (f.kind e).isElement = true
  · simp only [he, if_true]
    rcases hnode : f.attrNode e name with _ | a
    · exact hf.plantAttr he (isSmall_toLower name) (ne_of_attrNode_eq_none hnode) value
    · simp only
      exact hf.writeData a _
  · simp only [he]
    exact hf

theorem removeAttr (hf : f.Sound) (e : NodeId) (name : String) :
    (f.removeAttr e name).2.Sound := by
  unfold Forest.removeAttr
  cases f.requireElement e with
  | error fault => exact hf
  | ok _ =>
    cases f.attrNode e name with
    | some a => exact hf.remove a
    | none => exact hf

theorem removeAttrNode (hf : f.Sound) (e a : NodeId) : (f.removeAttrNode e a).2.Sound := by
  unfold Forest.removeAttrNode
  split_ifs
  · exact hf.remove a
  · exact hf

/-- An attribute node takes the place of the one of its name. -/
theorem supersede (hf : f.Sound) {e old : NodeId} (ho : f.owner a = none)
    (hold : f.owner old = some e) (hname : (f.kind a).attrName = (f.kind old).attrName)
    (hk : ∀ m, g.kind m = f.kind m) (hp : ∀ m, g.parent m = f.parent m)
    (hc : ∀ m, g.children m = f.children m)
    (hown : ∀ m, g.owner m = if m = a then some e else if m = old then none else f.owner m)
    (hattr : ∀ m, g.attributes m =
      if m = e then (f.attributes e).map fun b => if b = old then a else b else f.attributes m) :
    g.Sound := by
  have hao : a ≠ old := fun h => by
    rw [h, hold] at ho
    cases ho
  refine ⟨hf.toSoundChildren.congr (fun n _ => hk n) hp hc, hf.toSoundAttributes.gain hk
    (hf.isElement_of_owner hold) (a := a) (fun {q b} h => ?_) (fun {q b} => ?_) (fun q => ?_)⟩
  · rw [hown] at h
    split_ifs at h with hb hbo
    · exact Or.inl ⟨hb, (Option.some.inj h).symm⟩
    -- Another attribute of the name of `a` would have been a second one of the name of `old`.
    · exact Or.inr ⟨h, fun hq heq =>
        hbo (hf.eq_of_attrName_eq (hq ▸ h) hold (heq.trans hname))⟩
  · rw [hattr, hown]
    by_cases hq : q = e
    · subst hq
      rw [if_pos rfl, List.mem_map]
      simp only [hf.mem_attributes_iff]
      constructor
      · rintro ⟨c, hcq, rfl⟩
        by_cases hco : c = old
        · simp [hco]
        · have hca : c ≠ a := fun h => by rw [h, ho] at hcq; cases hcq
          simp [hco, hca, hcq]
      · intro h
        split_ifs at h with h1 h2
        · exact ⟨old, hold, by simp [h1]⟩
        · exact ⟨b, h, by simp [h2]⟩
    · rw [if_neg hq, hf.mem_attributes_iff]
      by_cases hb : b = a
      · simp [hb, ho, Ne.symm hq]
      · by_cases hbo : b = old
        · simp [hbo, hold, Ne.symm hq, Ne.symm hao]
        · simp [hb, hbo]
  · rw [hattr]
    split_ifs
    · refine (List.nodup_map_iff_inj_on (hf.nodup_attributes e)).2 fun b hb c hc h => ?_
      have hba : b ≠ a := fun h => hf.not_mem_attributes ho e (h ▸ hb)
      have hca : c ≠ a := fun h => hf.not_mem_attributes ho e (h ▸ hc)
      split_ifs at h with h1 h2 h2
      · exact h1.trans h2.symm
      · exact absurd h.symm hca
      · exact absurd h hba
      · exact h
    · exact hf.nodup_attributes q

/-- An attribute node goes last among the attributes of an element. -/
theorem addAttrNode (hf : f.Sound) {e : NodeId} (he : (f.kind e).isElement = true)
    (ha : (f.kind a).isAttr = true) (ho : f.owner a = none)
    (hname : ∀ b ∈ f.attributes e, (f.kind b).attrName ≠ (f.kind a).attrName) :
    ((f.setAttributes e (· ++ [a])).setParent a (some e)).Sound := by
  have hak : ((f.setAttributes e (· ++ [a])).kind a).isAttr = true := by rwa [kind_setAttributes]
  refine hf.own he ho hname (by simp) (fun m => ?_) (by simp) (fun m => ?_) (fun m => ?_)
  · rw [parent_setParent_of_isAttr hak, parent_setAttributes]
  · rw [owner_setParent_of_isAttr hak, owner_setAttributes]
  · simp [attributes_setAttributes, lt_size_of_isElement he]

/-- An attribute node is put where another of its name is, which then has no owner. -/
theorem replaceAttrNode (hf : f.Sound) {e old : NodeId} (ha : (f.kind a).isAttr = true)
    (ho : f.owner a = none) (hold : f.owner old = some e)
    (hname : (f.kind a).attrName = (f.kind old).attrName) :
    (((f.setAttributes e fun as => as.map fun b => if b = old then a else b).setParent old
      none).setParent a (some e)).Sound := by
  have he : e < f.size := lt_size_of_mem_attributes (hf.mem_attributes_iff.2 hold)
  refine hf.supersede ho hold hname (by simp) (fun m => ?_) (by simp) (fun m => ?_) (fun m => ?_)
  · rw [parent_setParent_of_isAttr (by simpa using ha),
      parent_setParent_of_isAttr (by simpa using isAttr_of_owner hold), parent_setAttributes]
  · rw [owner_setParent_of_isAttr (by simpa using ha),
      owner_setParent_of_isAttr (by simpa using isAttr_of_owner hold), owner_setAttributes]
  · simp [attributes_setAttributes, he]

theorem setAttrNode (hf : f.Sound) (e a : NodeId) : (f.setAttrNode e a).2.Sound := by
  unfold Forest.setAttrNode requireElement
  by_cases he : (f.kind e).isElement = true
  · simp only [he, if_true]
    by_cases ha : (f.kind a).isAttr = true
    · simp only [ha, Bool.not_true, Bool.false_eq_true, if_false]
      rcases ho : f.owner a with _ | o
      · have hsmall : (f.kind a).attrName.toLower = (f.kind a).attrName := hf.isSmall_attrName a
        rcases hnode : f.attrNode e (f.kind a).attrName with _ | old
        · refine hf.addAttrNode he ha ho fun b hb => ?_
          rw [← hsmall]
          exact ne_of_attrNode_eq_none hnode b hb
        · obtain ⟨hmem, hname⟩ := of_attrNode_eq_some hnode
          exact hf.replaceAttrNode ha ho (hf.mem_attributes_iff.1 hmem) (hname.trans hsmall).symm
      · simp only
        split_ifs <;> exact hf
    · simp only [ha]
      exact hf
  · simp only [he]
    exact hf

end Sound

end LiveMarkup.Forest
