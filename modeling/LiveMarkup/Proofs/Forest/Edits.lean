import LiveMarkup.Proofs.Forest.Sound

/-!
# Edits keep a forest sound

Each operation on children takes a sound forest to a sound forest, whether it succeeds or is
refused.  The proofs follow the operations: taking out and putting in are shown to be sound once
(`Sound.detach`, `Sound.insertAt`), and insertion, replacement and removal are sequences of these.
-/

namespace LiveMarkup.Forest

variable {f g : Forest} {a m n p : NodeId}

namespace Sound

/-! ### Making, taking out and putting in -/

theorem create (hf : f.Sound) (k : Kind) (s : String) (hk : IsSmall k.attrName) :
    (f.create k s).2.Sound := by
  have hkind : ∀ n < f.size, (f.create k s).2.kind n = f.kind n := fun n h => by
    rw [kind_create, if_neg (Nat.ne_of_lt h)]
  have hsmall : ∀ n, IsSmall ((f.create k s).2.kind n).attrName := fun n => by
    rw [kind_create]
    split_ifs
    · exact hk
    · exact hf.isSmall_attrName n
  exact ⟨hf.toSoundChildren.congr hkind (fun _ => parent_create k s) (by simp),
    hf.toSoundAttributes.congr hkind hsmall (fun _ => owner_create k s) (by simp)⟩

/-- After a node is taken out, the lists of children are the lists before without it. -/
theorem children_detach_eq (hf : f.Sound) :
    (f.detach n).children m = (f.children m).filter (· != n) := by
  rw [children_detach]
  split_ifs with h
  · rfl
  · refine (List.filter_eq_self.2 fun c hc => ?_).symm
    have : c ≠ n := fun e => h (hf.mem_children_iff.1 (e ▸ hc))
    simpa using this

theorem detach (hf : f.Sound) (ho : f.owner n = none) : (f.detach n).Sound := by
  have hp : ∀ m, (f.detach n).parent m = if m = n then none else f.parent m :=
    fun m => parent_detach
  have hown : ∀ m, (f.detach n).owner m = f.owner m := fun m => by
    rw [owner_detach]
    split_ifs with h
    · rw [h, ho]
    · rfl
  refine ⟨hf.toSoundChildren.cut (by simp) (fun {p m} h => ?_) (fun {p m} => ?_) (fun p => ?_),
    hf.toSoundAttributes.of_moves (by simp) hown (by simp)⟩
  · rw [hp] at h
    split_ifs at h
    exact h
  · rw [hf.children_detach_eq, List.mem_filter, hf.mem_children_iff, hp]
    by_cases hm : m = n <;> simp [hm]
  · exact hf.children_detach_eq ▸ (hf.nodup_children p).filter _

/-- A node that can be put among the children of `p`: one that may be a child, has no parent, and is
not above `p`. -/
structure Loose (f : Forest) (p n : NodeId) : Prop where
  lt_size : n < f.size
  not_isAttr : ¬ (f.kind n).isAttr = true
  ne_fragment : f.kind n ≠ .fragment
  parent_eq : f.parent n = none
  not_above : ¬ f.Above n p

theorem insertAt (hf : f.Sound) (hp : (f.kind p).holdsChildren = true) (hn : Loose f p n) {i : ℕ}
    (hi : i ≤ (f.children p).length) : (f.insertAt p i n).Sound := by
  have hps : p < f.size := lt_size_of_holdsChildren hp
  have hpar : ∀ m, (f.insertAt p i n).parent m = if m = n then some p else f.parent m :=
    fun m => parent_insertAt i hn.lt_size hn.not_isAttr
  have hown : ∀ m, (f.insertAt p i n).owner m = f.owner m :=
    fun m => owner_insertAt i hn.lt_size hn.not_isAttr
  have hfresh : ∀ q, n ∉ f.children q := fun q h => by
    have := hf.mem_children_iff.1 h
    rw [hn.parent_eq] at this
    cases this
  refine ⟨⟨?_, ?_, ?_, ?_, ?_⟩, hf.toSoundAttributes.of_moves (by simp) hown (by simp)⟩
  · intro q m
    rw [children_insertAt i hps, hpar]
    by_cases hq : q = p
    · subst hq
      rw [if_pos rfl, List.mem_insertIdx hi, hf.mem_children_iff]
      by_cases hm : m = n <;> simp [hm, hn.parent_eq]
    · rw [if_neg hq, hf.mem_children_iff]
      by_cases hm : m = n
      · simp [hm, hn.parent_eq, Ne.symm hq]
      · simp [hm]
  · intro q
    rw [children_insertAt i hps]
    split_ifs
    · exact (List.perm_insertIdx n _ hi).nodup_iff.2
        (List.nodup_cons.2 ⟨hfresh p, hf.nodup_children p⟩)
    · exact hf.nodup_children q
  · exact wellFounded_of_link hf.wellFounded hpar hn.not_above
  · intro q m h
    rw [kind_insertAt]
    rw [hpar] at h
    split_ifs at h
    · exact Option.some.inj h ▸ hp
    · exact hf.holdsChildren_of_parent h
  · intro q m h
    rw [kind_insertAt]
    rw [hpar] at h
    split_ifs at h with hm
    · exact hm ▸ hn.ne_fragment
    · exact hf.ne_fragment_of_parent h

/-! ### Emptying a node -/

theorem parent_takeChildren_eq (hf : f.Sound) :
    (f.takeChildren n).2.parent m = if f.parent m = some n then none else f.parent m := by
  rw [parent_eq_link, kind_takeChildren, link_takeChildren]
  simp only [hf.mem_children_iff]
  by_cases ha : (f.kind m).isAttr = true
  · rw [if_pos ha, parent_of_isAttr ha, ite_self]
  · rw [if_neg ha]
    split_ifs with h
    · rfl
    · rw [parent_eq_link, if_neg ha]

theorem owner_takeChildren (hf : f.Sound) : (f.takeChildren n).2.owner m = f.owner m := by
  rw [owner_eq_link, owner_eq_link, kind_takeChildren, link_takeChildren]
  split_ifs with ha hm
  · exact absurd ha (not_isAttr_of_parent (hf.mem_children_iff.1 hm))
  · rfl
  · rfl

theorem takeChildren (hf : f.Sound) (n : NodeId) : (f.takeChildren n).2.Sound where
  toSoundChildren := hf.toSoundChildren.emptied (by simp) (fun _ => hf.parent_takeChildren_eq)
    (fun _ => children_takeChildren)
  toSoundAttributes :=
    hf.toSoundAttributes.of_moves (by simp) (fun _ => hf.owner_takeChildren) (by simp)

/-! ### Insertion -/

/-- Where links are only cut, what is above a node was above it before. -/
theorem above_of_parent_imp (h : ∀ p n, g.parent n = some p → f.parent n = some p)
    (ha : g.Above a n) : f.Above a n :=
  Relation.ReflTransGen.mono h _ _ ha

/-- A new link from `n` to `p` puts nothing above a node that is not below `n`. -/
theorem above_of_link (hg : ∀ m, g.parent m = if m = n then some p else f.parent m) {q : NodeId}
    (hq : ¬ f.Above n q) (h : g.Above a q) : f.Above a q := by
  induction h with
  | refl => exact Above.refl a
  | @tail r q _ hr ih =>
    have hqn : q ≠ n := fun e => hq (e ▸ Above.refl q)
    have hr' : f.parent q = some r := by rwa [hg, if_neg hqn] at hr
    exact (ih fun h => hq (h.trans (Above.of_parent hr'))).trans (Above.of_parent hr')

theorem insertAllAt (hf : f.Sound) (hp : (f.kind p).holdsChildren = true) {ns : List NodeId}
    (hns : ∀ n ∈ ns, Loose f p n) (hd : ns.Nodup) {i : ℕ} (hi : i ≤ (f.children p).length) :
    (f.insertAllAt p i ns).Sound := by
  induction ns generalizing f i with
  | nil => exact hf
  | cons n ns ih =>
    have hn := hns n List.mem_cons_self
    have hg : ∀ m, (f.insertAt p i n).parent m = if m = n then some p else f.parent m :=
      fun m => parent_insertAt i hn.lt_size hn.not_isAttr
    refine ih (hf.insertAt hp hn hi) (by simpa using hp) (fun m hm => ?_)
      (List.nodup_cons.1 hd).2 ?_
    · have hm' := hns m (List.mem_cons_of_mem _ hm)
      have hmn : m ≠ n := fun e => (List.nodup_cons.1 hd).1 (e ▸ hm)
      exact ⟨by simpa using hm'.lt_size, by simpa using hm'.not_isAttr,
        by simpa using hm'.ne_fragment, by rw [hg, if_neg hmn, hm'.parent_eq],
        fun h => hm'.not_above (above_of_link hg hn.not_above h)⟩
    · rw [children_insertAt i (lt_size_of_holdsChildren hp), if_pos rfl, List.length_insertIdx,
        if_pos hi]
      omega

/-- What an insertion that is not refused may rely on. -/
theorem of_insertFault?_eq_none (hf : f.Sound) {reference : Option NodeId}
    (h : f.insertFault? p n reference = none) :
    (f.kind p).holdsChildren = true ∧ ¬ (f.kind n).isAttr = true ∧ ¬ f.Above n p ∧
      ∀ r, reference = some r → f.parent r = some p := by
  unfold insertFault? at h
  split_ifs at h with h1 h2 h3
  refine ⟨by simpa using h1, h2, fun ha => h3 (hf.contains_iff.2 ha), ?_⟩
  rintro r rfl
  simp only at h
  split_ifs at h with hr
  exact hr

/-- The nodes that an insertion picks up are loose, and picking them up keeps the forest sound. -/
theorem pickUp (hf : f.Sound) (hn : n < f.size) (ha : ¬ (f.kind n).isAttr = true)
    (hnp : ¬ f.Above n p) :
    (f.pickUp n).2.Sound ∧ (f.pickUp n).2.size = f.size ∧
      (∀ m, (f.pickUp n).2.kind m = f.kind m) ∧ (f.pickUp n).1.Nodup ∧
      (∀ m q, (f.pickUp n).2.parent m = some q → f.parent m = some q) ∧
      ∀ c ∈ (f.pickUp n).1, Loose (f.pickUp n).2 p c := by
  unfold Forest.pickUp
  split_ifs with hfr
  · have himp : ∀ m q, (f.takeChildren n).2.parent m = some q → f.parent m = some q :=
      fun m q h => by
        rw [hf.parent_takeChildren_eq] at h
        split_ifs at h
        exact h
    refine ⟨hf.takeChildren n, by simp, by simp, hf.nodup_children n, himp, fun c hc => ?_⟩
    have hcn : f.parent c = some n := hf.mem_children_iff.1 hc
    exact ⟨by simpa using lt_size_of_parent hcn, by simpa using not_isAttr_of_parent hcn,
      by simpa using hf.ne_fragment_of_parent hcn, by rw [hf.parent_takeChildren_eq, if_pos hcn],
      fun h => hnp ((Above.of_parent hcn).trans (above_of_parent_imp (fun q m => himp m q) h))⟩
  · have himp : ∀ m q, (f.detach n).parent m = some q → f.parent m = some q := fun m q h => by
      rw [parent_detach] at h
      split_ifs at h
      exact h
    refine ⟨hf.detach (owner_of_not_isAttr ha), by simp, by simp, by simp, himp, fun c hc => ?_⟩
    obtain rfl : c = n := by simpa using hc
    exact ⟨by simpa using hn, by simpa using ha, by simpa using hfr,
      by rw [parent_detach, if_pos rfl],
      fun h => hnp (above_of_parent_imp (fun q m => himp m q) h)⟩

theorem indexInParent_le {r : NodeId} {i : ℕ}
    (hr : ∀ q, f.parent r = some q → q = p) (h : f.indexInParent r = some i) :
    i ≤ (f.children p).length := by
  unfold indexInParent at h
  rcases hp : f.parent r with _ | q
  · rw [hp] at h
    cases h
  · rw [hp] at h
    obtain rfl := hr q hp
    have hlt := (List.findIdx?_eq_some_iff_getElem.1 h).1
    omega

theorem parent_nextSibling (hf : f.Sound) {r : NodeId} (hp : f.parent n = some p)
    (h : f.nextSibling n = some r) : f.parent r = some p := by
  unfold nextSibling at h
  rw [hp] at h
  rcases hi : f.indexInParent n with _ | i
  · rw [hi] at h
    cases h
  · rw [hi] at h
    exact hf.mem_children_iff.1 (List.mem_of_getElem? h)

theorem insertBefore (hf : f.Sound) (hn : n < f.size) (p : NodeId) (reference : Option NodeId) :
    (f.insertBefore p n reference).2.Sound := by
  unfold Forest.insertBefore
  rcases hfault : f.insertFault? p n reference with _ | fault
  · obtain ⟨hp, ha, hnp, hr⟩ := hf.of_insertFault?_eq_none hfault
    obtain ⟨hs, -, hk, hd, himp, hloose⟩ := hf.pickUp hn ha hnp
    have hp' : ((f.pickUp n).2.kind p).holdsChildren = true := by rwa [hk]
    -- The place is one among the children of `p`: a reference that still has a parent has `p`.
    have hplace : ∀ r, (if reference = some n then f.nextSibling n else reference) = some r →
        f.parent r = some p := by
      intro r h
      split_ifs at h with hrn
      · exact hf.parent_nextSibling (hr n hrn) h
      · exact hr r h
    simp only
    rcases hr' : (if reference = some n then f.nextSibling n else reference) with _ | r
    · exact hs.insertAllAt hp' hloose hd le_rfl
    · simp only
      rcases hi : (f.pickUp n).2.indexInParent r with _ | i
      · exact hs
      · refine hs.insertAllAt hp' hloose hd (indexInParent_le (fun q hq => ?_) hi)
        exact Option.some.inj ((himp r q hq).symm.trans (hplace r hr'))
  · exact hf

end Sound

/-! ### What an insertion never changes -/

theorem insertAllAt_frame (ns : List NodeId) (i : ℕ) :
    (f.insertAllAt p i ns).size = f.size ∧ ∀ m, (f.insertAllAt p i ns).kind m = f.kind m := by
  induction ns generalizing f i with
  | nil => exact ⟨rfl, fun _ => rfl⟩
  | cons n ns ih =>
    obtain ⟨hs, hk⟩ := ih (f := f.insertAt p i n) (i + 1)
    exact ⟨hs.trans (size_insertAt i), fun m => (hk m).trans (kind_insertAt i)⟩

theorem pickUp_frame : (f.pickUp n).2.size = f.size ∧ ∀ m, (f.pickUp n).2.kind m = f.kind m := by
  unfold pickUp
  split_ifs <;> simp

theorem insertBefore_frame (p n : NodeId) (reference : Option NodeId) :
    (f.insertBefore p n reference).2.size = f.size ∧
      ∀ m, (f.insertBefore p n reference).2.kind m = f.kind m := by
  obtain ⟨hs, hk⟩ := pickUp_frame (f := f) (n := n)
  unfold insertBefore
  cases f.insertFault? p n reference with
  | some fault => exact ⟨rfl, fun _ => rfl⟩
  | none =>
    simp only
    split
    · next i _ =>
      obtain ⟨hs', hk'⟩ := insertAllAt_frame (f := (f.pickUp n).2) (p := p) (f.pickUp n).1 i
      exact ⟨hs'.trans hs, fun m => (hk' m).trans (hk m)⟩
    · exact ⟨hs, hk⟩

theorem insertEach_frame (p anchor : NodeId) (ns : List NodeId) :
    (f.insertEach p anchor ns).2.size = f.size ∧
      ∀ m, (f.insertEach p anchor ns).2.kind m = f.kind m := by
  induction ns generalizing f with
  | nil => exact ⟨rfl, fun _ => rfl⟩
  | cons n ns ih =>
    rw [insertEach]
    split_ifs
    · exact ih
    · obtain ⟨hs, hk⟩ := insertBefore_frame (f := f) p n (some anchor)
      split
      · next g heq =>
        rw [heq] at hs hk
        obtain ⟨hs', hk'⟩ := ih (f := g)
        exact ⟨hs'.trans hs, fun m => (hk' m).trans (hk m)⟩
      · exact ⟨hs, hk⟩

namespace Sound

/-! ### Replacement and removal -/

theorem removeChild (hf : f.Sound) (p n : NodeId) : (f.removeChild p n).2.Sound := by
  unfold Forest.removeChild
  split_ifs with h
  · exact hf.detach (owner_of_not_isAttr (not_isAttr_of_parent h))
  · exact hf

theorem insertEach (hf : f.Sound) (p anchor : NodeId) {ns : List NodeId}
    (hns : ∀ n ∈ ns, n < f.size) : (f.insertEach p anchor ns).2.Sound := by
  induction ns generalizing f with
  | nil => exact hf
  | cons n ns ih =>
    have hrest : ∀ m ∈ ns, m < f.size := fun m hm => hns m (List.mem_cons_of_mem _ hm)
    rw [Forest.insertEach]
    split_ifs
    · exact ih hf hrest
    · have hs := hf.insertBefore (hns n List.mem_cons_self) p (some anchor)
      have hsize := (insertBefore_frame (f := f) p n (some anchor)).1
      split
      · next heq =>
        rw [heq] at hs hsize
        exact ih hs fun m hm => (hrest m hm).trans_eq hsize.symm
      · exact hs

theorem replaceWith (hf : f.Sound) (n : NodeId) {ns : List NodeId} (hns : ∀ m ∈ ns, m < f.size) :
    (f.replaceWith n ns).2.Sound := by
  unfold Forest.replaceWith
  rcases hp : f.parent n with _ | p
  · exact hf
  · have hs := hf.insertEach p n hns
    have hk := (insertEach_frame (f := f) p n ns).2
    simp only
    split
    · next g heq =>
      rw [heq] at hs hk
      simp only
      split_ifs
      · exact hs
      · exact hs.detach (owner_of_not_isAttr (by simpa [hk] using not_isAttr_of_parent hp))
    · exact hs

end Sound

end LiveMarkup.Forest
