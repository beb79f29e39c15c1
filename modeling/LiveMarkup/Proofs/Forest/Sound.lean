import Mathlib.Order.WellFounded
import LiveMarkup.Proofs.Forest.Moves
import LiveMarkup.Proofs.Text.SmallLetters

/-!
# Sound forests

In a sound forest the two sides of every link agree: a node is in the list of children of `p`
exactly if `p` is its parent, an attribute node is in the list of `e` exactly if `e` owns it, and no
list names a node twice.  Parents lead upwards and never back, only elements and fragments have
children, and the attributes of an element have names of their own.

`Forest.Above` is the relation that walking along parents follows.  In a sound forest the walk ends
at a node without a parent before its fuel does, so `Forest.ancestors` is all of it
(`Sound.mem_ancestors_iff`).
-/

namespace LiveMarkup.Forest

/-- `a` is `n` or an ancestor of `n`. -/
def Above (f : Forest) (a n : NodeId) : Prop :=
  Relation.ReflTransGen (fun p m => f.parent m = some p) a n

/-- The children of every node are the nodes it is the parent of, parents never lead back, and what
has children may have them. -/
structure SoundChildren (f : Forest) : Prop where
  mem_children_iff {p n : NodeId} : n ∈ f.children p ↔ f.parent n = some p
  nodup_children (p : NodeId) : (f.children p).Nodup
  wellFounded : WellFounded fun p n => f.parent n = some p
  holdsChildren_of_parent {p n : NodeId} : f.parent n = some p → (f.kind p).holdsChildren = true
  ne_fragment_of_parent {p n : NodeId} : f.parent n = some p → f.kind n ≠ .fragment

/-- The attribute nodes of every element are the nodes it owns, and their names are in small letters
and differ. -/
structure SoundAttributes (f : Forest) : Prop where
  mem_attributes_iff {e a : NodeId} : a ∈ f.attributes e ↔ f.owner a = some e
  nodup_attributes (e : NodeId) : (f.attributes e).Nodup
  isElement_of_owner {e a : NodeId} : f.owner a = some e → (f.kind e).isElement = true
  eq_of_attrName_eq {e a b : NodeId} : f.owner a = some e → f.owner b = some e →
    (f.kind a).attrName = (f.kind b).attrName → a = b
  isSmall_attrName (n : NodeId) : IsSmall (f.kind n).attrName

/-- Both sides of every link agree, parents never lead back, and what holds a node may hold it. -/
structure Sound (f : Forest) : Prop extends SoundChildren f, SoundAttributes f

variable {f g : Forest} {a m n p : NodeId}

/-! ### Above and below -/

namespace Above

theorem refl (n : NodeId) : f.Above n n := Relation.ReflTransGen.refl

theorem of_parent (h : f.parent n = some p) : f.Above p n := Relation.ReflTransGen.single h

theorem trans {b : NodeId} (h : f.Above a b) (h' : f.Above b n) : f.Above a n :=
  Relation.ReflTransGen.trans h h'

theorem cases (h : f.Above a n) : a = n ∨ ∃ p, f.parent n = some p ∧ f.Above a p := by
  rcases Relation.ReflTransGen.cases_tail h with e | ⟨p, hap, hp⟩
  · exact Or.inl e.symm
  · exact Or.inr ⟨p, hp, hap⟩

theorem eq_of_parent_none (h : f.Above a n) (hn : f.parent n = none) : a = n := by
  rcases h.cases with e | ⟨p, hp, -⟩
  · exact e
  · rw [hn] at hp
    cases hp

end Above

namespace Sound

variable (hf : f.Sound)

include hf

theorem lt_size_of_child (h : f.parent n = some p) : p < f.size :=
  lt_size_of_mem_children (hf.mem_children_iff.2 h)

theorem isAttr_of_mem_attributes {e : NodeId} (h : a ∈ f.attributes e) :
    (f.kind a).isAttr = true :=
  isAttr_of_owner (hf.mem_attributes_iff.1 h)

theorem acyclic (n : NodeId) : ¬ Relation.TransGen (fun p m => f.parent m = some p) n n :=
  hf.wellFounded.transGen.irrefl.irrefl n

theorem not_above_of_parent (h : f.parent n = some p) : ¬ f.Above n p :=
  fun hnp => hf.acyclic n (Relation.TransGen.tail' hnp h)

/-! ### Walking along parents -/

omit hf in
theorem above_of_mem_lineage {fuel : ℕ} : ∀ {n : NodeId}, a ∈ f.lineage fuel n → f.Above a n := by
  induction fuel with
  | zero => intro n h; cases h
  | succ fuel ih =>
    intro n h
    rcases List.mem_cons.1 h with rfl | h
    · exact Above.refl a
    · rcases hp : f.parent n with _ | p
      · rw [hp] at h
        cases h
      · rw [hp] at h
        exact (ih h).trans (Above.of_parent hp)

theorem nodup_lineage (fuel : ℕ) (n : NodeId) : (f.lineage fuel n).Nodup := by
  induction fuel generalizing n with
  | zero => exact List.nodup_nil
  | succ fuel ih =>
    rw [lineage]
    rcases hp : f.parent n with _ | p
    · simp
    · exact List.nodup_cons.2
        ⟨fun h => hf.not_above_of_parent hp (above_of_mem_lineage h), ih p⟩

theorem lt_size_of_mem_lineage {fuel : ℕ} (hn : n < f.size) (h : a ∈ f.lineage fuel n) :
    a < f.size := by
  induction fuel generalizing n with
  | zero => cases h
  | succ fuel ih =>
    rcases List.mem_cons.1 h with rfl | h
    · exact hn
    · rcases hp : f.parent n with _ | p
      · rw [hp] at h
        cases h
      · rw [hp] at h
        exact ih (hf.lt_size_of_child hp) h

omit hf in
/-- A walk that stops before its fuel is used up has come to a node without a parent. -/
theorem exists_top_of_length_lt {fuel : ℕ} (h : (f.lineage fuel n).length < fuel) :
    ∃ top ∈ f.lineage fuel n, f.parent top = none := by
  induction fuel generalizing n with
  | zero => cases h
  | succ fuel ih =>
    rcases hp : f.parent n with _ | p
    · exact ⟨n, List.mem_cons_self, hp⟩
    · rw [lineage, hp] at h ⊢
      obtain ⟨top, hm, ht⟩ := ih (n := p) (by simpa using h)
      exact ⟨top, List.mem_cons_of_mem _ hm, ht⟩

/-- The walk to the ancestors of a node comes to a node without a parent. -/
theorem exists_top (n : NodeId) : ∃ top ∈ f.ancestors n, f.parent top = none := by
  by_cases hn : n < f.size
  · refine exists_top_of_length_lt (Nat.lt_succ_of_le ?_)
    have hsub : (f.lineage (f.size + 1) n) ⊆ List.range f.size := fun a ha =>
      List.mem_range.2 (hf.lt_size_of_mem_lineage hn ha)
    simpa using (hf.nodup_lineage _ n).length_le_of_subset hsub
  · refine ⟨n, List.mem_cons_self, ?_⟩
    by_contra hp
    obtain ⟨p, hp⟩ := Option.ne_none_iff_exists'.1 hp
    exact hn (lt_size_of_parent hp)

omit hf in
/-- Once a walk has come to a node without a parent, everything above is in it. -/
theorem mem_lineage_of_above {fuel : ℕ} (ht : ∃ top ∈ f.lineage fuel n, f.parent top = none)
    (h : f.Above a n) : a ∈ f.lineage fuel n := by
  induction fuel generalizing n with
  | zero =>
    obtain ⟨top, hm, -⟩ := ht
    cases hm
  | succ fuel ih =>
    rcases h.cases with rfl | ⟨p, hp, hap⟩
    · exact List.mem_cons_self
    · rw [lineage, hp] at ht ⊢
      obtain ⟨top, hm, htop⟩ := ht
      refine List.mem_cons_of_mem _ (ih ⟨top, ?_, htop⟩ hap)
      rcases List.mem_cons.1 hm with rfl | hm
      · rw [hp] at htop
        cases htop
      · exact hm

theorem mem_ancestors_iff : a ∈ f.ancestors n ↔ f.Above a n :=
  ⟨above_of_mem_lineage, mem_lineage_of_above (hf.exists_top n)⟩

theorem contains_iff : f.contains a n = true ↔ f.Above a n := by
  rw [contains, List.contains_iff_mem, hf.mem_ancestors_iff]

end Sound

/-! ### Changes that keep a forest sound -/

theorem SoundChildren.congr (hf : f.SoundChildren) (hk : ∀ n < f.size, g.kind n = f.kind n)
    (hp : ∀ n, g.parent n = f.parent n) (hc : ∀ n, g.children n = f.children n) :
    g.SoundChildren where
  mem_children_iff := by
    intro p n
    rw [hp, hc]
    exact hf.mem_children_iff
  nodup_children := by simpa only [hc] using hf.nodup_children
  wellFounded := by simpa only [hp] using hf.wellFounded
  holdsChildren_of_parent := by
    intro p n h
    rw [hp] at h
    rw [hk p (lt_size_of_mem_children (hf.mem_children_iff.2 h))]
    exact hf.holdsChildren_of_parent h
  ne_fragment_of_parent := by
    intro p n h
    rw [hp] at h
    rw [hk n (lt_size_of_parent h)]
    exact hf.ne_fragment_of_parent h

theorem SoundAttributes.congr (hf : f.SoundAttributes) (hk : ∀ n < f.size, g.kind n = f.kind n)
    (hs : ∀ n, IsSmall (g.kind n).attrName) (ho : ∀ n, g.owner n = f.owner n)
    (ha : ∀ n, g.attributes n = f.attributes n) : g.SoundAttributes where
  mem_attributes_iff := by
    intro e a
    rw [ho, ha]
    exact hf.mem_attributes_iff
  nodup_attributes := by simpa only [ha] using hf.nodup_attributes
  isElement_of_owner := by
    intro e a h
    rw [ho] at h
    rw [hk e (lt_size_of_mem_attributes (hf.mem_attributes_iff.2 h))]
    exact hf.isElement_of_owner h
  eq_of_attrName_eq := by
    intro e a b h h'
    rw [ho] at h h'
    rw [hk a (lt_size_of_owner h), hk b (lt_size_of_owner h')]
    exact hf.eq_of_attrName_eq h h'
  isSmall_attrName := hs

/-- Attribute nodes stay sound where only children are moved. -/
theorem SoundAttributes.of_moves (hf : f.SoundAttributes) (hk : ∀ n, g.kind n = f.kind n)
    (ho : ∀ n, g.owner n = f.owner n) (ha : ∀ n, g.attributes n = f.attributes n) :
    g.SoundAttributes :=
  hf.congr (fun n _ => hk n) (fun n => hk n ▸ hf.isSmall_attrName n) ho ha

theorem Sound.writeData (hf : f.Sound) (n : NodeId) (change : String → String) :
    (f.writeData n change).Sound where
  toSoundChildren := hf.toSoundChildren.congr (by simp)
    (fun _ => parent_congr (by simp) (by simp)) (by simp)
  toSoundAttributes := hf.toSoundAttributes.of_moves (by simp)
    (fun _ => owner_congr (by simp) (by simp)) (by simp)

/-- Cutting links keeps parents from leading back. -/
theorem wellFounded_of_parent_imp (hf : WellFounded fun p n => f.parent n = some p)
    (h : ∀ p n, g.parent n = some p → f.parent n = some p) :
    WellFounded fun p n => g.parent n = some p :=
  Subrelation.wf (fun {p n} => h p n) hf

/-- Children stay sound where links are only cut. -/
theorem SoundChildren.cut (hf : f.SoundChildren) (hk : ∀ n, g.kind n = f.kind n)
    (hp : ∀ {p n}, g.parent n = some p → f.parent n = some p)
    (hmem : ∀ {p n}, n ∈ g.children p ↔ g.parent n = some p) (hd : ∀ p, (g.children p).Nodup) :
    g.SoundChildren where
  mem_children_iff := hmem
  nodup_children := hd
  wellFounded := wellFounded_of_parent_imp hf.wellFounded fun _ _ => hp
  holdsChildren_of_parent := by
    intro p n h
    rw [hk]
    exact hf.holdsChildren_of_parent (hp h)
  ne_fragment_of_parent := by
    intro p n h
    rw [hk]
    exact hf.ne_fragment_of_parent (hp h)

/-- Children stay sound where a node loses all of its own. -/
theorem SoundChildren.emptied (hf : f.SoundChildren) (hk : ∀ m, g.kind m = f.kind m)
    (hp : ∀ m, g.parent m = if f.parent m = some n then none else f.parent m)
    (hc : ∀ m, g.children m = if m = n then [] else f.children m) : g.SoundChildren := by
  refine hf.cut hk (fun {p m} h => ?_) (fun {p m} => ?_) (fun p => ?_)
  · rw [hp] at h
    split_ifs at h
    exact h
  · rw [hc, hp]
    by_cases hpn : p = n
    · subst hpn
      by_cases hm : f.parent m = some p <;> simp [hm]
    · rw [if_neg hpn, hf.mem_children_iff]
      by_cases hm : f.parent m = some n
      · simp [hm, Ne.symm hpn]
      · simp [hm]
  · rw [hc]
    split_ifs
    · exact List.nodup_nil
    · exact hf.nodup_children p

/-- Attribute nodes stay sound where they only lose their owners. -/
theorem SoundAttributes.cut (hf : f.SoundAttributes) (hk : ∀ n, g.kind n = f.kind n)
    (ho : ∀ {e a}, g.owner a = some e → f.owner a = some e)
    (hmem : ∀ {e a}, a ∈ g.attributes e ↔ g.owner a = some e) (hd : ∀ e, (g.attributes e).Nodup) :
    g.SoundAttributes where
  mem_attributes_iff := hmem
  nodup_attributes := hd
  isElement_of_owner := by
    intro e a h
    rw [hk]
    exact hf.isElement_of_owner (ho h)
  eq_of_attrName_eq := by
    intro e a b ha hb
    rw [hk, hk]
    exact hf.eq_of_attrName_eq (ho ha) (ho hb)
  isSmall_attrName := fun n => hk n ▸ hf.isSmall_attrName n

/-- Attribute nodes stay sound where a node loses all of its own. -/
theorem SoundAttributes.emptied (hf : f.SoundAttributes) (hk : ∀ m, g.kind m = f.kind m)
    (ho : ∀ m, g.owner m = if f.owner m = some n then none else f.owner m)
    (ha : ∀ m, g.attributes m = if m = n then [] else f.attributes m) : g.SoundAttributes := by
  refine hf.cut hk (fun {e m} h => ?_) (fun {e m} => ?_) (fun e => ?_)
  · rw [ho] at h
    split_ifs at h
    exact h
  · rw [ha, ho]
    by_cases hen : e = n
    · subst hen
      by_cases hm : f.owner m = some e <;> simp [hm]
    · rw [if_neg hen, hf.mem_attributes_iff]
      by_cases hm : f.owner m = some n
      · simp [hm, Ne.symm hen]
      · simp [hm]
  · rw [ha]
    split_ifs
    · exact List.nodup_nil
    · exact hf.nodup_attributes e

/-- Attribute nodes stay sound where an element comes to own one more, `a`, and keeps no other of
its name. -/
theorem SoundAttributes.gain (hf : f.SoundAttributes) (hk : ∀ n, g.kind n = f.kind n) {e : NodeId}
    (he : (f.kind e).isElement = true)
    (ho : ∀ {q b}, g.owner b = some q → b = a ∧ q = e ∨
      f.owner b = some q ∧ (q = e → (f.kind b).attrName ≠ (f.kind a).attrName))
    (hmem : ∀ {q b}, b ∈ g.attributes q ↔ g.owner b = some q) (hd : ∀ q, (g.attributes q).Nodup) :
    g.SoundAttributes where
  mem_attributes_iff := hmem
  nodup_attributes := hd
  isElement_of_owner := by
    intro q b h
    rw [hk]
    rcases ho h with ⟨-, rfl⟩ | ⟨h, -⟩
    · exact he
    · exact hf.isElement_of_owner h
  eq_of_attrName_eq := by
    intro q b c hb hc
    rw [hk, hk]
    intro heq
    rcases ho hb with ⟨rfl, hq⟩ | ⟨hb, hbname⟩ <;> rcases ho hc with ⟨rfl, hq'⟩ | ⟨hc, hcname⟩
    · rfl
    · exact absurd heq.symm (hcname hq)
    · exact absurd heq (hbname hq')
    · exact hf.eq_of_attrName_eq hb hc heq
  isSmall_attrName := fun n => hk n ▸ hf.isSmall_attrName n

/-- A new link from `n` to `p` keeps parents from leading back if `p` is not below `n`. -/
theorem wellFounded_of_link (hf : WellFounded fun p n => f.parent n = some p)
    (hg : ∀ m, g.parent m = if m = n then some p else f.parent m) (hnp : ¬ f.Above n p) :
    WellFounded fun p n => g.parent n = some p := by
  -- What is not below `n` keeps its way up, then `n` has one, then all that is below `n`.
  have hfree : ∀ m, ¬ f.Above n m → Acc (fun p n => g.parent n = some p) m := by
    intro m
    induction m using hf.induction with
    | _ m ih =>
      intro hm
      refine Acc.intro m fun q hq => ?_
      have hmn : m ≠ n := fun e => hm (e ▸ Above.refl m)
      rw [hg, if_neg hmn] at hq
      exact ih q hq fun h => hm (h.trans (Above.of_parent hq))
  have hself : Acc (fun p n => g.parent n = some p) n := by
    refine Acc.intro n fun q hq => ?_
    rw [hg, if_pos rfl] at hq
    exact Option.some.inj hq ▸ hfree p hnp
  refine ⟨fun m => ?_⟩
  induction m using hf.induction with
  | _ m ih =>
    by_cases hmn : m = n
    · exact hmn ▸ hself
    · refine Acc.intro m fun q hq => ?_
      rw [hg, if_neg hmn] at hq
      exact ih q hq

end LiveMarkup.Forest
