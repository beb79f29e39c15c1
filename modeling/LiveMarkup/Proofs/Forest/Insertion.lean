import LiveMarkup.Proofs.Forest.History
import LiveMarkup.Proofs.Forest.Replacing

/-!
# What an insertion does

An insertion is refused before anything has changed, or it does all of its work
(`Sound.insertBefore_exact`).  The place is looked for after the node has been taken out of its
former place, which may be among the same children and before the reference.  The proof cuts the old
list of children where the node is to go (`Cut`); the part before the cut, without the node, is as
long as the number that the search gives (`Sound.insertBefore_of_cut`).
-/

namespace LiveMarkup.Forest

variable {f g h : Forest} {m n p q r v : NodeId} {as bs cs ns : List NodeId}
  {reference : Option NodeId}

/-! ### Nodes that are only moved -/

/-- All nodes of `f` are in `g` as they were, up to their links and their children, and new nodes
have no attribute nodes. -/
structure Rearranges (f g : Forest) : Prop where
  size_le : f.size ≤ g.size
  cell_eq {m : NodeId} : m < f.size →
    g.cell m = { f.cell m with parent := g.link m, children := g.children m }
  attributes_eq (m : NodeId) : g.attributes m = f.attributes m

namespace Rearranges

theorem refl (f : Forest) : Rearranges f f := ⟨le_rfl, fun _ => rfl, fun _ => rfl⟩

theorem trans (hfg : Rearranges f g) (hgh : Rearranges g h) : Rearranges f h := by
  refine ⟨hfg.size_le.trans hgh.size_le, fun hm => ?_, fun m =>
    (hgh.attributes_eq m).trans (hfg.attributes_eq m)⟩
  rw [hgh.cell_eq (hm.trans_le hfg.size_le), hfg.cell_eq hm]

theorem kind_eq (hfg : Rearranges f g) (hm : m < f.size) : g.kind m = f.kind m := by
  rw [kind, hfg.cell_eq hm, kind]

theorem create (f : Forest) (k : Kind) (s : String) : Rearranges f (f.create k s).2 := by
  refine ⟨by simp, fun {m} hm => ?_, fun _ => by simp⟩
  have hcell : (f.create k s).2.cell m = f.cell m := (Grows.create f k s).cell_eq hm
  rw [link, children, hcell]

theorem setParent (f : Forest) (n : NodeId) (q : Option NodeId) :
    Rearranges f (f.setParent n q) := by
  refine ⟨by simp, fun {m} _ => ?_, fun _ => by simp⟩
  rw [link, children, cell_setParent]
  split_ifs with hm
  · rw [hm.1]
  · rfl

theorem setChildren (f : Forest) (n : NodeId) (change : List NodeId → List NodeId) :
    Rearranges f (f.setChildren n change) := by
  refine ⟨by simp, fun {m} _ => ?_, fun _ => by simp⟩
  rw [link, children, cell_setChildren]
  split_ifs with hm
  · rw [hm.1]
  · rfl

theorem detach (f : Forest) (n : NodeId) : Rearranges f (f.detach n) := by
  unfold Forest.detach
  split
  · exact (setChildren f _ _).trans (setParent _ n none)
  · exact setParent f n none

theorem takeChildren (f : Forest) (n : NodeId) : Rearranges f (f.takeChildren n).2 := by
  have hcut (cs : List NodeId) (g : Forest) :
      Rearranges g (cs.foldl (fun g c => g.setParent c none) g) := by
    induction cs generalizing g with
    | nil => exact refl g
    | cons c cs ih => exact (setParent g c none).trans (ih _)
  exact (setChildren f n fun _ => []).trans (hcut _ _)

theorem pickUp (f : Forest) (n : NodeId) : Rearranges f (f.pickUp n).2 := by
  unfold Forest.pickUp
  split_ifs
  · exact takeChildren f n
  · exact detach f n

theorem insertAllAt (f : Forest) (p : NodeId) (i : ℕ) (ns : List NodeId) :
    Rearranges f (f.insertAllAt p i ns) := by
  induction ns generalizing f i with
  | nil => exact refl f
  | cons n ns ih => exact ((setParent f n _).trans (setChildren _ p _)).trans (ih _ _)

theorem insertBefore (f : Forest) (p n : NodeId) (reference : Option NodeId) :
    Rearranges f (f.insertBefore p n reference).2 := by
  unfold Forest.insertBefore
  cases f.insertFault? p n reference with
  | some fault => exact refl f
  | none =>
    simp only
    split
    · exact (pickUp f n).trans (insertAllAt _ _ _ _)
    · exact pickUp f n

theorem insertEach (f : Forest) (p anchor : NodeId) (ns : List NodeId) :
    Rearranges f (f.insertEach p anchor ns).2 := by
  induction ns generalizing f with
  | nil => exact refl f
  | cons n ns ih =>
    rw [Forest.insertEach]
    split_ifs
    · exact ih f
    · have hfirst := insertBefore f p n (some anchor)
      split
      · next g heq =>
        rw [heq] at hfirst
        exact hfirst.trans (ih g)
      · exact hfirst

theorem replaceWith (f : Forest) (n : NodeId) (ns : List NodeId) :
    Rearranges f (f.replaceWith n ns).2 := by
  unfold Forest.replaceWith
  split
  · exact refl f
  · next p _ =>
    have hall := insertEach f p n ns
    split
    · next g heq =>
      rw [heq] at hall
      simp only
      split_ifs
      · exact hall
      · exact hall.trans (detach g n)
    · exact hall

/-- Attribute nodes keep their owners. -/
theorem owner_eq (hf : f.Sound) (hg : g.Sound) (hfg : Rearranges f g) (m : NodeId) :
    g.owner m = f.owner m := by
  refine Option.ext fun e => ?_
  rw [← hg.mem_attributes_iff, ← hf.mem_attributes_iff, hfg.attributes_eq]

end Rearranges

/-! ### Lists of children -/

/-- The children of a node, cut where `n` is to go: at the end, before another child, or after `n`
itself, that is before the sibling that follows it if there is one. -/
inductive Cut (n : NodeId) : Option NodeId → List NodeId → List NodeId → Prop where
  | last (cs : List NodeId) : Cut n none cs []
  | before {r : NodeId} (hr : r ≠ n) (as bs : List NodeId) : Cut n (some r) as (r :: bs)
  | itself (as bs : List NodeId) : Cut n (some n) (as ++ [n]) bs

/-- Every list can be cut where `n` is to go if the reference is in it. -/
theorem exists_cut (n : NodeId) (hr : ∀ r, reference = some r → r ∈ cs) :
    ∃ as bs, cs = as ++ bs ∧ Cut n reference as bs := by
  rcases reference with _ | r
  · exact ⟨cs, [], (List.append_nil cs).symm, .last cs⟩
  · obtain ⟨as, bs, rfl⟩ := List.append_of_mem (hr r rfl)
    by_cases hrn : r = n
    · subst hrn
      exact ⟨as ++ [r], bs, by simp, .itself as bs⟩
    · exact ⟨as, r :: bs, rfl, .before hrn as bs⟩

theorem insertIdx_length_append (as bs : List NodeId) (n : NodeId) :
    (as ++ bs).insertIdx as.length n = as ++ n :: bs := by
  induction as with
  | nil => exact List.insertIdx_zero
  | cons a as ih => rw [List.cons_append, List.length_cons, List.insertIdx_succ_cons, ih,
      List.cons_append]

theorem idxOf_length (hr : r ∉ as) : (as ++ r :: bs).idxOf r = as.length := by
  rw [List.idxOf_append_of_notMem hr, List.idxOf_cons_self, Nat.add_zero]

theorem replaced_append_cons {ms : List NodeId} (has : n ∉ as) (hbs : n ∉ bs) :
    replaced n ms (as ++ n :: bs) = as ++ ms ++ bs := by
  rw [replaced_append, replaced_of_not_mem has, ← List.singleton_append, replaced_append,
    replaced_singleton, replaced_of_not_mem hbs, List.append_assoc]

/-- A child is not listed twice. -/
theorem Sound.notMem_of_children_eq (hf : f.Sound) (hc : f.children p = as ++ n :: bs) :
    n ∉ as ∧ n ∉ bs := by
  have hnodup := hf.nodup_children p
  rw [hc] at hnodup
  obtain ⟨-, hright, hdisjoint⟩ := List.nodup_append.1 hnodup
  exact ⟨fun hin => hdisjoint n hin n List.mem_cons_self rfl, (List.nodup_cons.1 hright).1⟩

/-- Nodes that are put among the children of `p` stand between those before the place and the
others. -/
theorem children_insertAllAt (hp : p < f.size) (hc : f.children p = as ++ bs) :
    (f.insertAllAt p as.length ns).children p = as ++ ns ++ bs := by
  induction ns generalizing f as with
  | nil => rw [List.append_nil, insertAllAt, hc]
  | cons n ns ih =>
    have hone : (f.insertAt p as.length n).children p = (as ++ [n]) ++ bs := by
      rw [children_insertAt _ hp, if_pos rfl, hc, insertIdx_length_append, List.append_assoc,
        List.singleton_append]
    have hrest := ih (f := f.insertAt p as.length n) (by simpa using hp) hone
    rw [List.length_append, List.length_singleton] at hrest
    rw [insertAllAt, hrest]
    simp

theorem children_insertAllAt_of_ne (i : ℕ) (hm : m ≠ p) :
    (f.insertAllAt p i ns).children m = f.children m := by
  induction ns generalizing f i with
  | nil => rfl
  | cons n ns ih =>
    have hout : ¬ (m = p ∧ p < (f.setParent n (some p)).size) := fun e => hm e.1
    rw [insertAllAt, ih, insertAt, children_setChildren, if_neg hout, children_setParent]

theorem link_insertAllAt (i : ℕ) (hns : ∀ n ∈ ns, n < f.size) :
    (f.insertAllAt p i ns).link m = if m ∈ ns then some p else f.link m := by
  induction ns generalizing f i with
  | nil => simp [insertAllAt]
  | cons n ns ih =>
    obtain ⟨hn, hrest⟩ := List.forall_mem_cons.1 hns
    rw [insertAllAt, ih _ (by simpa using hrest), link_insertAt _ hn]
    by_cases hm : m ∈ ns <;> simp [hm]

/-! ### Picking a node up -/

/-- The nodes that come with `v`: the children of a fragment, otherwise `v` itself. -/
def brings (f : Forest) (v : NodeId) : List NodeId :=
  if f.kind v = .fragment then f.children v else [v]

theorem fst_pickUp (f : Forest) (v : NodeId) : (f.pickUp v).1 = f.brings v := by
  unfold pickUp brings
  split_ifs <;> rfl

theorem link_pickUp : (f.pickUp n).2.link m = if m ∈ f.brings n then none else f.link m := by
  unfold pickUp brings
  by_cases hn : f.kind n = .fragment
  · rw [if_pos hn, if_pos hn]
    exact link_takeChildren
  · simp only [if_neg hn, List.mem_singleton]
    exact link_detach

theorem mem_emptied : m ∈ f.emptied n ↔ f.kind n = .fragment ∧ m = n := by
  unfold emptied
  split_ifs with hn <;> simp [hn]

/-- The node that holds what `n` brings along is the former parent of `n` or `n` itself. -/
theorem Sound.parent_of_mem_brings (hf : f.Sound) (hm : m ∈ f.brings n) :
    m = n ∧ f.kind n ≠ .fragment ∨ f.parent m = some n ∧ f.kind n = .fragment := by
  unfold brings at hm
  split_ifs at hm with hn
  · exact Or.inr ⟨hf.mem_children_iff.1 hm, hn⟩
  · exact Or.inl ⟨List.mem_singleton.1 hm, hn⟩

theorem Sound.children_pickUp (hf : f.Sound) :
    (f.pickUp n).2.children m =
      if m ∈ f.emptied n then [] else (f.children m).filter (· != n) := by
  have hsame (hn : f.kind n = .fragment) : (f.children m).filter (· != n) = f.children m := by
    refine List.filter_eq_self.2 fun c hc => ?_
    have hne : c ≠ n := by
      rintro rfl
      exact hf.ne_fragment_of_parent (hf.mem_children_iff.1 hc) hn
    simpa using hne
  unfold Forest.pickUp emptied
  split_ifs with hn hm hm
  · rw [children_takeChildren, if_pos (List.mem_singleton.1 hm)]
  · rw [children_takeChildren, if_neg (fun e => hm (List.mem_singleton.2 e)), hsame hn]
  · cases hm
  · exact hf.children_detach_eq

/-! ### The place of an insertion -/

/-- Why `n` cannot be put among the children of `p` before `reference`: `p` has no children, `n` is
an attribute node, `p` is in `n`, or `reference` is elsewhere. -/
def Refuses (f : Forest) (p n : NodeId) (reference : Option NodeId) : Prop :=
  ¬ (f.kind p).holdsChildren = true ∨ (f.kind n).isAttr = true ∨ f.Above n p ∨
    ∃ r, reference = some r ∧ r ∉ f.children p

theorem ne_referenceLost {fault : Fault} (h : f.insertFault? p n reference = some fault) :
    fault ≠ .referenceLost := by
  rintro rfl
  unfold insertFault? at h
  split_ifs at h
  · cases h
  · cases h
  · cases h
  · split at h
    · split_ifs at h
      cases h
    · cases h

namespace Sound

variable (hf : f.Sound)

include hf

theorem insertFault?_eq_none_iff :
    f.insertFault? p n reference = none ↔ ¬ f.Refuses p n reference := by
  constructor
  · intro h
    obtain ⟨hp, ha, habove, hr⟩ := hf.of_insertFault?_eq_none h
    rintro (hp' | ha' | habove' | ⟨r, hr', hout⟩)
    · exact hp' hp
    · exact ha ha'
    · exact habove habove'
    · exact hout (hf.mem_children_iff.2 (hr r hr'))
  · intro h
    unfold Refuses at h
    push Not at h
    obtain ⟨hp, ha, habove, hr⟩ := h
    have hout : f.contains n p = false := by
      rw [Bool.eq_false_iff]
      exact fun hin => habove (hf.contains_iff.1 hin)
    cases reference with
    | none => simp [insertFault?, hp, ha, hout]
    | some r => simp [insertFault?, hp, ha, hout, hf.mem_children_iff.1 (hr r rfl)]

/-- What is refused is refused before anything has changed. -/
theorem insertBefore_of_refuses (h : f.Refuses p n reference) :
    ∃ fault, fault ≠ .referenceLost ∧ f.insertBefore p n reference = (.error fault, f) := by
  have hsome : f.insertFault? p n reference ≠ none := fun hnone =>
    hf.insertFault?_eq_none_iff.1 hnone h
  obtain ⟨fault, hfault⟩ := Option.ne_none_iff_exists'.1 hsome
  refine ⟨fault, ne_referenceLost hfault, ?_⟩
  rw [Forest.insertBefore, hfault]

theorem nextSibling_eq (hc : f.children p = as ++ n :: bs) : f.nextSibling n = bs.head? := by
  have hn : n ∈ f.children p := hc ▸ by simp
  have hp : f.parent n = some p := hf.mem_children_iff.1 hn
  have hi : f.indexInParent n = some as.length := by
    rw [indexInParent_eq hp hn, hc, idxOf_length (hf.notMem_of_children_eq hc).1]
  unfold nextSibling
  simp only [hp, hi, hc]
  rw [List.getElem?_append_right (by omega), show as.length + 1 - as.length = 1 by omega,
    List.getElem?_cons_succ, ← List.head?_eq_getElem?]

section Place

variable (habove : ¬ f.Above n p)

include habove

omit hf in
theorem not_mem_emptied : p ∉ f.emptied n := by
  intro hp
  obtain rfl : p = n := (mem_emptied.1 hp).2
  exact habove (Above.refl p)

/-- The place of another child of `p` once `n` has been picked up. -/
theorem indexInParent_pickUp (hn : n < f.size) (ha : ¬ (f.kind n).isAttr = true)
    (hc : f.children p = as ++ r :: bs) (hr : r ≠ n) :
    (f.pickUp n).2.indexInParent r = some (as.filter (· != n)).length := by
  have hs : (f.pickUp n).2.Sound := (hf.pickUp hn ha habove).1
  have hc' : (f.pickUp n).2.children p = as.filter (· != n) ++ r :: bs.filter (· != n) := by
    rw [hf.children_pickUp, if_neg (not_mem_emptied habove), hc, List.filter_append,
      List.filter_cons_of_pos (by simpa using hr)]
  have hin : r ∈ (f.pickUp n).2.children p := hc' ▸ by simp
  rw [indexInParent_eq (hs.mem_children_iff.1 hin) hin, hc',
    idxOf_length (hs.notMem_of_children_eq hc').1]

/-- An insertion that is not refused puts what `n` brings along at the cut. -/
theorem insertBefore_of_cut (hn : n < f.size) (ha : ¬ (f.kind n).isAttr = true)
    (hfault : f.insertFault? p n reference = none) (hc : f.children p = as ++ bs)
    (hcut : Cut n reference as bs) :
    f.insertBefore p n reference = (.ok (),
      (f.pickUp n).2.insertAllAt p (as.filter (· != n)).length (f.brings n)) := by
  have hlast (hbs : bs = []) :
      ((f.pickUp n).2.children p).length = (as.filter (· != n)).length := by
    rw [hf.children_pickUp, if_neg (not_mem_emptied habove), hc, hbs, List.append_nil]
  unfold Forest.insertBefore
  rw [hfault]
  simp only [fst_pickUp]
  cases hcut with
  | last cs => simp only [reduceCtorEq, if_false, hlast rfl]
  | @before r hr as bs =>
    simp only [Option.some.injEq, hr, if_false, hf.indexInParent_pickUp habove hn ha hc hr]
  | itself as bs =>
    rw [List.append_assoc, List.singleton_append] at hc
    simp only [if_true, hf.nextSibling_eq hc]
    cases bs with
    | nil => simp only [List.head?_nil, hlast rfl]
    | cons b bs =>
      -- The sibling that follows is another node, because no child is listed twice.
      have hbn : b ≠ n := by
        rintro rfl
        exact (hf.notMem_of_children_eq hc).2 List.mem_cons_self
      have hc' : f.children p = (as ++ [n]) ++ b :: bs := by
        rw [hc, List.append_assoc, List.singleton_append]
      simp only [List.head?_cons, hf.indexInParent_pickUp habove hn ha hc' hbn]

end Place

end Sound

/-! ### What an insertion does -/

/-- What `n` brings along is put among the children of `p`, between `as` and `bs`, and `n` is taken
out of its former place.  Nothing else changes. -/
structure Inserts (f g : Forest) (p n : NodeId) (as bs : List NodeId) : Prop where
  children_eq : g.children p = as.filter (· != n) ++ f.brings n ++ bs.filter (· != n)
  /-- The former parent loses `n`. -/
  children_former {q : NodeId} : f.parent n = some q → q ≠ p →
    g.children q = (f.children q).filter (· != n)
  /-- A fragment has nothing left. -/
  children_fragment : f.kind n = .fragment → g.children n = []
  children_other {q : NodeId} : q ≠ p → f.parent n ≠ some q → (f.kind n = .fragment → q ≠ n) →
    g.children q = f.children q
  link_eq (m : NodeId) : g.link m = if m ∈ f.brings n then some p else f.link m
  size_eq : g.size = f.size
  rearranges : Rearranges f g

namespace Sound

variable (hf : f.Sound)

include hf

theorem lt_size_of_mem_brings (hn : n < f.size) (hm : m ∈ f.brings n) : m < f.size := by
  rcases hf.parent_of_mem_brings hm with ⟨rfl, -⟩ | ⟨hparent, -⟩
  · exact hn
  · exact lt_size_of_parent hparent

/-- An insertion that nothing stands against does its work, wherever the list can be cut. -/
theorem inserts_of_cut (hn : n < f.size) (h : ¬ f.Refuses p n reference)
    (hc : f.children p = as ++ bs) (hcut : Cut n reference as bs) :
    ∃ g, f.insertBefore p n reference = (.ok (), g) ∧ Inserts f g p n as bs := by
  have hfault := hf.insertFault?_eq_none_iff.2 h
  obtain ⟨hp, ha, habove, -⟩ := hf.of_insertFault?_eq_none hfault
  have hpsize : p < (f.pickUp n).2.size := by
    rw [pickUp_frame.1]
    exact lt_size_of_holdsChildren hp
  have hpicked : (f.pickUp n).2.children p = as.filter (· != n) ++ bs.filter (· != n) := by
    rw [hf.children_pickUp, if_neg (not_mem_emptied habove), hc, List.filter_append]
  have hother {q : NodeId} (hq : q ≠ p) :
      ((f.pickUp n).2.insertAllAt p (as.filter (· != n)).length (f.brings n)).children q =
        if q ∈ f.emptied n then [] else (f.children q).filter (· != n) := by
    rw [children_insertAllAt_of_ne _ hq, hf.children_pickUp]
  refine ⟨_, hf.insertBefore_of_cut habove hn ha hfault hc hcut,
    children_insertAllAt hpsize hpicked, fun {q} hq hqp => ?_, fun hfr => ?_,
    fun {q} hqp hq hqn => ?_, fun m => ?_, ?_,
    (Rearranges.pickUp f n).trans (.insertAllAt _ _ _ _)⟩
  · have hkeeps : q ∉ f.emptied n := fun hin =>
      hf.ne_fragment_of_parent hq (mem_emptied.1 hin).1
    rw [hother hqp, if_neg hkeeps]
  · have hnp : n ≠ p := by
      rintro rfl
      exact habove (Above.refl n)
    rw [hother hnp, if_pos (mem_emptied.2 ⟨hfr, rfl⟩)]
  · have hkeeps : q ∉ f.emptied n := fun hin => hqn (mem_emptied.1 hin).1 (mem_emptied.1 hin).2
    rw [hother hqp, if_neg hkeeps]
    refine List.filter_eq_self.2 fun c hcq => ?_
    have hne : c ≠ n := by
      rintro rfl
      exact hq (hf.mem_children_iff.1 hcq)
    simpa using hne
  · rw [link_insertAllAt, link_pickUp]
    · split_ifs <;> rfl
    · intro m hm
      rw [pickUp_frame.1]
      exact hf.lt_size_of_mem_brings hn hm
  · rw [(insertAllAt_frame _ _).1, pickUp_frame.1]

/-- Inserting `n` into `p` before `reference` fails exactly if `p` has no children, `n` is an
attribute node, `p` is in `n`, or `reference` is not a child of `p`, and then nothing has changed
and the error is not that the reference was lost on the way.  Otherwise what `n` brings along is put
where the old list of children is cut, and nothing else changes. -/
theorem insertBefore_exact (hn : n < f.size) (p : NodeId) (reference : Option NodeId) :
    (f.Refuses p n reference → ∃ fault, fault ≠ .referenceLost ∧
      f.insertBefore p n reference = (.error fault, f)) ∧
    (¬ f.Refuses p n reference → ∃ g as bs, f.insertBefore p n reference = (.ok (), g) ∧
      f.children p = as ++ bs ∧ Cut n reference as bs ∧ Inserts f g p n as bs) := by
  refine ⟨hf.insertBefore_of_refuses, fun h => ?_⟩
  have hr (r : NodeId) (hr : reference = some r) : r ∈ f.children p := by
    by_contra hout
    exact h (Or.inr (Or.inr (Or.inr ⟨r, hr, hout⟩)))
  obtain ⟨as, bs, hc, hcut⟩ := exists_cut n hr
  obtain ⟨g, hinsert, hinserts⟩ := hf.inserts_of_cut hn h hc hcut
  exact ⟨g, as, bs, hinsert, hc, hcut, hinserts⟩

end Sound

/-- A list of two items, and a fragment with a text and a comment. -/
def itemsBesideFragment : List Operation :=
  [.element "ul", .element "li", .element "li", .append 0 1, .append 0 2, .fragment, .text "a",
    .comment "", .append 3 4, .append 3 5]

theorem insertBefore_exact_fragment :
    (Forest.empty.performAll itemsBesideFragment).Sound ∧
      3 < (Forest.empty.performAll itemsBesideFragment).size ∧
      ¬ (Forest.empty.performAll itemsBesideFragment).Refuses 0 3 (some 2) ∧
      ∃ g as bs, (Forest.empty.performAll itemsBesideFragment).insertBefore 0 3 (some 2) =
          (.ok (), g) ∧
        (Forest.empty.performAll itemsBesideFragment).children 0 = as ++ bs ∧
        Cut 3 (some 2) as bs ∧
        Inserts (Forest.empty.performAll itemsBesideFragment) g 0 3 as bs ∧
        g.children 0 = [1, 4, 5, 2] := by
  have hf : (Forest.empty.performAll itemsBesideFragment).Sound :=
    Sound.empty.performAll (by decide +kernel)
  have hn : 3 < (Forest.empty.performAll itemsBesideFragment).size := by decide +kernel
  have h : ¬ (Forest.empty.performAll itemsBesideFragment).Refuses 0 3 (some 2) :=
    hf.insertFault?_eq_none_iff.1 (by decide +kernel)
  obtain ⟨g, as, bs, hinsert, hc, hcut, hinserts⟩ := (hf.insertBefore_exact hn 0 (some 2)).2 h
  refine ⟨hf, hn, h, g, as, bs, hinsert, hc, hcut, hinserts, ?_⟩
  have hg : g = ((Forest.empty.performAll itemsBesideFragment).insertBefore 0 3 (some 2)).2 := by
    rw [hinsert]
  rw [hg]
  decide +kernel

end LiveMarkup.Forest
