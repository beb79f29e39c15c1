import LiveMarkup.Proofs.Run.Substituted
import LiveMarkup.Proofs.Screen.Laid

/-!
# A copy of a template as a sheet

When the content of a template is planted, the copy is a sheet on which the values for the comments
and attributes among its holes are due (`Template.laid_copy`), and it will look like the template
with the looks of the values at its holes (`Template.shown_copy`). -/

namespace LiveMarkup

open Forest

/-- Whether a value can be bound to a hole at a node of the kind: any value at a comment, a text or
nothing at an attribute node, and nothing elsewhere. -/
def Kind.Takes (v : Staged) : Kind → Prop
  | .comment => True
  | .attr _ => v.Plain
  | _ => v = .empty

/-- Each value can be bound to the node at its hole in a copy of the template. -/
def Template.Takes (t : Template) (f : Forest) (vs : List Staged) : Prop :=
  ∀ ns, (f.plantFragment t.content).2.descendAll f.size t.paths = .ok ns →
    List.Forall₂ (fun n v => ((f.plantFragment t.content).2.kind n).Takes v) ns vs

/-- The look of the value for the hole with a label. -/
def Staged.lookFor (vs : List Staged) (S : Seen) (shape : String → List Tree) :
    List ℕ → Option Look
  | [i] => vs[i]?.map (look S shape)
  | _ => none

/-- What can be bound to a node can be bound to it at once. -/
theorem Kind.Takes.now {k : Kind} {v : Staged} (h : k.Takes v) : k.Takes v.now := by
  cases k with
  | comment => trivial
  | attr name => exact Staged.Plain.now h
  | element tag | text | fragment =>
    obtain rfl : v = .empty := h
    rfl

/-- When everything has come, holes look as they do with the same values at once. -/
theorem Staged.lookFor_nowAll {vs : List Staged} {S : Seen} (h : HaveCome S vs) (R : Seen)
    (shape : String → List Tree) : lookFor (nowAll vs) R shape = lookFor vs S shape := by
  funext l
  unfold lookFor
  split
  · next i =>
    rw [nowAll_eq_map, List.getElem?_map, Option.map_map]
    cases hv : vs[i]? with
    | none => rfl
    | some v => exact congrArg some (look_now (haveCome_iff.1 h v (List.mem_of_getElem? hv)) R)
  · rfl

/-- The nodes with the given names have no parent, and differ. -/
structure Stocked (f : Forest) (stock : String → Stock) (names : List String) : Prop where
  nodup : names.Nodup
  liesIn : ∀ name ∈ names, (stock name).LiesIn f
  inside : ∀ name ∈ names, ∀ l ∈ (stock name).labels, f.Inside (stock name).node l
  labels_nodup : ∀ name ∈ names, (stock name).labels.Nodup
  inj : ∀ name ∈ names, ∀ other ∈ names, (stock name).node = (stock other).node → name = other

namespace Stocked

variable {f : Forest} {stock : String → Stock} {names : List String}

/-- What lies below nodes without a parent that differ does not overlap. -/
theorem nodup_stockLabels (h : Stocked f stock names) (hf : f.Sound) :
    (stockLabels stock names).Nodup := by
  refine List.nodup_flatMap.2 ⟨h.labels_nodup, h.nodup.imp_of_mem fun ha hb hab l hla hlb => ?_⟩
  exact hab (h.inj _ ha _ hb (hf.eq_of_inside (h.liesIn _ ha).parent_eq (h.liesIn _ hb).parent_eq
    (h.liesIn _ ha).not_isAttr (h.liesIn _ hb).not_isAttr (h.inside _ ha l hla)
    (h.inside _ hb l hlb)))

theorem sublist {names' : List String} (h : Stocked f stock names) (hsub : names'.Sublist names) :
    Stocked f stock names' :=
  ⟨h.nodup.sublist hsub, fun _ hn => h.liesIn _ (hsub.subset hn),
    fun _ hn => h.inside _ (hsub.subset hn), fun _ hn => h.labels_nodup _ (hsub.subset hn),
    fun _ hn _ hm => h.inj _ (hsub.subset hn) _ (hsub.subset hm)⟩

theorem lt_size (h : Stocked f stock names) : ∀ l ∈ stockLabels stock names, l < f.size := by
  intro l hl
  obtain ⟨name, hname, hl⟩ := List.mem_flatMap.1 hl
  exact (h.liesIn name hname).lt_size l hl

end Stocked

namespace Template

variable {base : String} {segments : List String} {t : Template} {f g : Forest}
  {stock : String → Stock} {ns : List NodeId} {vs : List Staged} {x : NodeId × Staged}

/-- The values that are due in a copy of a template: all but those at elements. -/
def dueIn (g : Forest) (ns : List NodeId) (vs : List Staged) : Due :=
  (ns.zip vs).filter fun x => !(g.kind x.1).isElement

theorem mem_dueIn : x ∈ dueIn g ns vs ↔
    (∃ i : ℕ, ns[i]? = some x.1 ∧ vs[i]? = some x.2) ∧ (g.kind x.1).isElement = false := by
  rw [dueIn, List.mem_filter, Bool.not_eq_true', List.mem_iff_getElem?]
  simp only [List.getElem?_zip_eq_some]

theorem names_dueIn (hlen : vs.length = ns.length) :
    (Due.names (dueIn g ns vs)).Sublist (Staged.namesAll vs) := by
  have hsnd : (ns.zip vs).map Prod.snd = vs := List.map_snd_zip hlen.le
  have hsub : ((dueIn g ns vs).map Prod.snd).Sublist ((ns.zip vs).map Prod.snd) :=
    List.filter_sublist.map Prod.snd
  rw [Due.names, Staged.namesAll_eq_flatMap, Staged.namesAll_eq_flatMap]
  exact (hsnd ▸ hsub).flatMap _

section Copy

variable (ht : compile base segments = .ok t) (hg : g = (f.plantFragment t.content).2)
  (hns : g.descendAll f.size t.paths = .ok ns)

include ht hg hns

/-- What is known of the nodes at the holes. -/
theorem copy_spec : f.Instance g t.content f.size ns ∧ ns.length = holeCount segments ∧
    ∀ i n, ns[i]? = some n → StandsFor (Labelled.numberedAll (f.size + 1)
      (cutSource base segments)) i n := by
  subst hg
  obtain ⟨ns', hdescend, hlen, hinstance, hstands⟩ := exists_instance ht f
  obtain rfl : ns' = ns := Except.ok.inj (hdescend.symm.trans hns)
  exact ⟨hinstance, hlen, hstands⟩

/-- No two values are due at one node. -/
theorem targets_dueIn (hlen : ns.length = vs.length) :
    ((dueIn g ns vs).map Prod.fst).Nodup := by
  have hdistinct := (copy_spec ht hg hns).1.distinct
  have hfst : (ns.zip vs).map Prod.fst = ns := List.map_fst_zip hlen.le
  have hmap : (dueIn g ns vs).map Prod.fst = ns.filter fun n => !(g.kind n).isElement := by
    calc (dueIn g ns vs).map Prod.fst
        = ((ns.zip vs).map Prod.fst).filter fun n => !(g.kind n).isElement := by
          rw [List.filter_map]
          rfl
      _ = _ := by rw [hfst]
  rw [hmap, List.Nodup, List.pairwise_filter, List.pairwise_iff_getElem]
  intro i j hi hj hlt hni _ heq
  refine hlt.ne (hdistinct i j ns[i] (List.getElem?_eq_getElem hi) ?_ (by simpa using hni))
  rw [heq]
  exact List.getElem?_eq_getElem hj

omit hns in
/-- A node with a hole can stand for it, and has no other hole unless it is an element. -/
theorem hole_of_label {n i : ℕ} {l : List ℕ}
    (hl : (n, l) ∈ Labelled.labelsAll
      (Labelled.numberedAll (f.size + 1) (cutSource base segments))) (hi : i ∈ l) :
    g.IsHole n ∧ ((g.kind n).isElement = false → l = [i]) := by
  have hfilled := Run.filled_plantFragment f (cutSource base segments)
  rw [← (compile_eq_ok ht).1, ← hg] at hfilled
  have htidy := tidyAll_cutSource base segments
  rw [← Labelled.mapAll_snd_numbered (f.size + 1) (cutSource base segments)] at htidy
  obtain ⟨hhole, hkinds⟩ := hfilled.layout.holds.isHole htidy (n, l) hl i hi rfl
  refine ⟨hhole, fun hk => ?_⟩
  rcases hkinds with ⟨helement, -⟩ | ⟨-, hone, -⟩
  · exact absurd (helement.symm.trans hk) (by decide)
  · exact hone

/-- The node of a value that is due has the hole for the value, and no other. -/
theorem hole_of_mem_dueIn (hx : x ∈ dueIn g ns vs) :
    ∃ i, vs[i]? = some x.2 ∧ ns[i]? = some x.1 ∧ g.IsHole x.1 ∧ (x.1, [i]) ∈ Labelled.labelsAll
      (Labelled.numberedAll (f.size + 1) (cutSource base segments)) := by
  obtain ⟨⟨i, hn, hv⟩, hk⟩ := mem_dueIn.1 hx
  obtain ⟨l, hl, hi⟩ := (copy_spec ht hg hns).2.2 i x.1 hn
  obtain ⟨hhole, hone⟩ := hole_of_label ht hg hl hi
  exact ⟨i, hv, hn, hhole, hone hk ▸ hl⟩

/-- The value that is due at a comment or an attribute is the one for its hole. -/
theorem lookAt_dueIn (hlen : ns.length = vs.length) {n : ℕ} {l : List ℕ}
    (hl : (n, l) ∈ Labelled.labelsAll
      (Labelled.numberedAll (f.size + 1) (cutSource base segments)))
    (hk : (g.kind n).isElement = false) (S : Seen) :
    (dueIn g ns vs).lookAt stock S n =
      Staged.lookFor vs S (fun name => Labelled.trees (stock name).trees) l := by
  obtain ⟨-, hcount, hstands⟩ := copy_spec ht hg hns
  have hd := Labelled.nodup_labels_numberedAll (f.size + 1) (cutSource base segments)
  by_cases hnil : l = []
  · rw [hnil, lookAt_of_not_mem]
    · rfl
    · intro hin
      obtain ⟨x, hx, rfl⟩ := List.mem_map.1 hin
      obtain ⟨i, -, -, -, hl'⟩ := hole_of_mem_dueIn ht hg hns hx
      exact List.cons_ne_nil _ _ ((congrArg Prod.snd (List.inj_on_of_nodup_map hd hl' hl rfl)).trans
        hnil)
  · obtain ⟨i, hi⟩ := List.exists_mem_of_ne_nil l hnil
    obtain rfl := (hole_of_label ht hg hl hi).2 hk
    -- The path of hole `i` leads to the only node with this hole.
    have hnumbers := Labelled.mapAll_snd_numbered (f.size + 1) (cutSource base segments)
    have hlt : i < ns.length := by
      rw [hcount, ← mem_holes_iff ht, ← hnumbers, Labelled.labelsAll_mapAll]
      exact List.mem_flatten.2 ⟨[i], List.mem_map_of_mem (f := Prod.snd) hl, hi⟩
    have hnode : ns[i]? = some n := by
      obtain ⟨l', hl', hi'⟩ := hstands i ns[i] (List.getElem?_eq_getElem hlt)
      have hholes := nodup_holes ht
      rw [← hnumbers] at hholes
      rw [List.getElem?_eq_getElem hlt]
      exact congrArg (fun x => some (Prod.fst x)) (Run.eq_of_mem_holes hholes hl' hl hi' hi)
    have hvalue : vs[i]? = some vs[i] := List.getElem?_eq_getElem (hlen ▸ hlt)
    rw [lookAt_of_mem (targets_dueIn ht hg hns hlen) (mem_dueIn.2 ⟨⟨i, hnode, hvalue⟩, hk⟩),
      Staged.lookFor, hvalue, Option.map_some]

/-- A copy of a template is a sheet on which the values are due. -/
theorem laid_copy (hf : f.Sound) (hstock : Stocked f stock (Staged.namesAll vs))
    (htakes : List.Forall₂ (fun n v => (g.kind n).Takes v) ns vs) :
    Laid stock f.size ⟨g, Labelled.mapAll Prod.fst
      (Labelled.numberedAll (f.size + 1) (cutSource base segments)), dueIn g ns vs⟩ := by
  have hlen := htakes.length_eq
  obtain ⟨hcontent, -⟩ := compile_eq_ok ht
  obtain ⟨-, hkind, hgrows, hlink, hlayout⟩ := f.holdsBelow_plantFragment (cutSource base segments)
  rw [← hcontent, ← hg] at hkind hgrows hlink hlayout
  have hnumbers : Labelled.labelsAll (Labelled.mapAll Prod.fst
      (Labelled.numberedAll (f.size + 1) (cutSource base segments))) =
        List.range' (f.size + 1) (Labelled.labelsAll (cutSource base segments)).length := by
    rw [Labelled.labelsAll_mapAll, Labelled.fst_labelsAll_numbered]
  have hnamed := hstock.sublist (names_dueIn (g := g) hlen.symm)
  refine ⟨?_, hkind, hlink, HoldsBelow.mapAll hlayout, fun name hname => ?_, ?_, fun x hx => ?_,
    targets_dueIn ht hg hns hlen⟩
  · rw [hg, hcontent]
    exact hf.plantFragment (namedAll_cutSource base segments)
  · exact (hnamed.liesIn name hname).congr hgrows.size_le fun l hl =>
      hgrows.cell_eq ((hnamed.liesIn name hname).lt_size l hl)
  · -- The nodes of the copy are new.
    rw [hnumbers]
    refine List.nodup_append.2 ⟨List.nodup_cons.2 ⟨fun hin => ?_, List.nodup_range'⟩,
      hnamed.nodup_stockLabels hf, fun l hl m hm => ?_⟩
    · exact absurd (List.mem_range'_1.1 hin).1 (Nat.not_succ_le_self f.size)
    · have hlt := hnamed.lt_size m hm
      rcases List.mem_cons.1 hl with rfl | hl
      · exact hlt.ne'
      · exact (hlt.trans (List.mem_range'_1.1 hl).1).ne'
  · obtain ⟨hzip, hk⟩ := List.mem_filter.1 hx
    obtain ⟨i, -, -, hhole, hl⟩ := hole_of_mem_dueIn ht hg hns hx
    have htake := (List.forall₂_iff_zip.1 htakes).2 hzip
    refine ⟨?_, ?_⟩
    · rw [Labelled.labelsAll_mapAll]
      exact List.mem_map_of_mem (f := Prod.fst) hl
    · rcases hhole with ⟨hcomment, hdata⟩ | ⟨⟨name, hattr⟩, hdata⟩ | helement
      · exact ⟨hdata, Or.inl hcomment⟩
      · rw [hattr] at htake
        exact ⟨hdata, Or.inr ⟨by rw [hattr]; rfl, htake⟩⟩
      · rw [helement] at hk
        cases hk

/-- The copy will look like the template with the looks of the values at its holes. -/
theorem shown_copy (hlen : ns.length = vs.length) (S : Seen) :
    Sheet.shown ⟨g, Labelled.mapAll Prod.fst
        (Labelled.numberedAll (f.size + 1) (cutSource base segments)), dueIn g ns vs⟩ stock S =
      Labelled.expandAll (Staged.lookFor vs S fun name => Labelled.trees (stock name).trees)
        (cutSource base segments) := by
  obtain ⟨-, -, -, -, hlayout⟩ := f.holdsBelow_plantFragment (cutSource base segments)
  rw [← (compile_eq_ok ht).1, ← hg] at hlayout
  have hnumbers := Labelled.mapAll_snd_numbered (f.size + 1) (cutSource base segments)
  have hlooks := Labelled.expandAll_mapAll
    (τ := Staged.lookFor vs S fun name => Labelled.trees (stock name).trees) Prod.snd
    (Labelled.numberedAll (f.size + 1) (cutSource base segments))
  rw [hnumbers] at hlooks
  rw [hlooks, Sheet.shown, Labelled.expandAll_mapAll]
  refine hlayout.holds.expandAll_congr fun l hl hk => Or.inl ?_
  refine lookAt_dueIn ht hg hns hlen hl ?_ S
  rcases hk with hcomment | hattr
  · rw [hcomment]
    rfl
  · cases hkind : g.kind l.1 with
    | attr name => rfl
    | element tag | text | comment | fragment =>
      rw [hkind] at hattr
      cases hattr

end Copy

end Template

end LiveMarkup
