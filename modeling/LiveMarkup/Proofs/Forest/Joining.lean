import Mathlib.Data.List.Flatten
import LiveMarkup.Proofs.Forest.Layout
import LiveMarkup.Proofs.Markup.Joined

/-!
# Joining texts in a layout

`Forest.normalize` walks through a forest that it changes on the way: it appends the data of a text
to the text before it, takes out the texts that are used up or empty, and goes on below the other
siblings.  Where a labelled tree is laid out, the outcome is the layout of the joined tree
(`Forest.HoldsBelow.normalize`).
-/

namespace LiveMarkup.Forest

variable {α : Type} {f g : Forest} {ι : α → NodeId} {m n p : NodeId} {ns ns' : List NodeId}

/-! ### Edits below a node -/

/-- Between `f` and `g` nothing has changed but the nodes `ns` and the list of children of `p`. -/
structure EditsBelow (f g : Forest) (p : NodeId) (ns : List NodeId) : Prop where
  size_eq : g.size = f.size
  cell_eq {m : NodeId} : m ≠ p → m ∉ ns → g.cell m = f.cell m
  holder_eq : g.cell p = { f.cell p with children := g.children p }

namespace EditsBelow

theorem refl (f : Forest) (p : NodeId) : EditsBelow f f p [] :=
  ⟨rfl, fun _ _ => rfl, rfl⟩

theorem mono (h : EditsBelow f g p ns) (hns : ns ⊆ ns') : EditsBelow f g p ns' :=
  ⟨h.size_eq, fun hp hm => h.cell_eq hp fun hin => hm (hns hin), h.holder_eq⟩

theorem trans {k : Forest} (h : EditsBelow f g p ns) (h' : EditsBelow g k p ns) :
    EditsBelow f k p ns :=
  ⟨h'.size_eq.trans h.size_eq, fun hp hm => (h'.cell_eq hp hm).trans (h.cell_eq hp hm), by
    rw [h'.holder_eq, h.holder_eq]⟩

/-- What changes below a node is a change below the node that holds it. -/
theorem of_child (h : EditsBelow f g n ns) (hp : p ≠ n) (hn : p ∉ ns) :
    EditsBelow f g p (n :: ns) := by
  have hcell : g.cell p = f.cell p := h.cell_eq hp hn
  refine ⟨h.size_eq, fun _ hm => h.cell_eq ?_ ?_, by rw [children, hcell]⟩
  · exact fun e => hm (e ▸ List.mem_cons_self)
  · exact fun hin => hm (List.mem_cons_of_mem n hin)

theorem of_cell_eq (hs : g.size = f.size) (hc : ∀ m, g.cell m = f.cell m) : EditsBelow f g p ns :=
  ⟨hs, fun _ _ => hc _, by rw [children, hc]⟩

theorem kind_eq (h : EditsBelow f g p ns) : g.kind p = f.kind p := by
  rw [kind, h.holder_eq, kind]

theorem link_eq (h : EditsBelow f g p ns) : g.link p = f.link p := by
  rw [link, h.holder_eq, link]

theorem attributes_eq (h : EditsBelow f g p ns) : g.attributes p = f.attributes p := by
  rw [attributes, h.holder_eq, attributes]

theorem writeData (f : Forest) (hn : n ≠ p) (change : String → String) :
    EditsBelow f (f.writeData n change) p [n] := by
  refine ⟨by simp, fun _ hm => ?_, ?_⟩
  · rw [cell_writeData, if_neg fun h => hm (by simp [h.1])]
  · rw [children_writeData, cell_writeData, if_neg fun h => hn h.1.symm]
    rfl

theorem detach (h : f.parent n = some p) (hn : n ≠ p) : EditsBelow f (f.detach n) p [n] := by
  have hdetach : f.detach n = (f.setChildren p fun cs => cs.filter (· != n)).setParent n none := by
    rw [Forest.detach, h]
  refine ⟨by simp, fun hp hm => ?_, ?_⟩
  · rw [hdetach, cell_setParent, if_neg fun h => hm (by simp [h.1]), cell_setChildren,
      if_neg fun h => hp h.1]
  · have hcell : (f.detach n).cell p =
        (f.setChildren p fun cs => cs.filter (· != n)).cell p := by
      rw [hdetach, cell_setParent, if_neg fun h => hn h.1.symm]
    rw [children, hcell, cell_setChildren]
    split_ifs <;> rfl

end EditsBelow

/-! ### The roots of a layout -/

theorem Holds.kind_eq_text_iff {q : Option NodeId} {L : Labelled α} (h : Holds f ι q L) :
    f.kind (ι L.label) = .text ↔ L.isText = true := by
  cases L with
  | text l s => exact ⟨fun _ => rfl, fun _ => h.kind_eq⟩
  | comment l s =>
    rw [Labelled.label, h.kind_eq]
    simp [Labelled.isText]
  | element l tag as cs =>
    rw [Labelled.label, h.1.kind_eq]
    simp [Labelled.isText]

theorem HoldsLeaf.parent_eq {k : Kind} {s : String} (h : HoldsLeaf f n (some p) k s)
    (hk : k.isAttr = false) : f.parent n = some p := by
  rw [parent_eq_link, h.kind_eq, hk, h.link_eq]
  simp

theorem HoldsLeaf.append_data {k : Kind} {s : String} {q : Option NodeId}
    (h : HoldsLeaf f n q k s) (hn : n < f.size) (b : String) :
    HoldsLeaf (f.writeData n (· ++ b)) n q k (s ++ b) :=
  ⟨by rw [kind_writeData]; exact h.kind_eq, by rw [link_writeData]; exact h.link_eq,
    by rw [data_writeData, if_pos ⟨rfl, hn⟩, h.data_eq],
    by rw [children_writeData]; exact h.children_eq⟩

/-- The labels of the roots are among all labels. -/
theorem map_label_sublist (Ls : List (Labelled α)) :
    (Ls.map (ι ·.label)).Sublist ((Labelled.labelsAll Ls).map ι) := by
  induction Ls with
  | nil => exact List.Sublist.refl _
  | cons L Ls ih =>
    rw [Labelled.labelsAll, List.map_append, List.map_cons]
    have hroot : [ι L.label].Sublist (L.labels.map ι) :=
      List.singleton_sublist.2 (List.mem_map_of_mem L.label_mem_labels)
    exact hroot.append ih

theorem labelsAll_sublist {Ks Ls : List (Labelled α)} (h : Ks.Sublist Ls) :
    (Labelled.labelsAll Ks).Sublist (Labelled.labelsAll Ls) := by
  rw [Labelled.labelsAll_eq_flatMap, Labelled.labelsAll_eq_flatMap]
  exact h.flatMap Labelled.labels

section Siblings

variable {Ks Ls : List (Labelled α)} {l : α} {s : String}

/-- An edit of some of the siblings leaves the others as they are. -/
theorem HoldsBelow.edit (Ms Ns : List (Labelled α)) (h : HoldsBelow f ι p (Ks ++ (Ms ++ Ls)))
    (hd : (p :: (Labelled.labelsAll (Ks ++ (Ms ++ Ls))).map ι).Nodup)
    (hedits : EditsBelow f g p ((Labelled.labelsAll Ms).map ι))
    (hchildren : g.children p = (Ks ++ (Ns ++ Ls)).map (ι ·.label))
    (hNs : HoldsAll g ι (some p) Ns) : HoldsBelow g ι p (Ks ++ (Ns ++ Ls)) := by
  obtain ⟨hp, hnodup⟩ := List.nodup_cons.1 hd
  rw [Labelled.labelsAll_append, Labelled.labelsAll_append, List.map_append, List.map_append]
    at hp hnodup
  simp only [List.mem_append, not_or] at hp
  obtain ⟨-, htail, hdisjoint⟩ := List.nodup_append.1 hnodup
  obtain ⟨-, -, hdisjoint'⟩ := List.nodup_append.1 htail
  obtain ⟨hKs, hrest⟩ := holdsAll_append.1 h.holds
  obtain ⟨-, hLs⟩ := holdsAll_append.1 hrest
  refine ⟨hchildren, holdsAll_append.2 ⟨hKs.congr fun j hj => ?_, holdsAll_append.2 ⟨hNs,
    hLs.congr fun j hj => ?_⟩⟩⟩
  · have hj' : ι j ∈ (Labelled.labelsAll Ks).map ι := List.mem_map_of_mem hj
    exact hedits.cell_eq (fun e => hp.1 (e ▸ hj')) fun hin =>
      hdisjoint _ hj' _ (List.mem_append_left _ hin) rfl
  · have hj' : ι j ∈ (Labelled.labelsAll Ls).map ι := List.mem_map_of_mem hj
    exact hedits.cell_eq (fun e => hp.2.2 (e ▸ hj')) fun hin => hdisjoint' _ hin _ hj' rfl

/-- A text is taken out from among its siblings. -/
theorem HoldsBelow.detachText (h : HoldsBelow f ι p (Ks ++ .text l s :: Ls))
    (hd : (p :: (Labelled.labelsAll (Ks ++ .text l s :: Ls)).map ι).Nodup) :
    HoldsBelow (f.detach (ι l)) ι p (Ks ++ Ls) ∧ EditsBelow f (f.detach (ι l)) p [ι l] := by
  have hl : HoldsLeaf f (ι l) (some p) .text s := (holdsAll_append.1 h.holds).2.1
  have hparent : f.parent (ι l) = some p := hl.parent_eq rfl
  obtain ⟨hp, hnodup⟩ := List.nodup_cons.1 hd
  have hlp : ι l ≠ p := fun e =>
    hp (by simp [Labelled.labelsAll_append, Labelled.labelsAll, Labelled.labels, e])
  have hedits := EditsBelow.detach hparent hlp
  refine ⟨h.edit [.text l s] [] hd hedits ?_ trivial, hedits⟩
  have hroots := hnodup.sublist (map_label_sublist (Ks ++ .text l s :: Ls))
  rw [children_detach, if_pos hparent, h.children_eq]
  rw [List.map_append, List.map_cons] at hroots ⊢
  have hfresh := (List.nodup_cons.1 (List.nodup_middle.1 hroots)).1
  rw [List.mem_append, not_or] at hfresh
  have hkeep : ∀ ns : List NodeId, ι l ∉ ns → ns.filter (· != ι l) = ns := fun ns hns =>
    List.filter_eq_self.2 fun k hk => bne_iff_ne.2 fun e => hns (e ▸ hk)
  rw [List.filter_append, List.filter_cons, hkeep _ hfresh.1, hkeep _ hfresh.2, List.map_append]
  simp [Labelled.label]

/-- The data of a text grows. -/
theorem HoldsBelow.appendText (h : HoldsBelow f ι p (Ks ++ .text l s :: Ls))
    (hd : (p :: (Labelled.labelsAll (Ks ++ .text l s :: Ls)).map ι).Nodup) (b : String) :
    HoldsBelow (f.writeData (ι l) (· ++ b)) ι p (Ks ++ .text l (s ++ b) :: Ls) ∧
      EditsBelow f (f.writeData (ι l) (· ++ b)) p [ι l] := by
  have hl : HoldsLeaf f (ι l) (some p) .text s := (holdsAll_append.1 h.holds).2.1
  obtain ⟨hp, -⟩ := List.nodup_cons.1 hd
  have hlp : ι l ≠ p := fun e =>
    hp (by simp [Labelled.labelsAll_append, Labelled.labelsAll, Labelled.labels, e])
  have hedits := EditsBelow.writeData f hlp (· ++ b)
  have hleaf := hl.append_data (lt_size_of_parent (hl.parent_eq rfl)) b
  refine ⟨h.edit [.text l s] [.text l (s ++ b)] hd hedits ?_ ⟨hleaf, trivial⟩, hedits⟩
  rw [children_writeData, h.children_eq]
  simp [Labelled.label]

/-! ### Joining a run of texts -/

/-- The text after the text `l` is used up: its data goes to `l`, and it is taken out. -/
theorem HoldsBelow.absorbOne {k : α} {b : String}
    (h : HoldsBelow f ι p (Ks ++ .text l s :: .text k b :: Ls))
    (hd : (p :: (Labelled.labelsAll (Ks ++ .text l s :: .text k b :: Ls)).map ι).Nodup) :
    HoldsBelow ((f.writeData (ι l) (· ++ f.data (ι k))).detach (ι k)) ι p
        (Ks ++ .text l (s ++ b) :: Ls) ∧
      EditsBelow f ((f.writeData (ι l) (· ++ f.data (ι k))).detach (ι k)) p [ι l, ι k] := by
  have hk : HoldsLeaf f (ι k) (some p) .text b := (holdsAll_append.1 h.holds).2.2.1
  obtain ⟨hgrown, hwrite⟩ := h.appendText hd b
  have hassoc : Ks ++ .text l (s ++ b) :: .text k b :: Ls =
      Ks ++ [.text l (s ++ b)] ++ .text k b :: Ls := by simp
  have hlabels : Labelled.labelsAll (Ks ++ [.text l (s ++ b)] ++ .text k b :: Ls) =
      Labelled.labelsAll (Ks ++ .text l s :: .text k b :: Ls) := by
    simp [Labelled.labelsAll_append, Labelled.labelsAll, Labelled.labels]
  rw [hassoc] at hgrown
  obtain ⟨hshort, hdetach⟩ := hgrown.detachText (by rwa [hlabels])
  rw [hk.data_eq]
  refine ⟨by simpa using hshort, (hwrite.mono ?_).trans (hdetach.mono ?_)⟩
  · simp
  · simp

end Siblings

/-- Joining a run of texts gives the layout of siblings that join to the same trees, and in which no
text follows the text that has been joined. -/
theorem HoldsBelow.absorb {Ks Ls : List (Labelled α)} {l : α} {s : String}
    (h : HoldsBelow f ι p (Ks ++ .text l s :: Ls))
    (hd : (p :: (Labelled.labelsAll (Ks ++ .text l s :: Ls)).map ι).Nodup) :
    ∃ s' Ls', (f.absorb (ι l) (Ls.map (ι ·.label))).1 = Ls'.map (ι ·.label) ∧
      HoldsBelow (f.absorb (ι l) (Ls.map (ι ·.label))).2 ι p (Ks ++ .text l s' :: Ls') ∧
      EditsBelow f (f.absorb (ι l) (Ls.map (ι ·.label))).2 p
        ((Labelled.labelsAll (.text l s :: Ls)).map ι) ∧
      (∀ L ∈ Ls'.head?, L.isText = false) ∧ Ls' <:+ Ls ∧
      Labelled.joinedAll (.text l s :: Ls) = Labelled.joinedAll (.text l s' :: Ls') := by
  induction Ls generalizing f s with
  | nil =>
    exact ⟨s, [], rfl, h, (EditsBelow.refl f p).mono (by simp), by simp, List.suffix_refl _, rfl⟩
  | cons L Ls ih =>
    obtain ⟨-, hrest⟩ := holdsAll_append.1 h.holds
    by_cases htext : L.isText = true
    · cases L with
      | element k tag as cs => cases htext
      | comment k b => cases htext
      | text k b =>
        have hkind : f.kind (ι (Labelled.text k b).label) = .text := hrest.2.1.kind_eq
        obtain ⟨hone, hedits⟩ := h.absorbOne hd
        have hsub : ((Labelled.labelsAll (Ks ++ .text l (s ++ b) :: Ls)).map ι).Sublist
            ((Labelled.labelsAll (Ks ++ .text l s :: .text k b :: Ls)).map ι) := by
          rw [Labelled.labelsAll_append, Labelled.labelsAll_append, List.map_append,
            List.map_append]
          exact (List.Sublist.refl _).append ((List.sublist_cons_self _ _).cons_cons _)
        obtain ⟨s', Ls', hfst, hbelow, hmore, hhead, hsuffix, hjoin⟩ :=
          ih hone (hd.sublist (hsub.cons_cons p))
        rw [List.map_cons, Forest.absorb, if_pos hkind]
        refine ⟨s', Ls', hfst, hbelow, ?_, hhead, hsuffix.trans (List.suffix_cons _ _),
          (Labelled.joinedAll_text_text l k s b Ls).trans hjoin⟩
        refine (hedits.mono ?_).trans (hmore.mono ?_)
        · simp [Labelled.labelsAll, Labelled.labels]
        · intro j hj
          simp only [Labelled.labelsAll, Labelled.labels, List.cons_append, List.nil_append,
            List.map_cons, List.mem_cons] at hj ⊢
          exact hj.imp id fun hin => Or.inr hin
    · have hkind : f.kind (ι L.label) ≠ .text := fun hk => htext (hrest.2.1.kind_eq_text_iff.1 hk)
      rw [List.map_cons, Forest.absorb, if_neg hkind]
      refine ⟨s, L :: Ls, rfl, h, (EditsBelow.refl f p).mono (by simp), ?_, List.suffix_refl _, rfl⟩
      simpa using htext

/-- A run of texts is joined, and the text that is left is taken out if it is empty: what has been
dealt with are now the siblings `Ks'`, and joining the siblings after it gives what joining all of
them gives. -/
theorem HoldsBelow.joinRun {Ks Ls : List (Labelled α)} {l : α} {s : String}
    (h : HoldsBelow f ι p (Ks ++ .text l s :: Ls))
    (hd : (p :: (Labelled.labelsAll (Ks ++ .text l s :: Ls)).map ι).Nodup)
    (hg : g = if ((f.absorb (ι l) (Ls.map (ι ·.label))).2.data (ι l)).isEmpty then
      (f.absorb (ι l) (Ls.map (ι ·.label))).2.detach (ι l)
      else (f.absorb (ι l) (Ls.map (ι ·.label))).2) :
    ∃ Ks' Ls', (f.absorb (ι l) (Ls.map (ι ·.label))).1 = Ls'.map (ι ·.label) ∧ Ls' <:+ Ls ∧
      HoldsBelow g ι p (Ks' ++ Ls') ∧ (p :: (Labelled.labelsAll (Ks' ++ Ls')).map ι).Nodup ∧
      EditsBelow f g p ((Labelled.labelsAll (.text l s :: Ls)).map ι) ∧
      Ks' ++ Labelled.joinedAll Ls' = Ks ++ Labelled.joinedAll (.text l s :: Ls) := by
  obtain ⟨s', Ls', hfst, hbelow, hedits, hhead, hsuffix, hjoin⟩ := h.absorb hd
  have hsub : (Labelled.labelsAll (Ks ++ .text l s' :: Ls')).Sublist
      (Labelled.labelsAll (Ks ++ .text l s :: Ls)) := by
    rw [Labelled.labelsAll_append, Labelled.labelsAll_append]
    exact (List.Sublist.refl _).append ((labelsAll_sublist hsuffix.sublist).cons_cons l)
  have hd' := hd.sublist ((hsub.map ι).cons_cons p)
  rw [(holdsAll_append.1 hbelow.holds).2.1.data_eq] at hg
  rw [hjoin, Labelled.joinedAll, Labelled.joined, Labelled.joinText_of_head_not_isText hhead]
  by_cases hs : s'.isEmpty = true
  · rw [if_pos hs] at hg ⊢
    obtain ⟨hout, hdetach⟩ := hbelow.detachText hd'
    have hsub' : (Labelled.labelsAll (Ks ++ Ls')).Sublist
        (Labelled.labelsAll (Ks ++ .text l s' :: Ls')) :=
      labelsAll_sublist ((List.Sublist.refl Ks).append (List.sublist_cons_self _ _))
    rw [hg]
    refine ⟨Ks, Ls', hfst, hsuffix, hout, hd'.sublist ((hsub'.map ι).cons_cons p), ?_, rfl⟩
    exact hedits.trans (hdetach.mono (by simp [Labelled.labelsAll, Labelled.labels]))
  · rw [if_neg hs] at hg ⊢
    have hassoc : Ks ++ .text l s' :: Ls' = Ks ++ [.text l s'] ++ Ls' := by simp
    rw [hassoc] at hbelow hd'
    rw [hg]
    exact ⟨Ks ++ [.text l s'], Ls', hfst, hsuffix, hbelow, hd', hedits, by simp⟩

/-! ### Joining siblings -/

theorem label_joined (L : Labelled α) : L.joined.label = L.label := by
  cases L <;> rfl

/-- Treating a node joins what is laid out below it. -/
def JoinsBelow (ι : α → NodeId) (fuel : ℕ) (deeper : Forest → NodeId → Forest) : Prop :=
  ∀ (f : Forest) (n : NodeId) (Ls : List (Labelled α)), HoldsBelow f ι n Ls →
    (n :: (Labelled.labelsAll Ls).map ι).Nodup → (Labelled.labelsAll Ls).length < fuel →
      HoldsBelow (deeper f n) ι n (Labelled.joinedAll Ls) ∧
        EditsBelow f (deeper f n) n ((Labelled.labelsAll Ls).map ι)

section Deeper

variable {fuel : ℕ} {deeper : Forest → NodeId → Forest} {l : α} {s tag : String}

/-- Nothing is laid out below a comment, so nothing changes. -/
theorem JoinsBelow.cell_comment (hdeeper : JoinsBelow ι fuel deeper) {q : Option NodeId}
    (h : Holds f ι q (.comment l s)) (hfuel : 0 < fuel) (m : NodeId) :
    (deeper f (ι l)).size = f.size ∧ (deeper f (ι l)).cell m = f.cell m := by
  have hnone : f.children (ι l) = [] := HoldsLeaf.children_eq h
  obtain ⟨hbelow, hedits⟩ :=
    hdeeper f (ι l) [] ⟨hnone, trivial⟩ (by simp [Labelled.labelsAll]) hfuel
  refine ⟨hedits.size_eq, ?_⟩
  by_cases hm : m = ι l
  · have hsame : (deeper f (ι l)).children (ι l) = f.children (ι l) :=
      hbelow.children_eq.trans hnone.symm
    rw [hm, hedits.holder_eq, hsame]
    rfl
  · exact hedits.cell_eq hm (by simp [Labelled.labelsAll])

/-- What is laid out below an element is joined, and nothing outside of it changes. -/
theorem JoinsBelow.element (hdeeper : JoinsBelow ι fuel deeper) {as : List (α × Attribute)}
    {cs : List (Labelled α)} (h : Holds f ι (some p) (.element l tag as cs))
    (hd : (p :: (Labelled.element l tag as cs).labels.map ι).Nodup)
    (hfuel : (Labelled.labelsAll cs).length < fuel) :
    Holds (deeper f (ι l)) ι (some p) (.element l tag as (Labelled.joinedAll cs)) ∧
      EditsBelow f (deeper f (ι l)) p ((Labelled.element l tag as cs).labels.map ι) ∧
      (deeper f (ι l)).children p = f.children p := by
  obtain ⟨he, has, hcs⟩ := h
  rw [Labelled.labels, List.cons_append, List.map_cons, List.map_append] at hd ⊢
  obtain ⟨hp, hnodup⟩ := List.nodup_cons.1 hd
  obtain ⟨hl, hbelownodup⟩ := List.nodup_cons.1 hnodup
  obtain ⟨-, hcsnodup, hdisjoint⟩ := List.nodup_append.1 hbelownodup
  obtain ⟨hbelow, hedits⟩ := hdeeper f (ι l) cs ⟨he.children_eq, hcs⟩
    (List.nodup_cons.2 ⟨fun hin => hl (List.mem_append_right _ hin), hcsnodup⟩) hfuel
  have hpl : p ≠ ι l := fun e => hp (e ▸ List.mem_cons_self)
  have hpcs : p ∉ (Labelled.labelsAll cs).map ι := fun hin =>
    hp (List.mem_cons_of_mem _ (List.mem_append_right _ hin))
  refine ⟨⟨⟨hedits.kind_eq.trans he.kind_eq, hedits.link_eq.trans he.link_eq,
    hedits.attributes_eq.trans he.attributes_eq, hbelow.children_eq⟩, fun a ha => ?_, hbelow.holds⟩,
    (hedits.of_child hpl hpcs).mono ?_, congrArg Cell.children (hedits.cell_eq hpl hpcs)⟩
  · have hin : ι a.1 ∈ (as.map Prod.fst).map ι := List.mem_map_of_mem (List.mem_map_of_mem ha)
    exact (has a ha).congr (hedits.cell_eq (fun e => hl (e ▸ List.mem_append_left _ hin))
      fun hin' => hdisjoint _ hin _ hin' rfl)
  · exact List.cons_subset_cons _ (List.subset_append_right _ _)

/-- What is laid out below a sibling is joined, and nothing outside of it changes. -/
theorem HoldsBelow.joinDeeper (hdeeper : JoinsBelow ι fuel deeper) {Ks Ls : List (Labelled α)}
    {L : Labelled α} (h : HoldsBelow f ι p (Ks ++ L :: Ls))
    (hd : (p :: (Labelled.labelsAll (Ks ++ L :: Ls)).map ι).Nodup) (hL : L.isText = false)
    (hfuel : L.labels.length ≤ fuel) :
    HoldsBelow (deeper f (ι L.label)) ι p (Ks ++ L.joined :: Ls) ∧
      EditsBelow f (deeper f (ι L.label)) p (L.labels.map ι) := by
  have hholds : Holds f ι (some p) L := (holdsAll_append.1 h.holds).2.1
  have hone : Holds (deeper f (ι L.label)) ι (some p) L.joined ∧
      EditsBelow f (deeper f (ι L.label)) p (L.labels.map ι) ∧
      (deeper f (ι L.label)).children p = f.children p := by
    cases L with
    | text l s => cases hL
    | comment l s =>
      have hcell := hdeeper.cell_comment hholds hfuel
      exact ⟨HoldsLeaf.congr hholds (hcell (ι l)).2, .of_cell_eq (hcell p).1 fun m => (hcell m).2,
        congrArg Cell.children (hcell p).2⟩
    | element l tag as cs =>
      refine hdeeper.element hholds (hd.sublist ?_) ?_
      · rw [Labelled.labelsAll_append, Labelled.labelsAll, List.map_append, List.map_append]
        exact ((List.sublist_append_left _ _).trans (List.sublist_append_right _ _)).cons_cons p
      · rw [Labelled.labels, List.length_append, List.length_cons] at hfuel
        omega
  obtain ⟨hjoined, hedits, hchildren⟩ := hone
  refine ⟨h.edit [L] [L.joined] hd (hedits.mono (by simp [Labelled.labelsAll])) ?_
    ⟨hjoined, trivial⟩, hedits⟩
  rw [hchildren, h.children_eq]
  simp [label_joined]

end Deeper

/-- Siblings are joined one after the other; `Ks` are those that have been dealt with. -/
theorem HoldsBelow.joinSiblings {fuel : ℕ} {deeper : Forest → NodeId → Forest}
    (Ks : List (Labelled α)) (hdeeper : JoinsBelow ι fuel deeper) {Ls : List (Labelled α)}
    (h : HoldsBelow f ι p (Ks ++ Ls)) (hd : (p :: (Labelled.labelsAll (Ks ++ Ls)).map ι).Nodup)
    (hfuel : (Labelled.labelsAll Ls).length ≤ fuel) :
    HoldsBelow (Forest.joinSiblings deeper f (Ls.map (ι ·.label))) ι p
        (Ks ++ Labelled.joinedAll Ls) ∧
      EditsBelow f (Forest.joinSiblings deeper f (Ls.map (ι ·.label))) p
        ((Labelled.labelsAll Ls).map ι) := by
  induction hlen : Ls.length using Nat.strong_induction_on generalizing f Ks Ls with
  | _ len ih =>
    cases Ls with
    | nil =>
      rw [List.map_nil, Forest.joinSiblings]
      exact ⟨h, EditsBelow.refl f p⟩
    | cons L Ls =>
      rw [List.map_cons, Forest.joinSiblings]
      rw [Labelled.labelsAll, List.length_append] at hfuel
      by_cases htext : L.isText = true
      · cases L with
        | element l tag as cs => cases htext
        | comment l s => cases htext
        | text l s =>
          have hkind : f.kind (ι (Labelled.text l s).label) = .text :=
            (holdsAll_append.1 h.holds).2.1.kind_eq
          rw [if_pos hkind]
          obtain ⟨Ks', Ls', hfst, hsuffix, hbelow, hd', hedits, hjoin⟩ := h.joinRun hd rfl
          have hshort : Ls'.length < len := by
            rw [← hlen, List.length_cons]
            exact Nat.lt_succ_of_le hsuffix.length_le
          have hfuel' : (Labelled.labelsAll Ls').length ≤ fuel :=
            (labelsAll_sublist hsuffix.sublist).length_le.trans (by omega)
          have hids : (Labelled.labelsAll Ls').map ι ⊆
              (Labelled.labelsAll (.text l s :: Ls)).map ι :=
            ((labelsAll_sublist (hsuffix.sublist.cons _)).map ι).subset
          obtain ⟨hrest, hmore⟩ := ih Ls'.length hshort Ks' hbelow hd' hfuel' rfl
          rw [hjoin] at hrest
          dsimp only
          rw [show (Labelled.text l s).label = l from rfl, hfst]
          exact ⟨hrest, hedits.trans (hmore.mono hids)⟩
      · have hnot : L.isText = false := by simpa using htext
        have hkind : f.kind (ι L.label) ≠ .text := fun hk =>
          htext ((holdsAll_append.1 h.holds).2.1.kind_eq_text_iff.1 hk)
        rw [if_neg hkind]
        obtain ⟨hbelow, hedits⟩ := h.joinDeeper hdeeper hd hnot (by omega)
        have hsub : (Labelled.labelsAll (Ks ++ L.joined :: Ls)).Sublist
            (Labelled.labelsAll (Ks ++ L :: Ls)) := by
          rw [Labelled.labelsAll_append, Labelled.labelsAll_append]
          exact (List.Sublist.refl _).append
            ((Labelled.labels_joined L).append (List.Sublist.refl _))
        have hassoc : Ks ++ L.joined :: Ls = Ks ++ [L.joined] ++ Ls := by simp
        rw [hassoc] at hbelow hsub
        obtain ⟨hrest, hmore⟩ := ih Ls.length (by simp [← hlen]) _ hbelow
          (hd.sublist ((hsub.map ι).cons_cons p)) (by omega) rfl
        rw [Labelled.joinedAll,
          Labelled.joinText_of_not_isText ((Labelled.isText_joined L).trans hnot)]
        refine ⟨by simpa using hrest, (hedits.mono ?_).trans (hmore.mono ?_)⟩
        · simp [Labelled.labelsAll]
        · simp [Labelled.labelsAll]

theorem joinsBelow_normalizeTo (ι : α → NodeId) (fuel : ℕ) :
    JoinsBelow ι fuel (normalizeTo fuel) := by
  induction fuel with
  | zero => exact fun _ _ _ _ _ hfuel => absurd hfuel (Nat.not_lt_zero _)
  | succ fuel ih =>
    intro f n Ls h hd hfuel
    rw [normalizeTo, h.children_eq]
    exact HoldsBelow.joinSiblings [] ih h hd (Nat.le_of_lt_succ hfuel)

/-- Joining the texts below a node joins the trees that are laid out there. -/
theorem HoldsBelow.normalize {Ls : List (Labelled α)} (h : HoldsBelow f ι p Ls)
    (hd : (p :: (Labelled.labelsAll Ls).map ι).Nodup) :
    HoldsBelow (f.normalize p) ι p (Labelled.joinedAll Ls) ∧
      EditsBelow f (f.normalize p) p ((Labelled.labelsAll Ls).map ι) :=
  joinsBelow_normalizeTo ι (f.size + 1) f p Ls h hd
    (Nat.lt_succ_of_le (h.holds.length_le_size (List.nodup_cons.1 hd).2))

/-- A fragment whose texts have been joined looks like the joined trees. -/
theorem HoldsBelow.snapshot_normalize {Ls : List (Labelled α)} (h : HoldsBelow f ι p Ls)
    (hk : f.kind p = .fragment) (hd : (p :: (Labelled.labelsAll Ls).map ι).Nodup) :
    (f.normalize p).snapshot p = .fragment (Tree.joinedAll (Labelled.trees Ls)) := by
  obtain ⟨hjoined, hedits⟩ := h.normalize hd
  rw [hjoined.snapshot (hedits.kind_eq.trans hk), Labelled.trees_joinedAll]
  exact (List.nodup_cons.1 hd).2.sublist ((Labelled.labelsAll_joinedAll Ls).map ι)

end LiveMarkup.Forest
