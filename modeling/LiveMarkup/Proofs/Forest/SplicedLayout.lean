import LiveMarkup.Proofs.Forest.Replacing
import LiveMarkup.Proofs.Markup.Spliced

/-!
# Layouts after a replacement

Where nodes take the place of a comment, their trees take its place in the layout
(`HoldsBelow.splice`), and where an attribute node gets another value, the attribute gets it in the
layout (`HoldsBelow.write`).  The labels of these layouts are the nodes themselves.
-/

namespace LiveMarkup.Forest

variable {f g : Forest} {m n p v : NodeId} {cs ms : List NodeId}

/-! ### Trees in place of a comment -/

/-- A node of `f` that is not linked elsewhere, unless it is `n`, and that is not emptied. -/
structure Unmoved (f : Forest) (n : NodeId) (moved drained : List NodeId) (m : NodeId) :
    Prop where
  lt_size : m < f.size
  not_moved : m ≠ n → m ∉ moved
  not_drained : m ∉ drained

section Layout

variable {moved drained : List NodeId} {q : Option NodeId} {Ms : List (Labelled NodeId)}

/-- Only a comment of a layout has a label that is a comment. -/
theorem Holds.label_ne {L : Labelled NodeId} (h : f.Holds id q L) (hn : f.kind n = .comment)
    (hL : ∀ l s, L ≠ .comment l s) : L.label ≠ n := by
  cases L with
  | comment l s => exact absurd rfl (hL l s)
  | text l s =>
    intro e
    have hkind := HoldsLeaf.kind_eq h
    rw [show l = n from e] at hkind
    simp [hn] at hkind
  | element l tag as cs =>
    intro e
    have hkind := h.1.kind_eq
    rw [show l = n from e] at hkind
    simp [hn] at hkind

/-- No attribute of a layout has a label that is a comment. -/
theorem HoldsAttribute.label_ne {a : NodeId × Attribute} (h : f.HoldsAttribute id m a)
    (hn : f.kind n = .comment) : a.1 ≠ n := by
  intro e
  have hkind := h.kind_eq
  rw [id, e, hn] at hkind
  cases hkind

theorem HoldsAll.map_label_spliceAll {cs : List (Labelled NodeId)} (h : f.HoldsAll id q cs)
    (hn : f.kind n = .comment) :
    (Labelled.spliceAll n Ms cs).map (·.label) =
      replaced n (Ms.map (·.label)) (cs.map (·.label)) := by
  induction cs with
  | nil => rfl
  | cons c cs ih =>
    rw [Labelled.spliceAll, List.map_append, ih h.2, List.map_cons, replaced, replaced,
      List.flatMap_cons]
    congr 1
    cases c with
    | comment l s =>
      rw [Labelled.splice, Labelled.label]
      split_ifs <;> rfl
    | text l s => exact (if_neg (h.1.label_ne hn (by simp))).symm
    | element l tag as cs => exact (if_neg (h.1.label_ne hn (by simp))).symm

theorem HoldsLeaf.splice {k : Kind} {s : String} (hs : Splices f g n ms moved drained)
    (h : f.HoldsLeaf m q k s) (hm : Unmoved f n moved drained m) (hmn : m ≠ n) :
    g.HoldsLeaf m q k s := by
  refine ⟨(hs.kind_eq hm.lt_size).trans h.kind_eq,
    (hs.link_eq hm.lt_size (hm.not_moved hmn)).trans h.link_eq,
    (hs.data_eq hm.lt_size).trans h.data_eq, ?_⟩
  rw [hs.children_eq hm.lt_size hm.not_drained, h.children_eq]
  rfl

theorem HoldsAttribute.splice {a : NodeId × Attribute} (hs : Splices f g n ms moved drained)
    (h : f.HoldsAttribute id m a) (ha : Unmoved f n moved drained a.1)
    (hn : f.kind n = .comment) : g.HoldsAttribute id m a := by
  have hne := h.label_ne hn
  exact ⟨(hs.kind_eq ha.lt_size).trans h.kind_eq, (hs.data_eq ha.lt_size).trans h.data_eq,
    (hs.link_eq ha.lt_size (ha.not_moved hne)).trans h.link_eq⟩

mutual

/-- Where the nodes at the roots of `Ms` take the place of a comment, the trees `Ms` take its place
in the layout. -/
theorem Holds.splice (hs : Splices f g n (Ms.map (·.label)) moved drained)
    (hn : f.kind n = .comment) {q : Option NodeId} {L : Labelled NodeId} (h : f.Holds id q L)
    (hMs : n ∈ L.labels → g.HoldsAll id (f.link n) Ms)
    (hL : ∀ l ∈ L.labels, Unmoved f n moved drained l) : g.HoldsAll id q (L.splice n Ms) := by
  cases L with
  | comment l s =>
    rw [Labelled.splice]
    split_ifs with hl
    · subst hl
      have hlink : f.link l = q := HoldsLeaf.link_eq h
      have hroots := hMs (by simp [Labelled.labels])
      rwa [hlink] at hroots
    · exact ⟨HoldsLeaf.splice hs h (hL l (by simp [Labelled.labels])) hl, trivial⟩
  | text l s =>
    exact ⟨HoldsLeaf.splice hs h (hL l (by simp [Labelled.labels]))
      (Holds.label_ne (L := .text l s) h hn (by simp)), trivial⟩
  | element l tag as cs =>
    have hln : l ≠ n := Holds.label_ne h hn (by simp)
    obtain ⟨he, has, hcs⟩ := h
    have hl := hL l (by simp [Labelled.labels])
    refine ⟨⟨⟨(hs.kind_eq hl.lt_size).trans he.kind_eq,
      (hs.link_eq hl.lt_size (hl.not_moved hln)).trans he.link_eq,
      (hs.attributes_eq hl.lt_size).trans he.attributes_eq, ?_⟩, fun a ha => ?_,
      HoldsAll.splice hs hn hcs (fun hm => hMs (by simp [Labelled.labels, hm]))
        fun m hm => hL m (by simp [Labelled.labels, hm])⟩, trivial⟩
    · rw [id, hs.children_eq hl.lt_size hl.not_drained, show f.children l = _ from he.children_eq]
      exact (hcs.map_label_spliceAll hn).symm
    · have hmem : a.1 ∈ as.map Prod.fst := List.mem_map_of_mem ha
      exact (has a ha).splice hs (hL a.1 (by simp [Labelled.labels, hmem])) hn

theorem HoldsAll.splice (hs : Splices f g n (Ms.map (·.label)) moved drained)
    (hn : f.kind n = .comment) {q : Option NodeId} {Ls : List (Labelled NodeId)}
    (h : f.HoldsAll id q Ls) (hMs : n ∈ Labelled.labelsAll Ls → g.HoldsAll id (f.link n) Ms)
    (hL : ∀ l ∈ Labelled.labelsAll Ls, Unmoved f n moved drained l) :
    g.HoldsAll id q (Labelled.spliceAll n Ms Ls) := by
  cases Ls with
  | nil => trivial
  | cons L Ls =>
    exact holdsAll_append.2
      ⟨Holds.splice hs hn h.1 (fun hm => hMs (by simp [Labelled.labelsAll, hm])) fun l hl =>
        hL l (by simp [Labelled.labelsAll, hl]),
      HoldsAll.splice hs hn h.2 (fun hm => hMs (by simp [Labelled.labelsAll, hm])) fun l hl =>
        hL l (by simp [Labelled.labelsAll, hl])⟩

end

theorem HoldsBelow.splice {Ls : List (Labelled NodeId)}
    (hs : Splices f g n (Ms.map (·.label)) moved drained) (hn : f.kind n = .comment)
    (h : f.HoldsBelow id m Ls) (hm : m < f.size ∧ m ∉ drained)
    (hMs : n ∈ Labelled.labelsAll Ls → g.HoldsAll id (f.link n) Ms)
    (hL : ∀ l ∈ Labelled.labelsAll Ls, Unmoved f n moved drained l) :
    g.HoldsBelow id m (Labelled.spliceAll n Ms Ls) := by
  refine ⟨?_, h.holds.splice hs hn hMs hL⟩
  rw [hs.children_eq hm.1 hm.2, show f.children m = _ from h.children_eq]
  exact (h.holds.map_label_spliceAll hn).symm

/-- A layout without the comment is not concerned. -/
theorem HoldsAll.unspliced {Ls : List (Labelled NodeId)}
    (hs : Splices f g n (Ms.map (·.label)) moved drained) (hn : f.kind n = .comment)
    (h : f.HoldsAll id q Ls) (hout : n ∉ Labelled.labelsAll Ls)
    (hL : ∀ l ∈ Labelled.labelsAll Ls, Unmoved f n moved drained l) : g.HoldsAll id q Ls := by
  have hall := h.splice hs hn (fun hin => absurd hin hout) hL
  rwa [Labelled.spliceAll_of_not_mem hout] at hall

/-- A tree whose root has been linked elsewhere. -/
theorem Holds.relinked {L : Labelled NodeId} (hs : Splices f g n (Ms.map (·.label)) moved drained)
    (hn : f.kind n = .comment) (h : f.Holds id q L) (hout : n ∉ L.labels)
    (hroot : L.label < f.size ∧ L.label ∉ drained)
    (hL : ∀ l ∈ L.labels, l ≠ L.label → Unmoved f n moved drained l)
    (hd : L.labels.Nodup) {q' : Option NodeId} (hlink : g.link L.label = q') :
    g.Holds id q' L := by
  cases L with
  | text l s | comment l s =>
    have hlt : l < f.size := hroot.1
    refine ⟨(hs.kind_eq hlt).trans (HoldsLeaf.kind_eq h), hlink,
      (hs.data_eq hlt).trans (HoldsLeaf.data_eq h), ?_⟩
    have hchildren : f.children l = [] := HoldsLeaf.children_eq h
    rw [id, hs.children_eq hlt hroot.2, hchildren]
    rfl
  | element l tag as cs =>
    obtain ⟨he, has, hcs⟩ := h
    have hlt : l < f.size := hroot.1
    rw [Labelled.labels, List.cons_append, List.nodup_cons] at hd
    have hbelow : ∀ m ∈ as.map Prod.fst ++ Labelled.labelsAll cs, Unmoved f n moved drained m :=
      fun m hm => hL m (by
        rw [Labelled.labels, List.cons_append]
        exact List.mem_cons_of_mem _ hm) fun e : m = l => hd.1 (e ▸ hm)
    have hcs' : n ∉ Labelled.labelsAll cs := fun hin => hout (by simp [Labelled.labels, hin])
    refine ⟨⟨(hs.kind_eq hlt).trans he.kind_eq, hlink,
      (hs.attributes_eq hlt).trans he.attributes_eq, ?_⟩, fun a ha => ?_,
      hcs.unspliced hs hn hcs' fun m hm => hbelow m (List.mem_append_right _ hm)⟩
    · have hchildren : f.children l = cs.map (·.label) := he.children_eq
      rw [id, hs.children_eq hlt hroot.2, hchildren, ← hcs.map_label_spliceAll hn,
        Labelled.spliceAll_of_not_mem hcs']
      rfl
    · exact (has a ha).splice hs
        (hbelow a.1 (List.mem_append_left _ (List.mem_map_of_mem ha))) hn

/-- Trees whose roots have been linked elsewhere. -/
theorem HoldsAll.relinked {Ls : List (Labelled NodeId)}
    (hs : Splices f g n (Ms.map (·.label)) moved drained) (hn : f.kind n = .comment)
    (h : f.HoldsAll id q Ls) (hout : n ∉ Labelled.labelsAll Ls)
    (hroots : ∀ L ∈ Ls, L.label < f.size ∧ L.label ∉ drained)
    (hL : ∀ L ∈ Ls, ∀ l ∈ L.labels, l ≠ L.label → Unmoved f n moved drained l)
    (hd : (Labelled.labelsAll Ls).Nodup) {q' : Option NodeId}
    (hlinks : ∀ L ∈ Ls, g.link L.label = q') : g.HoldsAll id q' Ls := by
  rw [holdsAll_iff] at h ⊢
  intro L hin
  have hsub : L.labels.Sublist (Labelled.labelsAll Ls) := by
    rw [Labelled.labelsAll_eq_flatMap, List.flatMap_def]
    exact List.sublist_flatten_of_mem (List.mem_map_of_mem hin)
  exact (h L hin).relinked hs hn (fun hl => hout (hsub.subset hl)) (hroots L hin) (hL L hin)
    (hd.sublist hsub) (hlinks L hin)

/-! ### The labels of a layout -/

mutual

theorem Holds.labelsAll_splice {q : Option NodeId} {L : Labelled NodeId} (h : f.Holds id q L)
    (hn : f.kind n = .comment) :
    Labelled.labelsAll (L.splice n Ms) = replaced n (Labelled.labelsAll Ms) L.labels := by
  cases L with
  | comment l s =>
    rw [Labelled.splice, Labelled.labels, replaced, List.flatMap_singleton]
    split_ifs <;> rfl
  | text l s =>
    have hl : l ≠ n := Holds.label_ne (L := .text l s) h hn (by simp)
    rw [Labelled.splice, Labelled.labels, replaced, List.flatMap_singleton, if_neg hl]
    rfl
  | element l tag as cs =>
    have hl : l ≠ n := Holds.label_ne h hn (by simp)
    obtain ⟨-, has, hcs⟩ := h
    have hattributes : n ∉ as.map Prod.fst := fun hin => by
      obtain ⟨a, ha, heq⟩ := List.mem_map.1 hin
      exact (has a ha).label_ne hn heq
    have hroot : replaced n (Labelled.labelsAll Ms) [l] = [l] :=
      replaced_of_not_mem (by simpa using Ne.symm hl)
    rw [Labelled.splice, Labelled.labelsAll, Labelled.labelsAll, List.append_nil, Labelled.labels,
      Labelled.labels, HoldsAll.labelsAll_splice hcs hn, List.cons_append, List.cons_append,
      ← List.singleton_append, ← List.singleton_append (l := as.map Prod.fst ++ _),
      replaced_append, replaced_append, replaced_of_not_mem hattributes, hroot]

theorem HoldsAll.labelsAll_splice {q : Option NodeId} {Ls : List (Labelled NodeId)}
    (h : f.HoldsAll id q Ls) (hn : f.kind n = .comment) :
    Labelled.labelsAll (Labelled.spliceAll n Ms Ls) =
      replaced n (Labelled.labelsAll Ms) (Labelled.labelsAll Ls) := by
  cases Ls with
  | nil => rfl
  | cons L Ls =>
    rw [Labelled.spliceAll, Labelled.labelsAll_append, Labelled.labelsAll, replaced_append,
      Holds.labelsAll_splice h.1 hn, HoldsAll.labelsAll_splice h.2 hn]

end

end Layout

/-! ### Another value for an attribute -/

section Write

variable {s : String} {q : Option NodeId}

theorem HoldsLeaf.writeData {k : Kind} {t : String} (h : f.HoldsLeaf m q k t) (hm : m ≠ n) :
    (f.writeData n fun _ => s).HoldsLeaf m q k t := by
  refine h.congr ?_
  rw [cell_writeData, if_neg fun e => hm e.1]

theorem HoldsAttribute.write {a : NodeId × Attribute} (h : f.HoldsAttribute id m a)
    (hn : n < f.size) :
    (f.writeData n fun _ => s).HoldsAttribute id m (Labelled.writeAttribute n s a) := by
  unfold Labelled.writeAttribute
  split_ifs with ha
  · subst ha
    exact ⟨by simpa using h.kind_eq, by rw [id, data_writeData, if_pos ⟨rfl, hn⟩],
      by simpa using h.link_eq⟩
  · refine h.congr ?_
    rw [id, cell_writeData, if_neg fun e => ha e.1]

mutual

theorem Holds.write {q : Option NodeId} {L : Labelled NodeId} (h : f.Holds id q L)
    (hn : (f.kind n).isAttr = true) : (f.writeData n fun _ => s).Holds id q (L.write n s) := by
  cases L with
  | text l t | comment l t =>
    refine HoldsLeaf.writeData h fun e => ?_
    have hkind := HoldsLeaf.kind_eq h
    rw [e] at hkind
    simp [hkind, Kind.isAttr] at hn
  | element l tag as cs =>
    obtain ⟨he, has, hcs⟩ := h
    refine ⟨⟨by simpa using he.kind_eq, by simpa using he.link_eq, ?_, ?_⟩, fun b hb => ?_,
      HoldsAll.write hcs hn⟩
    · rw [attributes_writeData, he.attributes_eq, List.map_map]
      simp [Function.comp_def]
    · rw [children_writeData, he.children_eq, Labelled.writeAll_eq_map, List.map_map]
      simp [Function.comp_def]
    · obtain ⟨a, ha, rfl⟩ := List.mem_map.1 hb
      exact (has a ha).write (lt_size_of_isAttr hn)

theorem HoldsAll.write {q : Option NodeId} {Ls : List (Labelled NodeId)} (h : f.HoldsAll id q Ls)
    (hn : (f.kind n).isAttr = true) :
    (f.writeData n fun _ => s).HoldsAll id q (Labelled.writeAll n s Ls) := by
  cases Ls with
  | nil => trivial
  | cons L Ls => exact ⟨Holds.write h.1 hn, HoldsAll.write h.2 hn⟩

end

/-- An attribute node with another value gives the attribute the value in the layout. -/
theorem HoldsBelow.write {Ls : List (Labelled NodeId)} (h : f.HoldsBelow id m Ls)
    (hn : (f.kind n).isAttr = true) :
    (f.writeData n fun _ => s).HoldsBelow id m (Labelled.writeAll n s Ls) := by
  refine ⟨?_, h.holds.write hn⟩
  rw [children_writeData, h.children_eq, Labelled.writeAll_eq_map, List.map_map]
  simp [Function.comp_def]

end Write

end LiveMarkup.Forest
