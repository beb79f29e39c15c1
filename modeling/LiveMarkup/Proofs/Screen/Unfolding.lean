import LiveMarkup.Proofs.Screen.Laid

/-!
# Showing one value

What becomes of a sheet when the value that is due at a node is shown: a text or a node takes the
place of a comment, a list gets a comment for each of its items, an attribute gets its text, and
where there is nothing to show nothing happens. -/

namespace LiveMarkup

open Forest

variable {f g : Forest} {n p root : NodeId} {Ls Ms : List (Labelled NodeId)}
  {stock : String → Stock} {s s' s'' : Sheet} {pre post due qs : Due} {used : List String}
  {moved drained : List NodeId} {u v : Staged}

/-! ### Trees in place of a comment -/

/-- In `g` the trees `Ms` stand where the comment `n` stood in `f`, for its value `u`.  They consist
of new nodes, `n` and the nodes named `used`, which alone are linked elsewhere, and the values `qs`
are due at some of them. -/
structure Brings (stock : String → Stock) (f g : Forest) (n : NodeId) (u : Staged)
    (Ms : List (Labelled NodeId)) (qs : Due) (used : List String) (moved drained : List NodeId) :
    Prop where
  sound : g.Sound
  names_eq : u.names = used ++ qs.names
  splices : Splices f g n (Ms.map (·.label)) moved drained
  holds : g.HoldsAll id (f.link n) Ms
  nodup : (Labelled.labelsAll Ms).Nodup
  own : ∀ l ∈ Labelled.labelsAll Ms ++ moved,
    l = n ∨ f.size ≤ l ∨ l ∈ stockLabels stock used
  drained_used : ∀ l ∈ drained, l ∈ stockLabels stock used
  due : ∀ x ∈ qs, x.1 ∈ Labelled.labelsAll Ms ∧ g.Fits x.1 x.2 ∧ (x.1 = n ∨ f.size ≤ x.1)
  targets : (qs.map Prod.fst).Nodup

namespace Laid

/-- The nodes that stay what they are when the value at `n` is shown. -/
def kept (stock : String → Stock) (root : NodeId) (Ls : List (Labelled NodeId)) (due : Due) :
    List NodeId :=
  root :: Labelled.labelsAll Ls ++ stockLabels stock due.names

section Splice

variable (h : Laid stock root ⟨f, Ls, pre ++ (n, u) :: post⟩)

include h

theorem mem_trees : n ∈ Labelled.labelsAll Ls := (h.fits (n, u) (by simp)).1

theorem not_mem_targets : n ∉ (pre ++ post).map Prod.fst := by
  have hperm : ((pre ++ (n, u) :: post).map Prod.fst).Perm (n :: (pre ++ post).map Prod.fst) :=
    List.perm_middle.map _
  exact (List.nodup_cons.1 (hperm.nodup_iff.1 h.targets)).1

/-- The other values still fit. -/
theorem fits_rest : ∀ x ∈ pre ++ post,
    x.1 ∈ Labelled.labelsAll Ls ∧ x.1 ≠ n ∧ f.Fits x.1 x.2 := by
  intro x hx
  have hx' : x ∈ pre ++ (n, u) :: post := by
    rcases List.mem_append.1 hx with hx | hx <;> simp [hx]
  exact ⟨(h.fits x hx').1, fun e => h.not_mem_targets (e ▸ List.mem_map_of_mem hx),
    (h.fits x hx').2⟩

theorem labelsAll_splice (hn : f.kind n = .comment) :
    Labelled.labelsAll (Labelled.spliceAll n Ms Ls) =
      replaced n (Labelled.labelsAll Ms) (Labelled.labelsAll Ls) :=
  h.below.holds.labelsAll_splice hn

variable (hb : Brings stock f g n u Ms qs used moved drained)

include hb

omit h in
theorem mem_names_of_rest {name : String} (hname : name ∈ (pre ++ qs ++ post).names) :
    name ∈ Due.names (pre ++ (n, u) :: post) := by
  simp only [Due.names_append, Due.names_cons, hb.names_eq, List.mem_append] at hname ⊢
  tauto

/-- The nodes that are used are no others. -/
theorem nodup_kept :
    (kept stock root Ls (pre ++ qs ++ post) ++ stockLabels stock used).Nodup := by
  refine (List.Perm.nodup_iff ?_).1 h.nodup
  simp only [kept, Due.names_append, Due.names_cons, hb.names_eq, stockLabels_append,
    List.perm_iff_count, List.count_append]
  intro l
  omega

theorem not_mem_used {l : NodeId} (hl : l ∈ kept stock root Ls (pre ++ qs ++ post)) :
    l ∉ stockLabels stock used := fun hin =>
  (List.nodup_append.1 (h.nodup_kept hb)).2.2 l hl l hin rfl

theorem unmoved {l : NodeId} (hl : l ∈ kept stock root Ls (pre ++ qs ++ post)) :
    f.Unmoved n moved drained l := by
  have hout := h.not_mem_used hb hl
  have hlt : l < f.size := by
    refine h.lt_size l ?_
    rcases List.mem_append.1 hl with hl | hl
    · exact List.mem_append_left _ hl
    · obtain ⟨name, hname, hl⟩ := List.mem_flatMap.1 hl
      exact List.mem_append_right _ (List.mem_flatMap.2 ⟨name, mem_names_of_rest hb hname, hl⟩)
  refine ⟨hlt, fun hln hin => ?_, fun hin => hout (hb.drained_used l hin)⟩
  rcases hb.own l (List.mem_append_right _ hin) with rfl | hge | hin
  · exact hln rfl
  · exact absurd hlt (Nat.not_lt_of_le hge)
  · exact hout hin

theorem unmoved_of_mem_trees {l : NodeId} (hl : l ∈ Labelled.labelsAll Ls) :
    f.Unmoved n moved drained l :=
  h.unmoved hb (List.mem_append_left _ (List.mem_cons_of_mem _ hl))

variable (hn : f.kind n = .comment)

include hn

theorem nodup_splice : (root :: Labelled.labelsAll (Labelled.spliceAll n Ms Ls) ++
    stockLabels stock (pre ++ qs ++ post).names).Nodup := by
  have hkept := (List.nodup_append.1 (h.nodup_kept hb)).1
  have hcomm : ∀ xs : List NodeId,
      (root :: xs ++ stockLabels stock (pre ++ qs ++ post).names).Perm
        (xs ++ root :: stockLabels stock (pre ++ qs ++ post).names) :=
    fun xs => List.perm_middle.symm
  rw [kept, (hcomm _).nodup_iff] at hkept
  rw [(hcomm _).nodup_iff, h.labelsAll_splice hn]
  refine nodup_replaced hkept hb.nodup h.mem_trees fun m hm => ?_
  rcases hb.own m (List.mem_append_left _ hm) with rfl | hge | hin
  · exact Or.inl rfl
  · exact Or.inr fun hin => absurd (h.unmoved hb ((hcomm _).mem_iff.2 hin)).lt_size
      (Nat.not_lt_of_le hge)
  · exact Or.inr fun hin' => h.not_mem_used hb ((hcomm _).mem_iff.2 hin') hin

theorem stocked_splice : ∀ name ∈ (pre ++ qs ++ post).names, (stock name).LiesIn g := by
  intro name hname
  have hold := mem_names_of_rest hb hname
  have hout : n ∉ (stock name).labels := fun hl =>
    h.not_mem_stock h.mem_trees (List.mem_flatMap.2 ⟨name, hold, hl⟩)
  refine (h.stocked name hold).unspliced hb.splices hn hout fun l hl => ?_
  have hl' := h.unmoved hb (List.mem_append_right _ (List.mem_flatMap.2 ⟨name, hname, hl⟩))
  exact ⟨hl'.not_moved fun e => hout (e ▸ hl), hl'.not_drained⟩

theorem fits_splice : ∀ x ∈ pre ++ qs ++ post,
    x.1 ∈ Labelled.labelsAll (Labelled.spliceAll n Ms Ls) ∧ g.Fits x.1 x.2 := by
  have hrest : ∀ x ∈ pre ++ post,
      x.1 ∈ Labelled.labelsAll (Labelled.spliceAll n Ms Ls) ∧ g.Fits x.1 x.2 := by
    intro x hx
    obtain ⟨hin, hxn, hdata, hkinds⟩ := h.fits_rest x hx
    have hlt := (h.unmoved_of_mem_trees hb hin).lt_size
    rw [h.labelsAll_splice hn]
    refine ⟨mem_replaced.2 (Or.inl ⟨hin, hxn⟩), (hb.splices.data_eq hlt).trans hdata, ?_⟩
    rwa [hb.splices.kind_eq hlt]
  intro x hx
  rw [List.append_assoc, List.mem_append, List.mem_append] at hx
  rcases hx with hx | hx | hx
  · exact hrest x (List.mem_append_left _ hx)
  · rw [h.labelsAll_splice hn]
    exact ⟨mem_replaced.2 (Or.inr ⟨h.mem_trees, (hb.due x hx).1⟩), (hb.due x hx).2.1⟩
  · exact hrest x (List.mem_append_right _ hx)

omit hn in
theorem targets_splice : ((pre ++ qs ++ post).map Prod.fst).Nodup := by
  have hd : ((pre ++ post).map Prod.fst).Nodup :=
    h.targets.sublist ((List.sublist_cons_self _ _).append_left _ |>.map _)
  have hperm : (pre ++ qs ++ post).Perm (qs ++ (pre ++ post)) := by
    rw [List.append_assoc]
    exact List.perm_append_comm_assoc _ _ _
  rw [(hperm.map Prod.fst).nodup_iff, List.map_append]
  refine List.nodup_append.2 ⟨hb.targets, hd, fun a ha b hbm e => ?_⟩
  obtain ⟨x, hx, rfl⟩ := List.mem_map.1 ha
  obtain ⟨y, hy, rfl⟩ := List.mem_map.1 hbm
  obtain ⟨hin, hyn, -⟩ := h.fits_rest y hy
  rcases (hb.due x hx).2.2 with hxn | hge
  · exact hyn (e ▸ hxn)
  · exact absurd (h.unmoved_of_mem_trees hb hin).lt_size (Nat.not_lt_of_le (e ▸ hge))

theorem splice : Laid stock root ⟨g, Labelled.spliceAll n Ms Ls, pre ++ qs ++ post⟩ := by
  have hroot := h.unmoved hb (l := root) (by simp [kept])
  have hrootn : root ≠ n := fun e => h.root_not_mem (e ▸ h.mem_trees)
  exact ⟨hb.sound, (hb.splices.kind_eq hroot.lt_size).trans h.kind_root,
    (hb.splices.link_eq hroot.lt_size (hroot.not_moved hrootn)).trans h.link_root,
    h.below.splice hb.splices hn ⟨hroot.lt_size, hroot.not_drained⟩ (fun _ => hb.holds)
      fun l hl => h.unmoved_of_mem_trees hb hl,
    h.stocked_splice hb hn, h.nodup_splice hb hn, h.fits_splice hb hn, h.targets_splice hb⟩

omit hn in
/-- Only the values in place of the one at `n` are due at the new nodes. -/
theorem lookAt_of_mem_brought {l : NodeId} (hl : l ∈ Labelled.labelsAll Ms) (S : Seen) :
    (pre ++ qs ++ post).lookAt stock S l = qs.lookAt stock S l := by
  refine lookAt_congr (h.targets_splice hb) hb.targets (fun v => ⟨fun hin => ?_, fun hin => ?_⟩) S
  · by_contra hnot
    have hrest : (l, v) ∈ pre ++ post := by
      rw [List.append_assoc, List.mem_append, List.mem_append] at hin
      rw [List.mem_append]
      tauto
    obtain ⟨hmem, hln, -⟩ := h.fits_rest _ hrest
    rcases hb.own l (List.mem_append_left _ hl) with e | hge | hused
    · exact hln e
    · exact absurd (h.unmoved_of_mem_trees hb hmem).lt_size (Nat.not_lt_of_le hge)
    · exact h.not_mem_used hb (List.mem_append_left _ (List.mem_cons_of_mem _ hmem)) hused
  · simp [hin]

/-- Trees that look like the value at `n` take its place unseen. -/
theorem unfolds_splice
    (hlook : ∀ S, Labelled.expandAll (qs.lookAt stock S) Ms =
      u.trees S fun name => Labelled.trees (stock name).trees) :
    Unfolds stock root n ⟨f, Ls, pre ++ (n, u) :: post⟩
      ⟨g, Labelled.spliceAll n Ms Ls, pre ++ qs ++ post⟩ := by
  refine ⟨h.splice hb hn, fun S => ?_, fun l hl hln => ?_⟩
  · refine h.below.holds.expandAll_splice hn (lookAt_of_mem (v := u) h.targets (by simp) S) ?_
      fun l hl hln => ?_
    · rw [Staged.look, ← hlook]
      exact hb.holds.expandAll_congr fun l hl _ => Or.inl (h.lookAt_of_mem_brought hb hl S)
    · refine lookAt_congr (h.targets_splice hb) h.targets (fun v => ?_) S
      have hout : (l, v) ∉ qs := fun hin => by
        rcases (hb.due _ hin).2.2 with e | hge
        · exact hln e
        · exact absurd (h.unmoved_of_mem_trees hb hl).lt_size (Nat.not_lt_of_le hge)
      simp [hout, hln]
  · have hl' := h.unmoved_of_mem_trees hb hl
    refine ⟨?_, hb.splices.link_eq hl'.lt_size (hl'.not_moved hln)⟩
    rw [h.labelsAll_splice hn]
    exact mem_replaced.2 (Or.inl ⟨hl, hln⟩)

end Splice

/-! ### Texts and nodes -/

theorem fits_at (h : Laid stock root ⟨f, Ls, pre ++ (n, u) :: post⟩) : f.Fits n u :=
  (h.fits (n, u) (by simp)).2

theorem exists_parent_at (h : Laid stock root ⟨f, Ls, pre ++ (n, u) :: post⟩)
    (hn : f.kind n = .comment) :
    f.Sound ∧ ∃ p, f.parent n = some p ∧ f.link n = some p ∧
      ∀ name ∈ u.names, (stock name).LiesIn f ∧ ¬ f.Above (stock name).node p := by
  obtain ⟨p, hp, hlink, hnot⟩ := h.exists_parent h.mem_trees hn
  have hmem : ∀ name ∈ u.names, name ∈ Due.names (pre ++ (n, u) :: post) := fun name hname => by
    simp [Due.names_append, Due.names_cons, hname]
  exact ⟨h.sound, p, hp, hlink, fun name hname =>
    ⟨h.stocked name (hmem name hname), hnot name (hmem name hname)⟩⟩

/-- A text takes the place of a comment. -/
theorem exists_text {t : String} (h : Laid stock root ⟨f, Ls, pre ++ (n, .text t) :: post⟩)
    (hn : f.kind n = .comment) (word : String) :
    ∃ g Ls', f.placeText n word t = (.ok (), g) ∧
      Unfolds stock root n ⟨f, Ls, pre ++ (n, .text t) :: post⟩ ⟨g, Ls', pre ++ post⟩ := by
  obtain ⟨hf, p, hp, hlink, -⟩ := h.exists_parent_at hn
  obtain ⟨g, hplace, hg, hs, hleaf⟩ := hf.exists_placeText hn hp word t
  have hb : Brings stock f g n (.text t) [.text f.size t] [] [] [f.size, n] [] := by
    refine ⟨hg, rfl, hs, ⟨by rw [hlink]; exact hleaf, trivial⟩, by simp [Labelled.labelsAll,
      Labelled.labels], ?_, by simp, by simp, by simp⟩
    simp [Labelled.labelsAll, Labelled.labels]
  have hunfolds := h.unfolds_splice hb hn fun S => rfl
  rw [List.append_nil] at hunfolds
  exact ⟨g, _, hplace, hunfolds⟩

/-- A node, or what a fragment holds, takes the place of a comment. -/
theorem exists_node {name : String} (h : Laid stock root ⟨f, Ls, pre ++ (n, .node name) :: post⟩)
    (hn : f.kind n = .comment) :
    ∃ g Ls', f.placeNode n (stock name).node = (.ok (), g) ∧
      Unfolds stock root n ⟨f, Ls, pre ++ (n, .node name) :: post⟩ ⟨g, Ls', pre ++ post⟩ := by
  have hname : name ∈ Due.names (pre ++ (n, .node name) :: post) := by
    simp [Due.names_append, Due.names_cons, Staged.names]
  have hin : ∀ l ∈ (stock name).labels, l ∈ stockLabels stock
      (Due.names (pre ++ (n, .node name) :: post)) := fun l hl =>
    List.mem_flatMap.2 ⟨name, hname, hl⟩
  have hd : (stock name).labels.Nodup :=
    (List.nodup_flatMap.1 (List.nodup_append.1 h.nodup).2.1).1 name hname
  have hout : n ∉ (stock name).labels := fun hl => h.not_mem_stock h.mem_trees (hin n hl)
  obtain ⟨hf, p, hp, hlink, hnames⟩ := h.exists_parent_at hn
  obtain ⟨hstock, hnot⟩ := hnames name List.mem_cons_self
  obtain ⟨g, hplace, hg, hs, hlinks⟩ := hf.exists_placeNode hn hp
    (hstock.lt_size _ (stock name).node_mem_labels) hstock.not_isAttr hstock.parent_eq hnot
  rw [hstock.pickUp_eq] at hs hlinks
  have hb : Brings stock f g n (.node name) (stock name).trees [] [name]
      ((stock name).trees.map (·.label) ++ [n]) (f.emptied (stock name).node) := by
    have hused : ∀ l ∈ (stock name).labels, l ∈ stockLabels stock [name] := fun l hl => by
      simpa [stockLabels] using hl
    have htrees : ∀ l ∈ Labelled.labelsAll (stock name).trees, l ∈ stockLabels stock [name] :=
      fun l hl => hused l ((stock name).sublist_labels.subset hl)
    refine ⟨hg, rfl, hs, ?_, hd.sublist (stock name).sublist_labels, fun l hl => ?_, fun l hl => ?_,
      by simp, by simp⟩
    · rw [hlink]
      exact hstock.relinked hs hn hd hout fun L hL => hlinks _ (List.mem_map_of_mem hL)
    · rcases List.mem_append.1 hl with hl | hl
      · exact Or.inr (Or.inr (htrees l hl))
      · rcases List.mem_append.1 hl with hl | hl
        · have hroots := (map_label_sublist (ι := id) (stock name).trees).subset hl
          exact Or.inr (Or.inr (htrees l (by rwa [List.map_id] at hroots)))
        · exact Or.inl (List.mem_singleton.1 hl)
    · rw [emptied] at hl
      split_ifs at hl
      · rw [List.mem_singleton.1 hl]
        exact hused _ (stock name).node_mem_labels
      · cases hl
  have hunfolds := h.unfolds_splice hb hn fun S => by
    rw [show Due.lookAt [] stock S = fun _ => none from rfl, Labelled.expandAll_none]
    rfl
  rw [List.append_nil] at hunfolds
  exact ⟨g, _, hplace, hunfolds⟩

/-! ### Lists -/

/-- The first item of a list gets a comment of its own. -/
theorem exists_slot {item : Staged} {items : List Staged}
    (h : Laid stock root ⟨f, Ls, pre ++ (n, .list (item :: items)) :: post⟩)
    (hn : f.kind n = .comment) (hp : f.parent n = some p) :
    ∃ g Ls', f.addSlot p n = (f.size, .ok (), g) ∧ g.kind n = .comment ∧
      g.parent n = some p ∧ g.kind f.size = .comment ∧
      Unfolds stock root n ⟨f, Ls, pre ++ (n, .list (item :: items)) :: post⟩
        ⟨g, Ls', pre ++ (f.size, item) :: (n, .list items) :: post⟩ := by
  have hlt : n < f.size := lt_size_of_parent hp
  have hlink : f.link n = some p := by
    rwa [parent_eq_link, if_neg (not_isAttr_of_parent hp)] at hp
  have hf : f.Sound := h.sound
  obtain ⟨g, hslot, hg, hs, hleaf⟩ := hf.exists_addSlot hp
  have hkind : g.kind n = .comment := (hs.kind_eq hlt).trans hn
  have hlink' : g.link n = some p := (hs.link_eq hlt (by simp [hlt.ne])).trans hlink
  have hdata : g.data n = "" := (hs.data_eq hlt).trans h.fits_at.1
  have hb : Brings stock f g n (.list (item :: items)) [.comment f.size "", .comment n ""]
      [(f.size, item), (n, .list items)] [] [f.size] [] := by
    refine ⟨hg, by simp [Staged.names, Staged.namesAll, Due.names], hs, ?_, ?_, ?_, by simp, ?_, ?_⟩
    · rw [hlink]
      exact ⟨hleaf, ⟨hkind, hlink', hdata, hg.children_eq_nil (n := n) (by rw [hkind]; rfl)⟩,
        trivial⟩
    · simp [Labelled.labelsAll, Labelled.labels, hlt.ne']
    · simp [Labelled.labelsAll, Labelled.labels]
    · simp [Labelled.labelsAll, Labelled.labels, Fits, hleaf.data_eq, hleaf.kind_eq, hkind, hdata]
    · simp [hlt.ne']
  have hunfolds := h.unfolds_splice hb hn fun S => by
    simp [Labelled.expandAll, Labelled.expand, Due.lookAt, List.lookup_cons,
      beq_false_of_ne hlt.ne, Staged.look, Staged.trees, Staged.treesAll]
  rw [List.append_assoc] at hunfolds
  refine ⟨g, _, hslot, hkind, ?_, hleaf.kind_eq, hunfolds⟩
  rwa [parent_eq_link, if_neg (by simp [hkind, Kind.isAttr])]

/-- When no item is left, the comment of a list goes. -/
theorem unfolds_remove (h : Laid stock root ⟨f, Ls, pre ++ (n, .list []) :: post⟩)
    (hn : f.kind n = .comment) :
    ∃ Ls', Unfolds stock root n ⟨f, Ls, pre ++ (n, .list []) :: post⟩
      ⟨f.remove n, Ls', pre ++ post⟩ := by
  obtain ⟨hg, hs⟩ := h.sound.splices_remove hn
  have hb : Brings stock f (f.remove n) n (.list []) [] [] [] [n] [] :=
    ⟨hg, rfl, hs, trivial, List.nodup_nil, by simp [Labelled.labelsAll], by simp, by simp, by simp⟩
  have hunfolds := h.unfolds_splice hb hn fun S => rfl
  rw [List.append_nil] at hunfolds
  exact ⟨_, hunfolds⟩

/-! ### Values that leave the layout as it is -/

/-- Where there is nothing to show, nothing happens. -/
theorem unfolds_empty (h : Laid stock root ⟨f, Ls, pre ++ (n, .empty) :: post⟩) :
    Unfolds stock root n ⟨f, Ls, pre ++ (n, .empty) :: post⟩ ⟨f, Ls, pre ++ post⟩ := by
  have hsub : (pre ++ post).Sublist (pre ++ (n, Staged.empty) :: post) :=
    (List.sublist_cons_self _ _).append_left _
  have htargets := h.targets.sublist (hsub.map Prod.fst)
  refine ⟨⟨h.sound, h.kind_root, h.link_root, h.below, fun name hname => h.stocked name ?_, ?_,
    fun x hx => h.fits x (hsub.subset hx), htargets⟩, fun S => ?_, fun l hl _ => ⟨hl, rfl⟩⟩
  · rwa [Due.names_append, Due.names_cons, Staged.names, List.nil_append, ← Due.names_append]
  · have hnodup := h.nodup
    rwa [Due.names_append, Due.names_cons, Staged.names, List.nil_append,
      ← Due.names_append] at hnodup
  · refine h.below.holds.expandAll_congr fun l _ _ => ?_
    by_cases hln : l = n
    · subst hln
      exact Or.inr ⟨lookAt_of_not_mem h.not_mem_targets S,
        lookAt_of_mem (v := .empty) h.targets (by simp) S, h.fits_at.1⟩
    · exact Or.inl (lookAt_congr htargets h.targets (fun v => by simp [hln]) S)

/-- What is left of a sheet when an attribute has got its text. -/
theorem laid_write {t : String} (h : Laid stock root ⟨f, Ls, pre ++ (n, .text t) :: post⟩)
    (hn : (f.kind n).isAttr = true) :
    Laid stock root ⟨f.writeData n fun _ => t, Labelled.writeAll n t Ls, pre ++ post⟩ := by
  have hf : f.Sound := h.sound
  have hg : (f.writeData n fun _ => t).Sound := hf.writeData n _
  have hnames : Due.names (pre ++ (n, .text t) :: post) = (pre ++ post).names := by
    rw [Due.names_append, Due.names_cons, Staged.names, List.nil_append, ← Due.names_append]
  refine ⟨hg, ?_, ?_, h.below.write hn, fun name hname => ?_, ?_, fun x hx => ?_, ?_⟩
  · simpa using h.kind_root
  · simpa using h.link_root
  · rw [← hnames] at hname
    refine (h.stocked name hname).congr (by simp) fun l hl => ?_
    have hln : l ≠ n := fun e =>
      h.not_mem_stock (e ▸ h.mem_trees) (List.mem_flatMap.2 ⟨name, hname, hl⟩)
    rw [cell_writeData, if_neg fun e => hln e.1]
  · have hnodup := h.nodup
    rwa [hnames, ← Labelled.labelsAll_writeAll (n := n) t] at hnodup
  · obtain ⟨hin, hxn, hdata, hkinds⟩ := h.fits_rest x hx
    rw [Labelled.labelsAll_writeAll]
    refine ⟨hin, ?_, ?_⟩
    · rw [data_writeData, if_neg fun e => hxn e.1, hdata]
    · simpa using hkinds
  · exact h.targets.sublist ((List.sublist_cons_self _ _).append_left _ |>.map _)

/-- An attribute gets its text. -/
theorem exists_word {t : String} (h : Laid stock root ⟨f, Ls, pre ++ (n, .text t) :: post⟩)
    (hn : (f.kind n).isAttr = true) (word : String) :
    ∃ g Ls', f.placeText n word t = (.ok (), g) ∧
      Unfolds stock root n ⟨f, Ls, pre ++ (n, .text t) :: post⟩ ⟨g, Ls', pre ++ post⟩ := by
  have hplace : f.placeText n word t = (.ok (), f.writeData n fun _ => t) := by
    cases hk : f.kind n with
    | attr name => simp [placeText, hk, placed, setValue, setData, Kind.isAttr]
    | element _ | text | comment | fragment => simp [hk, Kind.isAttr] at hn
  have hlaid := h.laid_write hn
  refine ⟨_, _, hplace, hlaid, fun S => ?_, fun l hl _ => ⟨?_, ?_⟩⟩
  · exact h.below.holds.expandAll_write hn
      (lookAt_of_mem (v := .text t) h.targets (by simp) S) (lookAt_of_not_mem h.not_mem_targets S)
      fun l _ hln => lookAt_congr hlaid.targets h.targets (fun v => by simp [hln]) S
  · rwa [Labelled.labelsAll_writeAll]
  · simp

end Laid

end LiveMarkup
