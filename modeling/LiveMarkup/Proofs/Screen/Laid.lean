import Mathlib.Data.List.Pairwise
import LiveMarkup.Proofs.Forest.Joining
import LiveMarkup.Proofs.Forest.Subtrees
import LiveMarkup.Proofs.Screen.Staged

/-!
# Fragments that are being filled

A `Sheet` is a forest with the layout of a fragment and the values that are due at comments and
attributes of it.  `Laid` says that the forest holds the layout and, apart from it, the nodes that
the values name.  Each way to show a value turns a sheet into another one that looks the same once
all values have come (`Unfolds`). -/

namespace LiveMarkup

open Forest

variable {f g : Forest} {n p root : NodeId} {Ls Ms : List (Labelled NodeId)}

/-! ### Sheets -/

/-- Values that are due at nodes. -/
abbrev Due := List (NodeId × Staged)

namespace Due

/-- The names of the nodes in values. -/
def names (due : Due) : List String := Staged.namesAll (due.map Prod.snd)

/-- The look of the value that is due at a node. -/
def lookAt (due : Due) (stock : String → Stock) (S : Seen) (n : NodeId) : Option Look :=
  (due.lookup n).map (·.look S fun name => Labelled.trees (stock name).trees)

end Due

/-- A forest, what is laid out below a fragment, and the values due at nodes of the layout. -/
structure Sheet where
  forest : Forest
  trees : List (Labelled NodeId)
  due : Due

/-- What is seen below the fragment when the values that have come are shown. -/
def Sheet.shown (s : Sheet) (stock : String → Stock) (S : Seen) : List Tree :=
  Labelled.expandAll (s.due.lookAt stock S) s.trees

/-- The value can be shown at the node, which is an empty comment or an attribute node without a
value. -/
def Forest.Fits (f : Forest) (n : NodeId) (v : Staged) : Prop :=
  f.data n = "" ∧ (f.kind n = .comment ∨ (f.kind n).isAttr = true ∧ v.Plain)

/-- The nodes of the stock with the given names, with everything below them. -/
def stockLabels (stock : String → Stock) (names : List String) : List NodeId :=
  names.flatMap fun name => (stock name).labels

/-- The forest holds the layout of a sheet below `root`, the values that are due fit, and the nodes
that they name lie apart from the layout and from each other. -/
structure Laid (stock : String → Stock) (root : NodeId) (s : Sheet) : Prop where
  sound : s.forest.Sound
  kind_root : s.forest.kind root = .fragment
  link_root : s.forest.link root = none
  below : s.forest.HoldsBelow id root s.trees
  stocked : ∀ name ∈ s.due.names, (stock name).LiesIn s.forest
  nodup : (root :: Labelled.labelsAll s.trees ++ stockLabels stock s.due.names).Nodup
  fits : ∀ x ∈ s.due, x.1 ∈ Labelled.labelsAll s.trees ∧ s.forest.Fits x.1 x.2
  targets : (s.due.map Prod.fst).Nodup

/-- A sheet turns into another one by what happens to the value due at `n`: both look the same
whatever has come, and the other nodes of the layout stay where they are. -/
structure Unfolds (stock : String → Stock) (root n : NodeId) (s s' : Sheet) : Prop where
  laid : Laid stock root s'
  shown_eq (S : Seen) : s'.shown stock S = s.shown stock S
  keeps : ∀ l ∈ Labelled.labelsAll s.trees, l ≠ n →
    l ∈ Labelled.labelsAll s'.trees ∧ s'.forest.link l = s.forest.link l

variable {stock : String → Stock} {s s' s'' : Sheet} {pre post due due' : Due}
  {u v : Staged}

/-! ### Looking up values -/

theorem lookup_eq_some_iff_mem (hd : (due.map Prod.fst).Nodup) :
    due.lookup n = some v ↔ (n, v) ∈ due := by
  induction due with
  | nil => simp
  | cons x due ih =>
    obtain ⟨m, u⟩ := x
    rw [List.map_cons, List.nodup_cons] at hd
    rw [List.lookup_cons, List.mem_cons]
    by_cases hnm : n = m
    · subst hnm
      have hout : (n, v) ∉ due := fun hin => hd.1 (List.mem_map.2 ⟨(n, v), hin, rfl⟩)
      simp [hout, eq_comm]
    · rw [beq_false_of_ne hnm, ih hd.2]
      simp [hnm]

theorem lookup_congr (hd : (due.map Prod.fst).Nodup) (hd' : (due'.map Prod.fst).Nodup)
    (h : ∀ v, (n, v) ∈ due ↔ (n, v) ∈ due') : due.lookup n = due'.lookup n := by
  refine Option.ext fun v => ?_
  rw [lookup_eq_some_iff_mem hd, lookup_eq_some_iff_mem hd', h]

theorem lookAt_congr (hd : (due.map Prod.fst).Nodup) (hd' : (due'.map Prod.fst).Nodup)
    (h : ∀ v, (n, v) ∈ due ↔ (n, v) ∈ due') (S : Seen) :
    due.lookAt stock S n = due'.lookAt stock S n := by
  rw [Due.lookAt, Due.lookAt, lookup_congr hd hd' h]

theorem lookAt_of_mem (hd : (due.map Prod.fst).Nodup) (h : (n, v) ∈ due) (S : Seen) :
    due.lookAt stock S n =
      some (v.look S fun name => Labelled.trees (stock name).trees) := by
  rw [Due.lookAt, (lookup_eq_some_iff_mem hd).2 h]
  rfl

theorem lookAt_of_not_mem (h : n ∉ due.map Prod.fst) (S : Seen) :
    due.lookAt stock S n = none := by
  rw [Due.lookAt, List.lookup_eq_none_iff.2, Option.map_none]
  intro x hx
  exact bne_iff_ne.2 fun e => h (e ▸ List.mem_map_of_mem hx)

/-! ### Labels -/

theorem stockLabels_append (names names' : List String) :
    stockLabels stock (names ++ names') = stockLabels stock names ++ stockLabels stock names' :=
  List.flatMap_append

theorem Due.names_append (pre post : Due) : names (pre ++ post) = pre.names ++ post.names := by
  rw [names, List.map_append, Staged.namesAll_append]
  rfl

theorem Due.names_cons (n : NodeId) (u : Staged) (post : Due) :
    names ((n, u) :: post) = u.names ++ post.names := rfl

theorem nodup_replaced {ms cs bs : List NodeId} (hd : (cs ++ bs).Nodup) (hms : ms.Nodup)
    (hn : n ∈ cs) (hout : ∀ m ∈ ms, m = n ∨ m ∉ cs ++ bs) : (replaced n ms cs ++ bs).Nodup := by
  have hms' : ∀ m ∈ ms, m ∉ bs := fun m hm hb => by
    rcases hout m hm with rfl | hnot
    · exact (List.nodup_append.1 hd).2.2 m hn m hb rfl
    · exact hnot (List.mem_append_right _ hb)
  rw [List.nodup_append] at hd ⊢
  refine ⟨List.nodup_flatMap.2 ⟨fun c _ => ?_, ?_⟩, hd.2.1, fun m hm b hb => ?_⟩
  · split_ifs
    · exact hms
    · exact List.nodup_singleton c
  · refine List.Pairwise.imp_of_mem (fun {a b} ha hb hab m hma hmb => ?_) hd.1
    simp only at hma hmb
    split_ifs at hma hmb with h₁ h₂ h₂
    · exact hab (h₁.trans h₂.symm)
    · obtain rfl := List.mem_singleton.1 hmb
      rcases hout m hma with rfl | hnot
      · exact h₂ rfl
      · exact hnot (List.mem_append_left _ hb)
    · obtain rfl := List.mem_singleton.1 hma
      rcases hout m hmb with rfl | hnot
      · exact h₁ rfl
      · exact hnot (List.mem_append_left _ ha)
    · exact hab ((List.mem_singleton.1 hma).symm.trans (List.mem_singleton.1 hmb))
  · rintro rfl
    rcases mem_replaced.1 hm with ⟨hm, -⟩ | ⟨-, hm⟩
    · exact hd.2.2 m hm m hb rfl
    · exact hms' m hm hb

/-! ### Stock that stays where it is -/

theorem Forest.Stock.LiesIn.unspliced {S : Stock} {moved drained : List NodeId}
    (hs : Splices f g n (Ms.map (·.label)) moved drained) (hn : f.kind n = .comment)
    (h : S.LiesIn f) (hout : n ∉ S.labels) (hL : ∀ l ∈ S.labels, l ∉ moved ∧ l ∉ drained) :
    S.LiesIn g := by
  have hstays : ∀ l ∈ S.labels, Unmoved f n moved drained l := fun l hl =>
    ⟨h.lt_size l hl, fun _ => (hL l hl).1, (hL l hl).2⟩
  cases S with
  | tree L =>
    have hall : f.HoldsAll id none [L] := ⟨h.2, trivial⟩
    have hL' := hall.unspliced hs hn
      (by simpa [Labelled.labelsAll, Stock.labels] using hout)
      (by simpa [Labelled.labelsAll, Stock.labels] using hstays)
    exact ⟨h.1.trans_le hs.size_le, hL'.1⟩
  | fragment m Ls =>
    obtain ⟨hk, hl, hbelow⟩ := h
    obtain ⟨hm, hLs⟩ := List.forall_mem_cons.1 hstays
    rw [Stock.labels, List.mem_cons, not_or] at hout
    have hbelow' := hbelow.splice hs hn ⟨hm.lt_size, hm.not_drained⟩
      (fun hin => absurd hin hout.2) hLs
    rw [Labelled.spliceAll_of_not_mem hout.2] at hbelow'
    exact ⟨(hs.kind_eq hm.lt_size).trans hk,
      (hs.link_eq hm.lt_size (hm.not_moved (Ne.symm hout.1))).trans hl, hbelow'⟩

/-- What is picked up with a node. -/
theorem Forest.Stock.LiesIn.pickUp_eq {S : Stock} (h : S.LiesIn f) :
    (f.pickUp S.node).1 = S.trees.map (·.label) := by
  cases S with
  | tree L => exact (pickUp_of_ne_fragment h.2.kind_label.2).1
  | fragment m Ls =>
    rw [Stock.node, (pickUp_of_fragment h.1).1]
    exact h.2.2.children_eq

theorem label_ne_of_mem_labels (hd : (Labelled.labelsAll Ls).Nodup) {K L : Labelled NodeId}
    (hK : K ∈ Ls) (hL : L ∈ Ls) {l : NodeId} (hl : l ∈ L.labels) (hne : l ≠ L.label) :
    l ≠ K.label := by
  intro e
  by_cases hKL : K = L
  · exact hne (hKL ▸ e)
  · rw [Labelled.labelsAll_eq_flatMap, List.nodup_flatMap] at hd
    have hsymm : Std.Symm (Function.onFun List.Disjoint (Labelled.labels (α := NodeId))) :=
      ⟨fun _ _ h => List.disjoint_symm h⟩
    exact List.Pairwise.forall hd.2 hK hL hKL K.label_mem_labels (e ▸ hl)

/-- The trees of a node that has taken the place of a comment. -/
theorem Forest.Stock.LiesIn.relinked {S : Stock}
    (hs : Splices f g n (S.trees.map (·.label)) (S.trees.map (·.label) ++ [n]) (f.emptied S.node))
    (hn : f.kind n = .comment) (h : S.LiesIn f) (hd : S.labels.Nodup) (hout : n ∉ S.labels)
    {q : Option NodeId} (hlinks : ∀ L ∈ S.trees, g.link L.label = q) :
    g.HoldsAll id q S.trees := by
  have hlt := h.lt_size
  cases S with
  | tree L =>
    have hempty : f.emptied L.label = [] := if_neg h.2.kind_label.2
    rw [Stock.node, hempty] at hs
    refine ⟨h.2.relinked hs hn hout ⟨h.1, by simp⟩ (fun l hl hne => ?_) hd
      (hlinks L List.mem_cons_self), trivial⟩
    exact ⟨hlt l hl, fun hln => by simp [Stock.trees, hne, hln], by simp⟩
  | fragment m Ls =>
    obtain ⟨hk, -, hbelow⟩ := h
    obtain ⟨hm, hLs⟩ := List.nodup_cons.1 hd
    rw [Stock.node, show f.emptied m = [m] from if_pos hk] at hs
    rw [Stock.labels, List.mem_cons, not_or] at hout
    have hmem : ∀ L ∈ Ls, ∀ l ∈ L.labels, l ∈ Labelled.labelsAll Ls := fun L hL l hl => by
      rw [Labelled.labelsAll_eq_flatMap]
      exact List.mem_flatMap.2 ⟨L, hL, hl⟩
    refine hbelow.holds.relinked hs hn hout.2 (fun L hL => ?_) (fun L hL l hl hne => ?_)
      hLs hlinks
    · have hin := hmem L hL L.label L.label_mem_labels
      exact ⟨hlt _ (List.mem_cons_of_mem _ hin), fun e => hm (List.mem_singleton.1 e ▸ hin)⟩
    · have hin := hmem L hL l hl
      refine ⟨hlt _ (List.mem_cons_of_mem _ hin), fun hln hmoved => ?_,
        fun e => hm (List.mem_singleton.1 e ▸ hin)⟩
      rcases List.mem_append.1 hmoved with hmoved | hmoved
      · obtain ⟨K, hK, e⟩ := List.mem_map.1 hmoved
        exact label_ne_of_mem_labels hLs hK hL hl hne e.symm
      · exact hln (List.mem_singleton.1 hmoved)

/-! ### What a sheet guarantees -/

namespace Laid

section Facts

variable (h : Laid stock root s)

include h

theorem root_lt_size : root < s.forest.size :=
  lt_size_of_holdsChildren (by rw [h.kind_root]; rfl)

theorem parent_root : s.forest.parent root = none := by
  rw [parent_eq_link, h.link_root, ite_self]

theorem lt_size : ∀ l ∈ root :: Labelled.labelsAll s.trees ++ stockLabels stock s.due.names,
    l < s.forest.size := by
  intro l hl
  rcases List.mem_append.1 hl with hl | hl
  · rcases List.mem_cons.1 hl with rfl | hl
    · exact h.root_lt_size
    · exact h.below.holds.lt_size l hl
  · obtain ⟨name, hname, hl⟩ := List.mem_flatMap.1 hl
    exact (h.stocked name hname).lt_size l hl

theorem labels_nodup : (Labelled.labelsAll s.trees).Nodup :=
  (List.nodup_append.1 h.nodup).1.of_cons

theorem root_not_mem : root ∉ Labelled.labelsAll s.trees :=
  (List.nodup_cons.1 (List.nodup_append.1 h.nodup).1).1

theorem not_mem_stock {l : NodeId} (hl : l ∈ Labelled.labelsAll s.trees) :
    l ∉ stockLabels stock s.due.names := fun hin =>
  (List.nodup_append.1 h.nodup).2.2 l (List.mem_cons_of_mem _ hl) l hin rfl

/-- The parent of a comment of the layout lies in the fragment, and in nothing else. -/
theorem exists_parent (hn : n ∈ Labelled.labelsAll s.trees) (hk : s.forest.kind n = .comment) :
    ∃ p, s.forest.parent n = some p ∧ s.forest.link n = some p ∧
      ∀ name ∈ s.due.names, ¬ s.forest.Above (stock name).node p := by
  have hna : ¬ (s.forest.kind n).isAttr = true := by simp [hk, Kind.isAttr]
  have hinside := h.below.holds.inside n hn
  have habove := hinside.above (by simp [h.kind_root, Kind.isAttr])
  rw [id, owner_of_not_isAttr hna, Option.getD_none] at habove
  rcases habove.cases with rfl | ⟨p, hp, -⟩
  · exact absurd hn h.root_not_mem
  · refine ⟨p, hp, ?_, fun name hname hname' => ?_⟩
    · rwa [parent_eq_link, if_neg hna] at hp
    · have hstock := h.stocked name hname
      have heq := h.sound.eq_of_inside hstock.parent_eq h.parent_root hstock.not_isAttr
        (by simp [h.kind_root, Kind.isAttr]) (Or.inl (hname'.trans (Above.of_parent hp))) hinside
      exact (List.nodup_append.1 h.nodup).2.2 root List.mem_cons_self root
        (List.mem_flatMap.2 ⟨name, hname, heq ▸ (stock name).node_mem_labels⟩) rfl

/-- A fragment in which nothing of what is due has come looks like its layout. -/
theorem snapshot_of_blocked {S : Seen} (hblocked : ∀ x ∈ s.due, x.2.Blocked S) :
    s.forest.snapshot root = .fragment (s.shown stock S) := by
  have hnodup : ((Labelled.labelsAll s.trees).map id).Nodup := by
    rw [List.map_id]
    exact h.labels_nodup
  rw [h.below.snapshot h.kind_root hnodup, ← Labelled.expandAll_none, Sheet.shown]
  refine congrArg _ (h.below.holds.expandAll_congr fun l _ _ => ?_)
  by_cases hl : l ∈ s.due.map Prod.fst
  · obtain ⟨x, hx, rfl⟩ := List.mem_map.1 hl
    refine Or.inr ⟨rfl, ?_, (h.fits x hx).2.1⟩
    rw [lookAt_of_mem h.targets hx, Staged.look_of_blocked (hblocked x hx)]
  · exact Or.inl (lookAt_of_not_mem hl S).symm

end Facts

/-- The order in which values are listed does not matter. -/
theorem perm (h : Laid stock root ⟨f, Ls, due⟩) (hp : due.Perm due') :
    Laid stock root ⟨f, Ls, due'⟩ ∧
      ∀ S, Sheet.shown ⟨f, Ls, due'⟩ stock S = Sheet.shown ⟨f, Ls, due⟩ stock S := by
  have hnames : due.names.Perm due'.names := by
    rw [Due.names, Due.names, Staged.namesAll_eq_flatMap, Staged.namesAll_eq_flatMap]
    exact (hp.map Prod.snd).flatMap_right _
  have htargets : (due'.map Prod.fst).Nodup := (hp.map Prod.fst).nodup_iff.1 h.targets
  refine ⟨⟨h.sound, h.kind_root, h.link_root, h.below, fun name hname => ?_, ?_, fun x hx => ?_,
    htargets⟩, fun S => ?_⟩
  · exact h.stocked name (hnames.mem_iff.2 hname)
  · exact ((hnames.flatMap_right _).append_left _).nodup_iff.1 h.nodup
  · exact h.fits x (hp.mem_iff.2 hx)
  · have hlooks : due'.lookAt stock S = due.lookAt stock S :=
      funext fun n => lookAt_congr htargets h.targets (fun v => hp.mem_iff.symm) S
    rw [Sheet.shown, Sheet.shown, hlooks]

end Laid

end LiveMarkup
