import LiveMarkup.Proofs.Forest.Changes
import LiveMarkup.Proofs.Forest.Subtrees

/-!
# What is kept when nodes are released

Releasing what nothing holds leaves alone every node that is held together with all nodes above it
(`release_frame`).  A node that is held holds the whole layout below it
(`HoldsAll.mem_heldBelow`, `Stock.LiesIn.mem_heldBelow`).
-/

namespace LiveMarkup

namespace Forest

variable {α : Type} {f g : Forest} {l m n p : NodeId} {q : Option NodeId} {ns : List NodeId}

/-! ### What a node holds -/

theorem mem_heldBelow_of_mem (fuel : ℕ) (h : n ∈ ns) : n ∈ f.heldBelow (fuel + 1) ns :=
  List.mem_flatMap.2 ⟨n, h, List.mem_cons_self⟩

mutual

/-- A held node holds the layout below it, if the depth suffices. -/
theorem Holds.mem_heldBelow {q : Option NodeId} {L : Labelled NodeId} {fuel : ℕ}
    {ns : List NodeId} (h : f.Holds id q L) (hns : L.label ∈ ns) (hfuel : L.labels.length ≤ fuel) :
    ∀ l ∈ L.labels, l ∈ f.heldBelow fuel ns := by
  cases L with
  | text m s | comment m s =>
    obtain ⟨fuel, rfl⟩ := Nat.exists_eq_add_of_le' hfuel
    exact List.forall_mem_singleton.2 (mem_heldBelow_of_mem fuel hns)
  | element m tag as cs =>
    obtain ⟨he, -, hcs⟩ := h
    rw [Labelled.labels, List.cons_append, List.length_cons, List.length_append] at hfuel
    obtain ⟨fuel, rfl⟩ := Nat.exists_eq_add_of_le' (Nat.le_of_add_left_le hfuel)
    intro l hl
    rw [Labelled.labels, List.cons_append, List.mem_cons, List.mem_append] at hl
    refine List.mem_flatMap.2 ⟨m, hns, ?_⟩
    rw [List.cons_append, List.mem_cons, List.mem_append, show f.attributes m = _ from
      he.attributes_eq, show f.children m = _ from he.children_eq]
    refine hl.imp_right (Or.imp id fun hl => ?_)
    exact hcs.mem_heldBelow (fun L hL => List.mem_map_of_mem hL) (by omega) l hl

theorem HoldsAll.mem_heldBelow {q : Option NodeId} {Ls : List (Labelled NodeId)} {fuel : ℕ}
    {ns : List NodeId} (h : f.HoldsAll id q Ls) (hns : ∀ L ∈ Ls, L.label ∈ ns)
    (hfuel : (Labelled.labelsAll Ls).length ≤ fuel) :
    ∀ l ∈ Labelled.labelsAll Ls, l ∈ f.heldBelow fuel ns := by
  cases Ls with
  | nil => exact fun _ hl => nomatch hl
  | cons L Ls =>
    rw [Labelled.labelsAll, List.length_append] at hfuel
    intro l hl
    rcases List.mem_append.1 hl with hl | hl
    · exact h.1.mem_heldBelow (hns L List.mem_cons_self) (by omega) l hl
    · exact h.2.mem_heldBelow (fun L hL => hns L (List.mem_cons_of_mem _ hL)) (by omega) l hl

end

/-- What lies below a held node is held. -/
theorem HoldsBelow.mem_heldBelow {Ls : List (Labelled NodeId)} {fuel : ℕ}
    (h : f.HoldsBelow id p Ls) (hns : p ∈ ns) (hfuel : (Labelled.labelsAll Ls).length ≤ fuel) :
    ∀ l ∈ p :: Labelled.labelsAll Ls, l ∈ f.heldBelow (fuel + 1) ns := by
  intro l hl
  refine List.mem_flatMap.2 ⟨p, hns, ?_⟩
  rw [List.cons_append, List.mem_cons, List.mem_append, h.children_eq]
  refine (List.mem_cons.1 hl).imp_right fun hl => Or.inr ?_
  exact h.holds.mem_heldBelow (fun L hL => List.mem_map_of_mem hL) hfuel l hl

/-- Distinct nodes of a forest are not more than its nodes. -/
theorem length_le_size (hd : ns.Nodup) (hlt : ∀ l ∈ ns, l < f.size) : ns.length ≤ f.size := by
  have hsub : ns ⊆ List.range f.size := fun l hl => List.mem_range.2 (hlt l hl)
  simpa using hd.length_le_of_subset hsub

/-- A held node of a stock holds what lies below it. -/
theorem Stock.LiesIn.mem_heldBelow {S : Stock} (h : S.LiesIn f) (hd : S.labels.Nodup)
    (hns : S.node ∈ ns) : ∀ l ∈ S.labels, l ∈ f.heldBelow (f.size + 1) ns := by
  have hlength := length_le_size hd h.lt_size
  cases S with
  | tree L => exact h.2.mem_heldBelow hns (hlength.trans (Nat.le_succ _))
  | fragment m Ls =>
    exact h.2.2.mem_heldBelow hns ((Nat.le_succ _).trans hlength)

/-! ### The nodes above a layout -/

mutual

/-- A node of a layout is linked to another one, apart from the root. -/
theorem Holds.link_mem {q : Option NodeId} {L : Labelled NodeId} (h : f.Holds id q L) :
    ∀ l ∈ L.labels, f.link l = q ∨ ∃ m ∈ L.labels, f.link l = some m := by
  cases L with
  | text m s | comment m s => exact List.forall_mem_singleton.2 (Or.inl (HoldsLeaf.link_eq h))
  | element m tag as cs =>
    obtain ⟨he, has, hcs⟩ := h
    intro l hl
    rw [Labelled.labels, List.cons_append, List.mem_cons, List.mem_append] at hl
    rcases hl with rfl | hl | hl
    · exact Or.inl he.link_eq
    · obtain ⟨a, ha, rfl⟩ := List.mem_map.1 hl
      exact Or.inr ⟨m, List.mem_cons_self, (has a ha).link_eq⟩
    · refine Or.inr ((hcs.link_mem l hl).elim (fun hm => ⟨m, List.mem_cons_self, hm⟩) ?_)
      rintro ⟨k, hk, hlink⟩
      exact ⟨k, List.mem_cons_of_mem _ (List.mem_append_right _ hk), hlink⟩

theorem HoldsAll.link_mem {q : Option NodeId} {Ls : List (Labelled NodeId)}
    (h : f.HoldsAll id q Ls) : ∀ l ∈ Labelled.labelsAll Ls,
      f.link l = q ∨ ∃ m ∈ Labelled.labelsAll Ls, f.link l = some m := by
  cases Ls with
  | nil => exact fun _ hl => nomatch hl
  | cons L Ls =>
    intro l hl
    rcases List.mem_append.1 hl with hl | hl
    · refine (h.1.link_mem l hl).imp_right ?_
      rintro ⟨m, hm, hlink⟩
      exact ⟨m, List.mem_append_left _ hm, hlink⟩
    · refine (h.2.link_mem l hl).imp_right ?_
      rintro ⟨m, hm, hlink⟩
      exact ⟨m, List.mem_append_right _ hm, hlink⟩

end

/-- The nodes `K` are linked to each other only. -/
def Closed (f : Forest) (K : List NodeId) : Prop := ∀ l ∈ K, ∀ m, f.link l = some m → m ∈ K

theorem Closed.append {K K' : List NodeId} (h : f.Closed K) (h' : f.Closed K') :
    f.Closed (K ++ K') := by
  intro l hl m hm
  rcases List.mem_append.1 hl with hl | hl
  · exact List.mem_append_left _ (h l hl m hm)
  · exact List.mem_append_right _ (h' l hl m hm)

theorem HoldsBelow.closed {Ls : List (Labelled NodeId)} (h : f.HoldsBelow id p Ls)
    (hp : f.link p = none) : f.Closed (p :: Labelled.labelsAll Ls) := by
  intro l hl m hm
  rcases List.mem_cons.1 hl with rfl | hl
  · rw [hp] at hm
    cases hm
  · rcases h.holds.link_mem l hl with hlink | ⟨k, hk, hlink⟩
    · obtain rfl := Option.some.inj (hlink.symm.trans hm)
      exact List.mem_cons_self
    · obtain rfl := Option.some.inj (hlink.symm.trans hm)
      exact List.mem_cons_of_mem _ hk

theorem Stock.LiesIn.closed {S : Stock} (h : S.LiesIn f) : f.Closed S.labels := by
  cases S with
  | fragment n Ls => exact h.2.2.closed h.2.1
  | tree L =>
    intro l hl m hm
    rcases h.2.link_mem l hl with hlink | ⟨k, hk, hlink⟩
    · rw [hlink] at hm
      cases hm
    · exact Option.some.inj (hlink.symm.trans hm) ▸ hk

/-! ### Taking other nodes apart -/

theorem cell_foldl_setParent_none {cs : List NodeId} (h : m ∉ cs) :
    (cs.foldl (fun f c => f.setParent c none) f).cell m = f.cell m := by
  induction cs generalizing f with
  | nil => rfl
  | cons c cs ih =>
    rw [List.mem_cons, not_or] at h
    rw [List.foldl_cons, ih h.2, cell_setParent, if_neg fun hm => h.1 hm.1]

theorem cell_takeApart (hn : m ≠ n) (h : m ∉ f.children n ++ f.attributes n) :
    (f.takeApart n).cell m = f.cell m := by
  rw [takeApart, cell_modify, if_neg fun hm => hn hm.1, cell_foldl_setParent_none h]

/-- Taking nodes apart leaves alone what is linked to other nodes only. -/
theorem Sound.foldl_takeApart {K lost : List NodeId} (hf : f.Sound) (hK : f.Closed K)
    (hlost : ∀ n ∈ lost, n ∉ K) :
    (lost.foldl Forest.takeApart f).Sound ∧ (lost.foldl Forest.takeApart f).size = f.size ∧
      ∀ l ∈ K, (lost.foldl Forest.takeApart f).cell l = f.cell l := by
  induction lost generalizing f with
  | nil => exact ⟨hf, rfl, fun _ _ => rfl⟩
  | cons n lost ih =>
    obtain ⟨hn, hlost⟩ := List.forall_mem_cons.1 hlost
    have hcell : ∀ l ∈ K, (f.takeApart n).cell l = f.cell l := fun l hl => by
      refine cell_takeApart (fun e => hn (e ▸ hl)) fun hin => hn (hK l hl n ?_)
      rcases List.mem_append.1 hin with hin | hin
      · have hp := hf.mem_children_iff.1 hin
        rwa [parent_eq_link, if_neg (not_isAttr_of_parent hp)] at hp
      · have ho := hf.mem_attributes_iff.1 hin
        rwa [owner_eq_link, if_pos (isAttr_of_owner ho)] at ho
    obtain ⟨hs, hsize, hcells⟩ := ih (hf.takeApart n)
      (fun l hl m hm => hK l hl m (by rwa [link, hcell l hl] at hm)) hlost
    exact ⟨hs, hsize.trans (size_takeApart f n), fun l hl => (hcells l hl).trans (hcell l hl)⟩

end Forest

/-! ### Releasing -/

namespace World

variable {w : World} {n : NodeId}

theorem getD_foldl_setIfInBounds (ns : List NodeId) (kept : Array Bool) (hn : n < kept.size) :
    (ns.foldl (fun kept n => kept.setIfInBounds n true) kept).getD n false =
      (decide (n ∈ ns) || kept.getD n false) := by
  induction ns generalizing kept with
  | nil => simp
  | cons m ns ih =>
    rw [List.foldl_cons, ih _ (by simpa using hn)]
    by_cases hmn : m = n
    · subst hmn
      simp [hn]
    · simp [hmn, Ne.symm hmn]

theorem not_mem_lostNodes (hn : n < w.forest.size)
    (h : n ∈ w.forest.heldBelow (w.forest.size + 1) w.heldNodes) : n ∉ w.lostNodes := by
  intro hlost
  rw [lostNodes, List.mem_filter, Forest.keptBy, getD_foldl_setIfInBounds _ _ (by simpa using hn)]
    at hlost
  simp [h] at hlost

/-- Releasing leaves alone what is held together with all that it is linked to. -/
theorem release_frame {K : List NodeId} (hf : w.forest.Sound) (hK : w.forest.Closed K)
    (hlt : ∀ l ∈ K, l < w.forest.size)
    (hheld : ∀ l ∈ K, l ∈ w.forest.heldBelow (w.forest.size + 1) w.heldNodes) :
    w.release.forest.Sound ∧ w.release.forest.size = w.forest.size ∧
      ∀ l ∈ K, w.release.forest.cell l = w.forest.cell l :=
  hf.foldl_takeApart hK fun l hl hin => not_mem_lostNodes (hlt l hin) (hheld l hin) hl

/-- A named node is held. -/
theorem mem_heldNodes_of_get? {name : String} (h : w.page.nodes.get? name = some n) :
    n ∈ w.heldNodes := by
  obtain ⟨pre, post, hnodes, -⟩ := List.lookup_eq_some_iff.1 h
  have hmem : n ∈ w.page.nodes.map Prod.snd := by simp [hnodes]
  simp only [heldNodes, List.cons_append, List.mem_cons, List.mem_append, hmem, true_or, or_true]

end World

end LiveMarkup
