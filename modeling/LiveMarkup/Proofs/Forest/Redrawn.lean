import LiveMarkup.Page.Page
import LiveMarkup.Proofs.Forest.Frames
import LiveMarkup.Proofs.Forest.Replacing

/-!
# Redrawing a place

Nodes that take the place of a child change one list of children, and they leave the fragments that
they come from empty; all other lists stay as they are.  `Forest.Redraws` says so for every node,
and because the forest stays sound it thereby says where every node has its parent.
-/

namespace LiveMarkup.Forest

variable {f g h : Forest} {a c m n n' p q v : NodeId} {ms ms' drained drained' : List NodeId}

/-- In `g` the nodes `ms` stand where `n` stood in `f`, and the nodes in `drained` have no children
any more.  Nothing else has changed, except that there may be new nodes without children. -/
structure Redraws (f g : Forest) (n : NodeId) (ms drained : List NodeId) : Prop where
  sound : g.Sound
  size_le : f.size ≤ g.size
  kind_eq {m : NodeId} : m < f.size → g.kind m = f.kind m
  data_eq {m : NodeId} : m < f.size → g.data m = f.data m
  attributes_eq {m : NodeId} : m < f.size → g.attributes m = f.attributes m
  children_eq (m : NodeId) : g.children m = if m ∈ drained then [] else replaced n ms (f.children m)

/-- A node that can take the place of a child of `p`: it is there, may be a child, has no parent and
does not hold `p`. -/
structure Free (f : Forest) (p v : NodeId) : Prop where
  lt_size : v < f.size
  not_isAttr : ¬ (f.kind v).isAttr = true
  parent_eq : f.parent v = none
  not_above : ¬ f.Above v p

theorem Free.ne (hv : Free f p v) : p ≠ v := by
  rintro rfl
  exact hv.not_above (Above.refl p)

/-- Where the only new links lead to `p`, nothing has come to stand above `p`. -/
theorem above_of_parent_to (himp : ∀ m q, g.parent m = some q → q = p ∨ f.parent m = some q)
    (habove : g.Above a p) : f.Above a p := by
  induction habove using Relation.ReflTransGen.head_induction_on with
  | refl => exact Above.refl p
  | head hlink _ ih =>
    rcases himp _ _ hlink with rfl | hparent
    · exact Above.refl _
    · exact (Above.of_parent hparent).trans ih

theorem sublist_replaced {cs : List NodeId} (hn : n ∈ cs) : ms.Sublist (replaced n ms cs) := by
  obtain ⟨as, bs, rfl⟩ := List.append_of_mem hn
  have hmiddle : replaced n ms (n :: bs) = ms ++ replaced n ms bs := by
    rw [replaced, List.flatMap_cons, if_pos rfl, replaced]
  rw [replaced_append, hmiddle]
  exact (List.sublist_append_left _ _).trans (List.sublist_append_right _ _)

/-- An attribute has the same value where all that was there has the same kind and data. -/
theorem Sound.attrValue_eq (hf : f.Sound) (hattributes : g.attributes m = f.attributes m)
    (hkind : ∀ {n : NodeId}, n < f.size → g.kind n = f.kind n)
    (hdata : ∀ {n : NodeId}, n < f.size → g.data n = f.data n) (name : String) :
    g.attrValue m name = f.attrValue m name := by
  have hown {a : NodeId} (ha : a ∈ f.attributes m) : a < f.size :=
    lt_size_of_owner (hf.mem_attributes_iff.1 ha)
  exact attrValue_congr hattributes (fun _ ha => hkind (hown ha)) (fun _ ha => hdata (hown ha)) name

namespace Redraws

theorem refl (hf : f.Sound) (n : NodeId) : Redraws f f n [n] [] := by
  refine ⟨hf, le_rfl, fun _ => rfl, fun _ => rfl, fun _ => rfl, fun m => ?_⟩
  rw [if_neg List.not_mem_nil, replaced_self]

/-- What happens at the same place, or at a new node in that place, happens at that place. -/
theorem trans (hf : f.Sound) (hfg : Redraws f g n ms drained) (hgh : Redraws g h n' ms' drained')
    (hn : n' = n ∨ f.size ≤ n') : Redraws f h n (replaced n' ms' ms) (drained ++ drained') := by
  have hle {m : NodeId} (hm : m < f.size) : m < g.size := hm.trans_le hfg.size_le
  refine ⟨hgh.sound, hfg.size_le.trans hgh.size_le,
    fun hm => (hgh.kind_eq (hle hm)).trans (hfg.kind_eq hm),
    fun hm => (hgh.data_eq (hle hm)).trans (hfg.data_eq hm),
    fun hm => (hgh.attributes_eq (hle hm)).trans (hfg.attributes_eq hm), fun m => ?_⟩
  have hboth : replaced n' ms' (replaced n ms (f.children m)) =
      replaced n (replaced n' ms' ms) (f.children m) := by
    rcases hn with rfl | hnew
    · exact replaced_replaced
    · simp only [replaced, List.flatMap_assoc]
      refine List.flatMap_congr fun c hc => ?_
      have hcn : c ≠ n' := ((lt_size_of_parent (hf.mem_children_iff.1 hc)).trans_le hnew).ne
      split_ifs with h
      · rfl
      · simp [hcn]
  rw [hgh.children_eq, hfg.children_eq, ← hboth]
  by_cases hm : m ∈ drained <;> by_cases hm' : m ∈ drained' <;> simp [hm, hm', replaced]

theorem parent_eq_some_iff (hr : Redraws f g n ms drained) :
    g.parent m = some q ↔ q ∉ drained ∧ m ∈ replaced n ms (f.children q) := by
  rw [← hr.sound.mem_children_iff, hr.children_eq]
  split_ifs with hq <;> simp [hq]

section Place

variable (hf : f.Sound) (hr : Redraws f g n ms drained)

include hf hr

theorem parent_eq_none (hm : f.parent m = none) (hout : m ∉ ms) : g.parent m = none := by
  refine Option.eq_none_iff_forall_ne_some.2 fun q hq => ?_
  rcases mem_replaced.1 (hr.parent_eq_some_iff.1 hq).2 with ⟨hin, -⟩ | ⟨-, hin⟩
  · rw [hf.mem_children_iff, hm] at hin
    cases hin
  · exact hout hin

variable (hn : f.parent n = some p)

include hn

theorem parent_of_mem (hp : p ∉ drained) (hm : m ∈ ms) : g.parent m = some p :=
  hr.parent_eq_some_iff.2 ⟨hp, mem_replaced.2 (Or.inr ⟨hf.mem_children_iff.2 hn, hm⟩)⟩

theorem parent_imp (hm : g.parent m = some q) : q = p ∧ m ∈ ms ∨ f.parent m = some q := by
  rcases mem_replaced.1 (hr.parent_eq_some_iff.1 hm).2 with ⟨hin, -⟩ | ⟨hin, hin'⟩
  · exact Or.inr (hf.mem_children_iff.1 hin)
  · exact Or.inl ⟨Option.some.inj ((hf.mem_children_iff.1 hin).symm.trans hn), hin'⟩

theorem nodup (hp : p ∉ drained) : ms.Nodup := by
  have hchildren := hr.sound.nodup_children p
  rw [hr.children_eq, if_neg hp] at hchildren
  exact hchildren.sublist (sublist_replaced (hf.mem_children_iff.2 hn))

/-- A node that is free stays so unless it is one of those that are placed. -/
theorem free (hv : Free f p v) (hout : v ∉ ms) : Free g p v := by
  refine ⟨hv.lt_size.trans_le hr.size_le, ?_, hr.parent_eq_none hf hv.parent_eq hout,
    fun habove => hv.not_above (above_of_parent_to (fun m q hm => ?_) habove)⟩
  · rw [hr.kind_eq hv.lt_size]
    exact hv.not_isAttr
  · exact (hr.parent_imp hf hn hm).imp_left And.left

/-- A node that is free brings along what it did before. -/
theorem fst_pickUp (hv : Free f p v) (hout : v ∉ drained) : (g.pickUp v).1 = (f.pickUp v).1 := by
  have hnv : n ∉ f.children v := fun hin =>
    hv.ne (Option.some.inj (hn.symm.trans (hf.mem_children_iff.1 hin)))
  have hchildren : g.children v = f.children v := by
    rw [hr.children_eq, if_neg hout, replaced_of_not_mem hnv]
  unfold Forest.pickUp
  rw [hr.kind_eq hv.lt_size]
  split_ifs
  · exact hchildren
  · rfl

end Place

end Redraws

/-! ### Steps -/

theorem Splices.redraws {moved : List NodeId} (hs : Splices f g n ms moved drained) (hg : g.Sound)
    (hdrained : ∀ v ∈ drained, g.children v = [])
    (hnew : ∀ m, f.size ≤ m → g.children m = []) : Redraws f g n ms drained := by
  refine ⟨hg, hs.size_le, hs.kind_eq, hs.data_eq, hs.attributes_eq, fun m => ?_⟩
  split_ifs with hm
  · exact hdrained m hm
  · rcases Nat.lt_or_ge m f.size with hlt | hge
    · exact hs.children_eq hlt hm
    · rw [hnew m hge, children_of_size_le hge]
      rfl

theorem size_replaceWith (f : Forest) (n : NodeId) (ns : List NodeId) :
    (f.replaceWith n ns).2.size = f.size := by
  unfold replaceWith
  split
  · rfl
  · next p _ =>
    have hsize := (insertEach_frame (f := f) p n ns).1
    split
    · next g heq =>
      rw [heq] at hsize
      split_ifs
      · exact hsize
      · simpa using hsize
    · exact hsize

/-- A node that others have taken the place of has no parent. -/
theorem parent_replaceWith {ns : List NodeId} (hn : f.parent n = some p) (hout : n ∉ ns)
    (hreplace : f.replaceWith n ns = (.ok (), g)) : g.parent n = none := by
  simp only [replaceWith, hn] at hreplace
  split at hreplace
  · next g' _ =>
    rw [if_neg (by simpa using hout)] at hreplace
    obtain rfl : g'.detach n = g := (Prod.mk.inj hreplace).2
    rw [parent_detach, if_pos rfl]
  · next hrefused => exact absurd hreplace (hrefused g)

section Comment

variable (hf : f.Sound) (hk : f.kind n = .comment) (hn : f.parent n = some p)

include hf hk hn

/-- A new text takes the place of a comment. -/
theorem exists_redraws_text (kind s : String) :
    ∃ g, f.placeText n kind s = (.ok (), g) ∧ Redraws f g n [f.size] [] ∧ f.size < g.size ∧
      g.kind f.size = .text ∧ g.data f.size = s := by
  obtain ⟨g, hplace, hg, hs, hleaf⟩ := hf.exists_placeText hk hn kind s
  have hsize : g.size = f.size + 1 := by
    have hsnd : ((f.create .text s).2.replaceWith n [f.size]).2 = g := by
      have h := congrArg Prod.snd hplace
      simpa only [placeText, hk, fst_create, snd_placed] using h
    rw [← hsnd, size_replaceWith, size_create]
  refine ⟨g, hplace, hs.redraws hg (fun _ hv => absurd hv List.not_mem_nil) fun m hm => ?_,
    by omega, hleaf.kind_eq, hleaf.data_eq⟩
  rcases hm.eq_or_lt with rfl | hlt
  · exact hleaf.children_eq
  · exact children_of_size_le (by omega)

/-- A free node, or what it holds if it is a fragment, takes the place of a comment. -/
theorem exists_redraws_node (hv : Free f p v) :
    ∃ g, f.placeNode n v = (.ok (), g) ∧ Redraws f g n (f.pickUp v).1 (f.emptied v) := by
  obtain ⟨g, hplace, hg, hs, hlinks⟩ :=
    hf.exists_placeNode hk hn hv.lt_size hv.not_isAttr hv.parent_eq hv.not_above
  have hreplace : f.replaceWith n [v] = (.ok (), g) := by
    obtain ⟨g', hreplace', -⟩ :=
      hf.exists_replaceWith hn hv.lt_size hv.not_isAttr hv.parent_eq hv.not_above
    have h := hplace
    simp only [placeNode, if_neg hv.not_isAttr, hk, hreplace', placed] at h
    rw [hreplace', (Prod.mk.inj h).2]
  have hsize : g.size = f.size := by
    have h := size_replaceWith f n [v]
    rwa [hreplace] at h
  have hnv : n ≠ v := by
    rintro rfl
    rw [hv.parent_eq] at hn
    cases hn
  refine ⟨g, hplace, hs.redraws hg (fun u hu => ?_) fun m hm => children_of_size_le (by omega)⟩
  by_cases hfr : f.kind v = .fragment
  · obtain rfl : u = v := by simpa [emptied, hfr] using hu
    -- What was in the fragment has another parent now, and nothing else has come into it.
    refine List.eq_nil_iff_forall_not_mem.2 fun c hc => ?_
    have hparent : g.parent c = some u := hg.mem_children_iff.1 hc
    have hlink : g.link c = some u := by
      rwa [parent_eq_link, if_neg (not_isAttr_of_parent hparent)] at hparent
    have hlt : c < f.size := hsize ▸ lt_size_of_parent hparent
    by_cases hmoved : c ∈ (f.pickUp u).1
    · exact hv.ne (Option.some.inj ((hlinks c hmoved).symm.trans hlink))
    · by_cases hcn : c = n
      · rw [hcn, parent_replaceWith hn (by simpa using hnv) hreplace] at hparent
        cases hparent
      · have hout : c ∉ (f.pickUp u).1 ++ [n] := by simp [hmoved, hcn]
        have hold : f.parent c = some u :=
          (parent_congr (hs.kind_eq hlt) (hs.link_eq hlt hout)).symm.trans hparent
        rw [(pickUp_of_fragment hfr).1] at hmoved
        exact hmoved (hf.mem_children_iff.2 hold)
  · simp [emptied, hfr] at hu

omit hk in
/-- A new empty comment is put before a node. -/
theorem exists_redraws_slot :
    ∃ g, f.addSlot p n = (f.size, .ok (), g) ∧ Redraws f g n [f.size, n] [] ∧ f.size < g.size ∧
      g.kind f.size = .comment ∧ g.data f.size = "" := by
  obtain ⟨g, hslot, hg, hs, hleaf⟩ := hf.exists_addSlot hn
  have hsize : g.size = f.size + 1 := by
    have hframe := (insertBefore_frame (f := (f.create .comment "").2) p f.size (some n)).1
    have h := congrArg (fun x => x.2.2) hslot
    simp only [addSlot, fst_create, snd_placed] at h
    rw [← h, hframe, size_create]
  refine ⟨g, hslot, hs.redraws hg (fun _ hv => absurd hv List.not_mem_nil) fun m hm => ?_,
    by omega, hleaf.kind_eq, hleaf.data_eq⟩
  rcases hm.eq_or_lt with rfl | hlt
  · exact hleaf.children_eq
  · exact children_of_size_le (by omega)

omit hn in
/-- A comment is taken away. -/
theorem redraws_remove : Redraws f (f.remove n) n [] [] := by
  obtain ⟨hg, hs⟩ := hf.splices_remove hk
  have hsize : (f.remove n).size = f.size := by
    rw [remove, owner_of_not_isAttr (by simp [hk, Kind.isAttr])]
    simp
  exact hs.redraws hg (fun _ hv => absurd hv List.not_mem_nil)
    fun m hm => children_of_size_le (by omega)

end Comment

/-! ### Moving all children to a new fragment -/

/-- Loose nodes are put at the end of the children of `p`, one after the other. -/
theorem appendAll_of_loose {ns : List NodeId} (hf : f.Sound)
    (hp : (f.kind p).holdsChildren = true) (hns : ∀ v ∈ ns, Sound.Loose f p v) (hd : ns.Nodup) :
    (Page.appendAll f p ns).Sound ∧ (Page.appendAll f p ns).size = f.size ∧
      ∀ m, (Page.appendAll f p ns).kind m = f.kind m ∧ (Page.appendAll f p ns).data m = f.data m ∧
        (Page.appendAll f p ns).attributes m = f.attributes m ∧
        (Page.appendAll f p ns).children m =
          if m = p then f.children p ++ ns else f.children m := by
  induction ns generalizing f with
  | nil => exact ⟨hf, rfl, fun m => ⟨rfl, rfl, rfl, by simp +contextual [Page.appendAll]⟩⟩
  | cons v ns ih =>
    obtain ⟨hv, hrest⟩ := List.forall_mem_cons.1 hns
    obtain ⟨hout, hd'⟩ := List.nodup_cons.1 hd
    rw [Page.appendAll, hf.append_of_loose hp hv]
    obtain ⟨hg, hsize, hviews⟩ := ih (hf.insertAt hp hv le_rfl) (by simpa using hp)
      (fun m hm => hv.insertAt (hrest m hm) (fun e => hout (e ▸ hm)) _) hd'
    refine ⟨hg, by simpa using hsize, fun m => ?_⟩
    obtain ⟨hk, hdata, hattrs, hchildren⟩ := hviews m
    refine ⟨by simpa using hk, by simpa using hdata, by simpa using hattrs, ?_⟩
    have hps : p < f.size := lt_size_of_holdsChildren hp
    rw [hchildren, children_insertAt _ hps, children_insertAt _ hps, if_pos rfl]
    split_ifs <;> simp

/-- All children of a node are moved to a new fragment. -/
structure Saves (f g : Forest) (c : NodeId) : Prop where
  sound : g.Sound
  size_eq : g.size = f.size + 1
  kind_eq (m : NodeId) : g.kind m = if m = f.size then .fragment else f.kind m
  data_eq {m : NodeId} : m < f.size → g.data m = f.data m
  attributes_eq (m : NodeId) : g.attributes m = f.attributes m
  children_eq (m : NodeId) : g.children m =
    if m = f.size then f.children c else if m = c then [] else f.children m

theorem Saves.parent_eq_none (hf : f.Sound) (h : Saves f g c) (hm : f.parent m = none) :
    g.parent m = none := by
  have hno (q : NodeId) : m ∉ f.children q := fun hin => by
    rw [hf.mem_children_iff, hm] at hin
    cases hin
  refine Option.eq_none_iff_forall_ne_some.2 fun q hq => ?_
  have hin := h.sound.mem_children_iff.2 hq
  rw [h.children_eq] at hin
  split_ifs at hin
  · exact hno _ hin
  · cases hin
  · exact hno _ hin

theorem saves_appendAll (hf : f.Sound) (c : NodeId) : Saves f (Page.appendAll
    ((f.create .fragment "").2.takeChildren c).2 f.size (f.children c)) c := by
  have hg : (f.create .fragment "").2.Sound := hf.create .fragment "" isSmall_empty
  have hh : ((f.create .fragment "").2.takeChildren c).2.Sound := hg.takeChildren c
  have hkind : ((f.create .fragment "").2.takeChildren c).2.kind f.size = .fragment := by
    rw [kind_takeChildren, kind_create, if_pos rfl]
  have hchildren (m : NodeId) : ((f.create .fragment "").2.takeChildren c).2.children m =
      if m = c then [] else f.children m := by
    rw [children_takeChildren, children_create]
  have hempty : ((f.create .fragment "").2.takeChildren c).2.children f.size = [] := by
    rw [hchildren, children_of_size_le le_rfl, ite_self]
  have hloose : ∀ v ∈ f.children c,
      Sound.Loose ((f.create .fragment "").2.takeChildren c).2 f.size v := fun v hv => by
    have hparent : f.parent v = some c := hf.mem_children_iff.1 hv
    have hlt : v < f.size := lt_size_of_parent hparent
    have hnone : ((f.create .fragment "").2.takeChildren c).2.parent f.size = none := by
      rw [hg.parent_takeChildren_eq, parent_create, ite_eq_left_iff]
      refine fun _ => Option.eq_none_iff_forall_ne_some.2 fun q hq => ?_
      exact absurd (lt_size_of_parent hq) (Nat.lt_irrefl _)
    refine ⟨by simpa using hlt.trans (Nat.lt_succ_self _), ?_, ?_, ?_, fun habove => ?_⟩
    · simpa [kind_create, hlt.ne] using not_isAttr_of_parent hparent
    · simpa [kind_create, hlt.ne] using hf.ne_fragment_of_parent hparent
    · rw [hg.parent_takeChildren_eq, parent_create, if_pos hparent]
    · exact hlt.ne (habove.eq_of_parent_none hnone)
  obtain ⟨hs, hsize, hviews⟩ := appendAll_of_loose hh (by rw [hkind]; rfl) hloose
    (hf.nodup_children c)
  refine ⟨hs, by simpa using hsize, fun m => ?_, fun {m} hm => ?_, fun m => ?_, fun m => ?_⟩
  · rw [(hviews m).1, kind_takeChildren, kind_create]
  · rw [(hviews m).2.1, data_takeChildren, data_create, if_neg hm.ne]
  · rw [(hviews m).2.2.1, attributes_takeChildren, attributes_create]
  · rw [(hviews m).2.2.2, hempty, List.nil_append, hchildren]

end LiveMarkup.Forest
