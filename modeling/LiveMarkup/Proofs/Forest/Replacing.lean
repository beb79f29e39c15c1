import LiveMarkup.Proofs.Forest.Layout
import LiveMarkup.Proofs.Forest.Splicing
import LiveMarkup.Screen.Placement

/-!
# Replacing one node by others

Whatever takes the place of a node `n` among its siblings, every list of children changes in the
same way: the other nodes stand where `n` stood (`Forest.Splices`).  The steps that replacements
consist of change the lists in this way, and such changes compose. -/

namespace LiveMarkup.Forest

variable {f g h : Forest} {m n p v : NodeId} {cs ms ms' : List NodeId}

/-! ### Lists of children -/

/-- The nodes `ms` in place of `n`. -/
def replaced (n : NodeId) (ms cs : List NodeId) : List NodeId :=
  cs.flatMap fun c => if c = n then ms else [c]

theorem replaced_of_not_mem (hn : n ∉ cs) : replaced n ms cs = cs := by
  have hsame : ∀ c ∈ cs, (if c = n then ms else [c]) = [c] := fun c hc =>
    if_neg fun e : c = n => hn (e ▸ hc)
  rw [replaced, List.flatMap_congr hsame, List.flatMap_singleton']

theorem replaced_self : replaced n [n] cs = cs := by
  have hsame : ∀ c ∈ cs, (if c = n then [n] else [c]) = [c] := fun c _ => by
    split_ifs with hc
    · rw [hc]
    · rfl
  rw [replaced, List.flatMap_congr hsame, List.flatMap_singleton']

theorem replaced_replaced :
    replaced n ms' (replaced n ms cs) = replaced n (replaced n ms' ms) cs := by
  simp only [replaced, List.flatMap_assoc]
  refine List.flatMap_congr fun c _ => ?_
  split_ifs with hc
  · rfl
  · simp [hc]

theorem filter_eq_replaced : cs.filter (· != n) = replaced n [] cs := by
  induction cs with
  | nil => rfl
  | cons c cs ih =>
    rw [List.filter_cons, ih]
    by_cases hc : c = n <;> simp [replaced, hc]

theorem mem_replaced :
    m ∈ replaced n ms cs ↔ m ∈ cs ∧ m ≠ n ∨ n ∈ cs ∧ m ∈ ms := by
  rw [replaced, List.mem_flatMap]
  constructor
  · rintro ⟨c, hc, hm⟩
    split_ifs at hm with hcn
    · exact Or.inr ⟨hcn ▸ hc, hm⟩
    · obtain rfl := List.mem_singleton.1 hm
      exact Or.inl ⟨hc, hcn⟩
  · rintro (⟨hm, hmn⟩ | ⟨hn, hm⟩)
    · exact ⟨m, hm, by rw [if_neg hmn]; exact List.mem_singleton_self m⟩
    · exact ⟨n, hn, by rwa [if_pos rfl]⟩

theorem insertIdx_idxOf (hcs : cs.Nodup) (hn : n ∈ cs) :
    cs.insertIdx (cs.idxOf n) v = replaced n [v, n] cs := by
  induction cs with
  | nil => cases hn
  | cons c cs ih =>
    obtain ⟨hc, hnodup⟩ := List.nodup_cons.1 hcs
    by_cases hcn : c = n
    · subst hcn
      have hrest : replaced c [v, c] cs = cs := replaced_of_not_mem hc
      rw [List.idxOf_cons_self, List.insertIdx_zero, replaced, List.flatMap_cons, if_pos rfl,
        ← replaced, hrest]
      rfl
    · have hmem : n ∈ cs := (List.mem_cons.1 hn).resolve_left (Ne.symm hcn)
      rw [List.idxOf_cons_ne cs hcn, List.insertIdx_succ_cons, ih hnodup hmem, replaced, replaced,
        List.flatMap_cons, if_neg hcn]
      rfl

/-! ### Forests -/

/-- In `g` the nodes `ms` stand where `n` stood in `f`.  Only the nodes in `moved` are linked
elsewhere, and only the children of those in `drained` are not as they were, up to this. -/
structure Splices (f g : Forest) (n : NodeId) (ms moved drained : List NodeId) : Prop where
  size_le : f.size ≤ g.size
  kind_eq {m : NodeId} : m < f.size → g.kind m = f.kind m
  data_eq {m : NodeId} : m < f.size → g.data m = f.data m
  attributes_eq {m : NodeId} : m < f.size → g.attributes m = f.attributes m
  link_eq {m : NodeId} : m < f.size → m ∉ moved → g.link m = f.link m
  children_eq {m : NodeId} : m < f.size → m ∉ drained → g.children m = replaced n ms (f.children m)

namespace Splices

variable {moved moved' drained drained' : List NodeId}

theorem trans (hfg : Splices f g n ms moved drained) (hgh : Splices g h n ms' moved' drained') :
    Splices f h n (replaced n ms' ms) (moved ++ moved') (drained ++ drained') := by
  have hle {m : NodeId} (hm : m < f.size) : m < g.size := hm.trans_le hfg.size_le
  refine ⟨hfg.size_le.trans hgh.size_le, fun hm => (hgh.kind_eq (hle hm)).trans (hfg.kind_eq hm),
    fun hm => (hgh.data_eq (hle hm)).trans (hfg.data_eq hm),
    fun hm => (hgh.attributes_eq (hle hm)).trans (hfg.attributes_eq hm), fun hm hout => ?_,
    fun hm hout => ?_⟩
  · rw [List.mem_append, not_or] at hout
    exact (hgh.link_eq (hle hm) hout.2).trans (hfg.link_eq hm hout.1)
  · rw [List.mem_append, not_or] at hout
    rw [hgh.children_eq (hle hm) hout.2, hfg.children_eq hm hout.1, replaced_replaced]

theorem create (f : Forest) (n : NodeId) (k : Kind) (s : String) :
    Splices f (f.create k s).2 n [n] [] [] := by
  refine ⟨by simp, fun hm => ?_, fun hm => ?_, fun _ => by simp, fun _ _ => by simp,
    fun _ _ => by rw [replaced_self, children_create]⟩
  · rw [kind_create, if_neg hm.ne]
  · rw [data_create, if_neg hm.ne]

theorem detach (hf : f.Sound) (n : NodeId) : Splices f (f.detach n) n [] [n] [] := by
  refine ⟨by simp, fun _ => by simp, fun _ => by simp, fun _ => by simp, fun {m} _ hout => ?_,
    fun _ _ => ?_⟩
  · rw [link_detach, if_neg (by simpa using hout)]
  · rw [hf.children_detach_eq, filter_eq_replaced]

theorem takeChildren (f : Forest) (n v : NodeId) :
    Splices f (f.takeChildren v).2 n [n] (f.children v) [v] := by
  refine ⟨by simp, fun _ => by simp, fun _ => by simp, fun _ => by simp, fun _ hout => ?_,
    fun _ hout => ?_⟩
  · rw [link_takeChildren, if_neg hout]
  · rw [replaced_self, children_takeChildren, if_neg (by simpa using hout)]

theorem insertAt (hf : f.Sound) (hn : f.parent n = some p) (hv : Sound.Loose f p v) :
    Splices f (f.insertAt p ((f.children p).idxOf n) v) n [v, n] [v] [] := by
  have hp : p < f.size := hf.lt_size_of_child hn
  refine ⟨by simp, fun _ => by simp, fun _ => by simp, fun _ => by simp, fun {m} _ hout => ?_,
    fun {m} _ _ => ?_⟩
  · rw [link_insertAt _ hv.lt_size, if_neg (by simpa using hout)]
  · rw [children_insertAt _ hp]
    split_ifs with hm
    · rw [hm]
      exact insertIdx_idxOf (hf.nodup_children p) (hf.mem_children_iff.2 hn)
    · refine (replaced_of_not_mem fun hin => hm ?_).symm
      exact Option.some.inj ((hf.mem_children_iff.1 hin).symm.trans hn)

theorem refl (f : Forest) (n : NodeId) : Splices f f n [n] [] [] :=
  ⟨le_rfl, fun _ => rfl, fun _ => rfl, fun _ => rfl, fun _ _ => rfl, fun _ _ => replaced_self.symm⟩

theorem mono (hs : Splices f g n ms moved drained) (hsub : moved ⊆ moved') :
    Splices f g n ms moved' drained :=
  ⟨hs.size_le, hs.kind_eq, hs.data_eq, hs.attributes_eq,
    fun hm hout => hs.link_eq hm fun hin => hout (hsub hin), hs.children_eq⟩

end Splices

theorem replaced_append (as bs : List NodeId) :
    replaced n ms (as ++ bs) = replaced n ms as ++ replaced n ms bs :=
  List.flatMap_append

theorem replaced_singleton : replaced n ms [n] = ms := by
  rw [replaced, List.flatMap_singleton, if_pos rfl]

/-! ### Insertion before a node -/

/-- A node that is put before `n` moves `n` by one place. -/
theorem idxOf_insertIdx (hv : v ≠ n) : (cs.insertIdx (cs.idxOf n) v).idxOf n = cs.idxOf n + 1 := by
  induction cs with
  | nil => simp [hv]
  | cons c cs ih =>
    by_cases hcn : c = n
    · simp [hcn, hv]
    · rw [List.idxOf_cons_ne cs hcn, List.insertIdx_succ_cons, List.idxOf_cons_ne _ hcn, ih]

namespace Sound

/-- A loose node stays loose while another one is put among the children of `p`. -/
theorem Loose.insertAt (hv : Loose f p v) (hm : Loose f p m) (hmv : m ≠ v) (i : ℕ) :
    Loose (f.insertAt p i v) p m := by
  have hg : ∀ k, (f.insertAt p i v).parent k = if k = v then some p else f.parent k :=
    fun k => parent_insertAt i hv.lt_size hv.not_isAttr
  exact ⟨by simpa using hm.lt_size, by simpa using hm.not_isAttr, by simpa using hm.ne_fragment,
    by rw [hg, if_neg hmv, hm.parent_eq], fun h => hm.not_above (above_of_link hg hv.not_above h)⟩

variable {vs : List NodeId}

/-- Loose nodes are put before `n`. -/
theorem splices_insertAllAt (hf : f.Sound) (hn : f.parent n = some p)
    (hvs : ∀ v ∈ vs, Loose f p v) (hd : vs.Nodup) :
    (f.insertAllAt p ((f.children p).idxOf n) vs).parent n = some p ∧
      Splices f (f.insertAllAt p ((f.children p).idxOf n) vs) n (vs ++ [n]) vs [] ∧
      ∀ v ∈ vs, (f.insertAllAt p ((f.children p).idxOf n) vs).link v = some p := by
  induction vs generalizing f with
  | nil => exact ⟨hn, .refl f n, by simp⟩
  | cons v vs ih =>
    obtain ⟨hv, hrest⟩ := List.forall_mem_cons.1 hvs
    obtain ⟨hvs', hd'⟩ := List.nodup_cons.1 hd
    have hp : (f.kind p).holdsChildren = true := hf.holdsChildren_of_parent hn
    have hnv : n ≠ v := by
      rintro rfl
      rw [hv.parent_eq] at hn
      cases hn
    have hg : (f.insertAt p ((f.children p).idxOf n) v).Sound :=
      hf.insertAt hp hv List.idxOf_le_length
    have hgn : (f.insertAt p ((f.children p).idxOf n) v).parent n = some p := by
      rw [parent_insertAt _ hv.lt_size hv.not_isAttr, if_neg hnv, hn]
    have hplace : ((f.insertAt p ((f.children p).idxOf n) v).children p).idxOf n =
        (f.children p).idxOf n + 1 := by
      rw [children_insertAt _ (hf.lt_size_of_child hn), if_pos rfl, idxOf_insertIdx hnv.symm]
    have hfirst := Splices.insertAt hf hn hv
    obtain ⟨hparent, hs, hlinks⟩ := ih hg hgn
      (fun m hm => hv.insertAt (hrest m hm) (fun e => hvs' (e ▸ hm)) _) hd'
    rw [hplace] at hparent hs hlinks
    have hms : replaced n (vs ++ [n]) [v, n] = v :: vs ++ [n] := by simp [replaced, hnv.symm]
    refine ⟨hparent, ?_, fun m hm => ?_⟩
    · have := hfirst.trans hs
      rwa [hms] at this
    · rcases List.mem_cons.1 hm with rfl | hm
      · have hlt : m < (f.insertAt p ((f.children p).idxOf n) m).size := by simpa using hv.lt_size
        rw [Forest.insertAllAt, hs.link_eq hlt hvs', link_insertAt _ hv.lt_size, if_pos rfl]
      · exact hlinks m hm

end Sound

/-- The fragment that is emptied when a node is picked up. -/
def emptied (f : Forest) (v : NodeId) : List NodeId := if f.kind v = .fragment then [v] else []

namespace Sound

theorem splices_pickUp (ha : ¬ (f.kind v).isAttr = true) (hv : f.parent v = none) (n : NodeId) :
    Splices f (f.pickUp v).2 n [n] (f.pickUp v).1 (f.emptied v) := by
  unfold Forest.pickUp emptied
  split_ifs with hfr
  · exact .takeChildren f n v
  · rw [detach_eq_self ha hv]
    exact (Splices.refl f n).mono (List.nil_subset _)

/-- A node without a parent, or what it holds if it is a fragment, is put before `n`. -/
theorem exists_insertBefore (hf : f.Sound) (hn : f.parent n = some p) (hlt : v < f.size)
    (ha : ¬ (f.kind v).isAttr = true) (hv : f.parent v = none) (hnot : ¬ f.Above v p) :
    ∃ g, f.insertBefore p v (some n) = (.ok (), g) ∧ g.Sound ∧ g.parent n = some p ∧
      Splices f g n ((f.pickUp v).1 ++ [n]) (f.pickUp v).1 (f.emptied v) ∧
      ∀ m ∈ (f.pickUp v).1, g.link m = some p := by
  have hp : (f.kind p).holdsChildren = true := hf.holdsChildren_of_parent hn
  have hnv : n ≠ v := by
    rintro rfl
    rw [hv] at hn
    cases hn
  have hout : f.contains v p = false := by
    rw [Bool.eq_false_iff]
    exact fun h => hnot (hf.contains_iff.1 h)
  have hfault : f.insertFault? p v (some n) = none := by simp [insertFault?, hp, ha, hout, hn]
  have hgo := hf.insertBefore hlt p (some n)
  obtain ⟨hs, -, hkind, hd, -, hloose⟩ := hf.pickUp hlt ha hnot
  have hpick := splices_pickUp ha hv n
  have hmoved : n ∉ (f.pickUp v).1 := fun hin => by
    have hparent : f.parent n = none ∨ f.parent n = some v := by
      unfold Forest.pickUp at hin
      split_ifs at hin with hfr
      · exact Or.inr (hf.mem_children_iff.1 hin)
      · exact absurd (List.mem_singleton.1 hin) hnv
    rcases hparent with hnone | hsome
    · rw [hn] at hnone
      cases hnone
    · rw [hn] at hsome
      exact hnot (Option.some.inj hsome ▸ Above.refl p)
  have hn' : (f.pickUp v).2.parent n = some p :=
    (parent_congr (hkind n) (hpick.link_eq (lt_size_of_parent hn) hmoved)).trans hn
  obtain ⟨hparent, hsplices, hlinks⟩ := hs.splices_insertAllAt hn' hloose hd
  have hinsert : f.insertBefore p v (some n) = (.ok (), (f.pickUp v).2.insertAllAt p
      (((f.pickUp v).2.children p).idxOf n) (f.pickUp v).1) := by
    rw [Forest.insertBefore, hfault]
    simp [hnv, indexInParent_eq hn' (hs.mem_children_iff.2 hn')]
  rw [hinsert] at hgo
  refine ⟨_, hinsert, hgo, hparent, ?_, hlinks⟩
  have hboth := hpick.trans hsplices
  rw [replaced_singleton, List.append_nil] at hboth
  exact hboth.mono (by simp)

/-- A node without a parent, or what it holds if it is a fragment, takes the place of `n`. -/
theorem exists_replaceWith (hf : f.Sound) (hn : f.parent n = some p) (hlt : v < f.size)
    (ha : ¬ (f.kind v).isAttr = true) (hv : f.parent v = none) (hnot : ¬ f.Above v p) :
    ∃ g, f.replaceWith n [v] = (.ok (), g) ∧ g.Sound ∧
      Splices f g n (f.pickUp v).1 ((f.pickUp v).1 ++ [n]) (f.emptied v) ∧
      ∀ m ∈ (f.pickUp v).1, g.link m = some p := by
  obtain ⟨g, hinsert, hg, hgn, hs, hlinks⟩ := hf.exists_insertBefore hn hlt ha hv hnot
  have hvn : v ≠ n := by
    rintro rfl
    rw [hv] at hn
    cases hn
  have hout : n ∉ (f.pickUp v).1 := fun hin => by
    unfold Forest.pickUp at hin
    split_ifs at hin with hfr
    · have hsome := hf.mem_children_iff.1 hin
      rw [hn] at hsome
      exact hnot (Option.some.inj hsome ▸ Above.refl p)
    · exact hvn (List.mem_singleton.1 hin).symm
  have hdetached := Splices.detach hg n
  refine ⟨g.detach n, ?_, hg.detach (owner_of_not_isAttr (not_isAttr_of_parent hgn)), ?_,
    fun m hm => ?_⟩
  · rw [Forest.replaceWith, hn]
    simp [Forest.insertEach, hvn, hinsert, Ne.symm hvn]
  · have hboth := hs.trans hdetached
    rw [replaced_append, replaced_singleton, replaced_of_not_mem hout] at hboth
    simpa using hboth
  · rw [link_detach, if_neg fun e : m = n => hout (e ▸ hm)]
    exact hlinks m hm

end Sound

theorem pickUp_of_ne_fragment (hv : f.kind v ≠ .fragment) :
    (f.pickUp v).1 = [v] ∧ f.emptied v = [] := by
  rw [pickUp, emptied, if_neg hv, if_neg hv]
  exact ⟨rfl, rfl⟩

theorem pickUp_of_fragment (hv : f.kind v = .fragment) :
    (f.pickUp v).1 = f.children v ∧ f.emptied v = [v] := by
  rw [pickUp, emptied, if_pos hv, if_pos hv]
  exact ⟨rfl, rfl⟩

/-! ### Values at a comment -/

section Comment

variable (hf : f.Sound) (hk : f.kind n = .comment) (hn : f.parent n = some p) {k : Kind}
  {s : String}

/-- A new leaf that has been put among the children of `p`. -/
theorem holdsLeaf_of_splices {moved : List NodeId}
    (hs : Splices (f.create k s).2 g n ms moved []) (hlink : g.link f.size = some p) :
    HoldsLeaf g f.size (some p) k s := by
  have hnew : f.size < (f.create k s).2.size := by simp
  refine ⟨?_, hlink, ?_, ?_⟩
  · rw [hs.kind_eq hnew, kind_create, if_pos rfl]
  · rw [hs.data_eq hnew, data_create, if_pos rfl]
  · rw [hs.children_eq hnew List.not_mem_nil, children_create, children_of_size_le le_rfl]
    rfl

/-- What is done in a forest with one more node is done in the forest. -/
theorem Splices.of_create {moved drained : List NodeId}
    (hs : Splices (f.create k s).2 g n ms moved drained) : Splices f g n ms moved drained := by
  have hboth := (Splices.create f n k s).trans hs
  rwa [replaced_singleton] at hboth

namespace Sound

include hf hk hn

/-- A text takes the place of a comment. -/
theorem exists_placeText (kind s : String) :
    ∃ g, f.placeText n kind s = (.ok (), g) ∧ g.Sound ∧
      Splices f g n [f.size] [f.size, n] [] ∧ HoldsLeaf g f.size (some p) .text s := by
  have hnew := hf.loose_create (s := s) (k := .text) rfl (by simp) (hf.lt_size_of_child hn)
  have hf' : (f.create .text s).2.Sound := hf.create .text s isSmall_empty
  have hn' : (f.create .text s).2.parent n = some p := by rw [parent_create, hn]
  obtain ⟨hpick, hempty⟩ := pickUp_of_ne_fragment hnew.ne_fragment
  obtain ⟨g, hreplace, hg, hs, hlinks⟩ := hf'.exists_replaceWith hn' hnew.lt_size hnew.not_isAttr
    hnew.parent_eq hnew.not_above
  rw [hpick] at hs hlinks
  rw [hempty] at hs
  refine ⟨g, ?_, hg, hs.of_create,
    holdsLeaf_of_splices hs (hlinks _ List.mem_cons_self)⟩
  simp only [placeText, hk, fst_create, hreplace]
  rfl

/-- A node that is no attribute node and has no parent takes the place of a comment. -/
theorem exists_placeNode (hlt : v < f.size) (ha : ¬ (f.kind v).isAttr = true)
    (hv : f.parent v = none) (hnot : ¬ f.Above v p) :
    ∃ g, f.placeNode n v = (.ok (), g) ∧ g.Sound ∧
      Splices f g n (f.pickUp v).1 ((f.pickUp v).1 ++ [n]) (f.emptied v) ∧
      ∀ m ∈ (f.pickUp v).1, g.link m = some p := by
  obtain ⟨g, hreplace, hg, hs, hlinks⟩ := hf.exists_replaceWith hn hlt ha hv hnot
  refine ⟨g, ?_, hg, hs, hlinks⟩
  simp only [placeNode, if_neg ha, hk, hreplace]
  rfl

omit hk in
/-- A slot is an empty comment before another comment. -/
theorem exists_addSlot :
    ∃ g, f.addSlot p n = (f.size, .ok (), g) ∧ g.Sound ∧
      Splices f g n [f.size, n] [f.size] [] ∧ HoldsLeaf g f.size (some p) .comment "" := by
  have hnew := hf.loose_create (s := "") (k := .comment) rfl (by simp) (hf.lt_size_of_child hn)
  have hf' : (f.create .comment "").2.Sound := hf.create .comment "" isSmall_empty
  have hn' : (f.create .comment "").2.parent n = some p := by rw [parent_create, hn]
  obtain ⟨hpick, hempty⟩ := pickUp_of_ne_fragment hnew.ne_fragment
  obtain ⟨g, hinsert, hg, -, hs, hlinks⟩ := hf'.exists_insertBefore hn' hnew.lt_size
    hnew.not_isAttr hnew.parent_eq hnew.not_above
  rw [hpick] at hs hlinks
  rw [hempty] at hs
  refine ⟨g, ?_, hg, hs.of_create,
    holdsLeaf_of_splices hs (hlinks _ List.mem_cons_self)⟩
  simp only [addSlot, fst_create, hinsert]
  rfl

omit hn in
/-- Without what stood for it, nothing is left in the place of a comment. -/
theorem splices_remove : (f.remove n).Sound ∧ Splices f (f.remove n) n [] [n] [] := by
  have howner : f.owner n = none := owner_of_not_isAttr (by simp [hk, Kind.isAttr])
  rw [Forest.remove, howner]
  exact ⟨hf.detach howner, .detach hf n⟩

end Sound

end Comment

end LiveMarkup.Forest
