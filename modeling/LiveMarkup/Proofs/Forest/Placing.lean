import LiveMarkup.Proofs.Forest.Edits
import LiveMarkup.Proofs.Forest.Joining
import LiveMarkup.Screen.Placement

/-!
# Placing texts

A text that is placed at a comment is a new node that takes the place of the comment; at an
attribute node only the data changes.  `Forest.Puts` says what the two have in common.
-/

namespace LiveMarkup.Forest

variable {f g : Forest} {m n n' p : NodeId} {kind v : String}

/-- The node `n'` of `g` stands where `n` stood in `f` and has the data `v`.  Every other node of
`f` is as it was, but that `n'` is a child instead of `n`. -/
structure Puts (f g : Forest) (n n' : NodeId) (v : String) : Prop where
  size_le : f.size ≤ g.size
  cell_eq {m : NodeId} : m ≠ n → m < f.size → g.cell m = { f.cell m with children := g.children m }
  children_eq {m : NodeId} : m ≠ n → m < f.size → (∀ c ∈ f.children m, f.link c = some m) →
    g.children m = (f.children m).map fun c => if c = n then n' else c
  link_eq : g.link n' = f.link n
  data_eq : g.data n' = v
  stands : f.kind n = .comment ∧ n' = f.size ∧ g.kind n' = .text ∧ g.children n' = [] ∨
    (f.kind n).isAttr = true ∧ n' = n ∧ g.kind n' = f.kind n

namespace Puts

variable (h : Puts f g n n' v) (hm : m ≠ n) (hs : m < f.size)

include h hm hs

theorem kind_eq : g.kind m = f.kind m := by
  rw [Forest.kind, h.cell_eq hm hs, Forest.kind]

theorem link_eq_of_ne : g.link m = f.link m := by
  rw [link, h.cell_eq hm hs, link]

theorem data_eq_of_ne : g.data m = f.data m := by
  rw [data, h.cell_eq hm hs, data]

theorem attributes_eq : g.attributes m = f.attributes m := by
  rw [attributes, h.cell_eq hm hs, attributes]

end Puts

/-! ### Texts at attribute nodes -/

theorem placeText_attr (hk : (f.kind n).isAttr = true) :
    ∃ g, f.placeText n kind v = (.ok (), g) ∧ Puts f g n n v := by
  obtain ⟨name, hname⟩ : ∃ name, f.kind n = .attr name := by
    cases h : f.kind n with
    | attr name => exact ⟨name, rfl⟩
    | element tag => simp [h, Kind.isAttr] at hk
    | text | comment | fragment => simp [h, Kind.isAttr] at hk
  refine ⟨f.writeData n fun _ => v, ?_, ?_⟩
  · simp only [placeText, setValue, setData, hname, Kind.isAttr, if_true]
    rfl
  · have hcell : ∀ {m}, m ≠ n → (f.writeData n fun _ => v).cell m = f.cell m := fun hm => by
      rw [cell_writeData, if_neg fun h => hm h.1]
    refine ⟨by simp, fun hm _ => ?_, fun hm _ _ => ?_, by simp, ?_, Or.inr ⟨hk, rfl, by simp⟩⟩
    · rw [hcell hm, children_writeData]
      rfl
    · have hsame : (fun c => if c = n then n else c) = id := by
        funext c
        split_ifs with hc
        · exact hc.symm
        · rfl
      rw [children_writeData, hsame, List.map_id]
    · rw [data_writeData, if_pos ⟨rfl, lt_size_of_isAttr hk⟩]

/-! ### Texts at comments -/

/-- `n` is a child of `p`, once. -/
structure ChildOf (f : Forest) (p n : NodeId) : Prop where
  parent_eq : f.parent n = some p
  holdsChildren : (f.kind p).holdsChildren = true
  mem_children : n ∈ f.children p
  nodup_children : (f.children p).Nodup

theorem filter_insertIdx_idxOf {cs : List NodeId} {t : NodeId} (hcs : cs.Nodup) (hn : n ∈ cs)
    (ht : t ≠ n) :
    (cs.insertIdx (cs.idxOf n) t).filter (· != n) = cs.map fun c => if c = n then t else c := by
  induction cs with
  | nil => cases hn
  | cons c cs ih =>
    obtain ⟨hc, hnodup⟩ := List.nodup_cons.1 hcs
    by_cases hcn : c = n
    · subst hcn
      have hkeep : cs.map (fun d => if d = c then t else d) = cs := by
        refine (List.map_congr_left fun d hd => ?_).trans (List.map_id cs)
        rw [if_neg fun e : d = c => hc (e ▸ hd), id]
      have hfilter : cs.filter (· != c) = cs :=
        List.filter_eq_self.2 fun d hd => bne_iff_ne.2 fun e : d = c => hc (e ▸ hd)
      simp [hkeep, hfilter, ht]
    · have hmem : n ∈ cs := (List.mem_cons.1 hn).resolve_left (Ne.symm hcn)
      rw [List.idxOf_cons_ne cs hcn, List.insertIdx_succ_cons, List.filter_cons,
        if_pos (bne_iff_ne.2 hcn), ih hnodup hmem, List.map_cons, if_neg hcn]

/-- Nothing new is above a node that is below a root in use. -/
theorem not_above_size {root : NodeId} (hnone : f.parent root = none) (hlt : root < f.size)
    (h : f.Above root m) : ¬ f.Above f.size m := by
  intro hsize
  have hunique : Relator.RightUnique (Function.swap fun p n => f.parent n = some p) :=
    fun n p q hp hq => Option.some.inj (hp.symm.trans hq)
  have hchain := Relation.ReflTransGen.total_of_right_unique hunique h.swap hsize.swap
  rcases hchain with habove | habove
  · have habove : f.Above f.size root := habove.swap
    exact hlt.ne' (habove.eq_of_parent_none hnone)
  · have habove : f.Above root f.size := habove.swap
    rcases habove.cases with heq | ⟨p, hp, -⟩
    · exact hlt.ne heq
    · exact lt_irrefl _ (lt_size_of_parent hp)

/-- Nothing refuses a new text. -/
theorem insertFault?_create (h : f.ChildOf p n) (hfresh : ¬ f.Above f.size p) :
    (f.create .text v).2.insertFault? p f.size (some n) = none := by
  obtain ⟨hp, hpk, -, -⟩ := h
  have hkind : (f.create .text v).2.kind p = f.kind p := by
    rw [kind_create, if_neg (lt_size_of_holdsChildren hpk).ne]
  have habove : (f.create .text v).2.contains f.size p = false := by
    rw [contains, Bool.eq_false_iff]
    intro hcontains
    refine hfresh ?_
    have hwalk := Sound.above_of_mem_lineage (List.contains_iff_mem.1 hcontains)
    exact Sound.above_of_parent_imp (fun q m hq => by rwa [parent_create] at hq) hwalk
  have hparent : (f.create .text v).2.parent n = some p := by rwa [parent_create]
  rw [insertFault?, hkind, hpk, kind_create, if_pos rfl, habove]
  simp [Kind.isAttr, hparent]

/-- A comment makes way for a new text. -/
theorem replaceWith_create (h : f.ChildOf p n) (hfresh : ¬ f.Above f.size p) :
    (f.create .text v).2.replaceWith n [f.size] =
      (.ok (), ((((f.create .text v).2.setParent f.size none).insertAt p
        ((f.children p).idxOf n) f.size).detach n)) := by
  have hne : f.size ≠ n := (lt_size_of_parent h.parent_eq).ne'
  have hparent : (f.create .text v).2.parent n = some p := by rw [parent_create, h.parent_eq]
  have hnone : (f.create .text v).2.parent f.size = none := by
    rw [parent_create]
    by_contra hsome
    obtain ⟨q, hq⟩ := Option.ne_none_iff_exists'.1 hsome
    exact lt_irrefl _ (lt_size_of_parent hq)
  have hpick : (f.create .text v).2.pickUp f.size =
      ([f.size], (f.create .text v).2.setParent f.size none) := by
    rw [pickUp, kind_create, if_pos rfl, if_neg (by simp), detach, hnone]
  have hplace : ((f.create .text v).2.setParent f.size none).indexInParent n =
      some ((f.children p).idxOf n) := by
    have hstill : ((f.create .text v).2.setParent f.size none).parent n = some p := by
      rw [parent_congr (kind_setParent _ _ _ _)
        (by rw [link_setParent, if_neg fun e => hne e.1.symm]), hparent]
    rw [indexInParent, hstill]
    simp only [children_setParent, children_create]
    obtain ⟨i, hi⟩ := Option.isSome_iff_exists.1 (List.isSome_idxOf?.2 h.mem_children)
    rw [List.idxOf_eq_getD_idxOf?, hi]
    rfl
  have hinsert : (f.create .text v).2.insertBefore p f.size (some n) =
      (.ok (), ((f.create .text v).2.setParent f.size none).insertAt p
        ((f.children p).idxOf n) f.size) := by
    rw [insertBefore, insertFault?_create h hfresh]
    simp only [Option.some.injEq, if_neg hne.symm, hpick, hplace]
    rfl
  have hlist : [f.size].contains n = false := by simpa using hne.symm
  rw [replaceWith, hparent]
  simp only [insertEach, if_neg hne, hinsert, hlist]
  rfl

/-- A new text among the children of `p`. -/
theorem cell_insertAt_create (hp : p < f.size) (i : ℕ) :
    (((f.create .text v).2.setParent f.size none).insertAt p i f.size).cell m =
      if m = f.size then { Cell.detached .text v with parent := some p }
      else if m = p then { f.cell p with children := (f.children p).insertIdx i f.size }
      else f.cell m := by
  simp only [insertAt, cell_setChildren, cell_setParent, cell_create, size_setParent,
    size_create, children]
  by_cases hm : m = f.size
  · simp [hm, hp.ne']
  · by_cases hmp : m = p
    · simp [hmp, hp.ne, hp.trans_le]
    · simp [hm, hmp]

theorem placeText_comment (hk : f.kind n = .comment) (hchild : f.ChildOf p n)
    (hfresh : ¬ f.Above f.size p) :
    ∃ g, f.placeText n kind v = (.ok (), g) ∧ Puts f g n f.size v := by
  obtain ⟨hp, hpk, hmem, hnodup⟩ := hchild
  have hn : n < f.size := lt_size_of_parent hp
  have hps : p < f.size := lt_size_of_holdsChildren hpk
  have hpn : p ≠ n := by
    rintro rfl
    simp [hk, Kind.holdsChildren] at hpk
  have hlink : f.link n = some p := by
    rwa [parent_eq_link, if_neg (by simp [hk, Kind.isAttr])] at hp
  have hreplace := replaceWith_create (v := v) ⟨hp, hpk, hmem, hnodup⟩ hfresh
  refine ⟨_, by simp only [placeText, hk, fst_create, hreplace]; rfl, ?_⟩
  -- The forest before the comment is taken out.
  generalize hh : ((f.create .text v).2.setParent f.size none).insertAt p
    ((f.children p).idxOf n) f.size = h
  have hcell : ∀ m, h.cell m =
      if m = f.size then { Cell.detached .text v with parent := some p }
      else if m = p then
        { f.cell p with children := (f.children p).insertIdx ((f.children p).idxOf n) f.size }
      else f.cell m := fun m => hh ▸ cell_insertAt_create hps _
  have hsize : h.size = f.size + 1 := by simp [← hh]
  have hstays : h.cell n = f.cell n := by rw [hcell, if_neg hn.ne, if_neg hpn.symm]
  have hparent : h.parent n = some p := by
    rw [← hp]
    exact parent_congr (by rw [Forest.kind, hstays, Forest.kind]) (by rw [link, hstays, link])
  have hedits : EditsBelow h (h.detach n) p [n] := .detach hparent hpn.symm
  have hholder : h.cell p =
      { f.cell p with children := (f.children p).insertIdx ((f.children p).idxOf n) f.size } := by
    rw [hcell, if_neg hps.ne, if_pos rfl]
  have hchildren : (h.detach n).children p =
      (f.children p).map fun c => if c = n then f.size else c := by
    rw [children_detach, if_pos hparent, children, hholder]
    exact filter_insertIdx_idxOf hnodup hmem hn.ne'
  have hout : ∀ m, m ≠ n → m ≠ p → m ≠ f.size → (h.detach n).cell m = f.cell m := by
    intro m hmn hmp hmt
    rw [hedits.cell_eq hmp (by simpa using hmn), hcell, if_neg hmt, if_neg hmp]
  have ht : (h.detach n).cell f.size = { Cell.detached .text v with parent := some p } := by
    rw [hedits.cell_eq hps.ne' (by simpa using hn.ne'), hcell, if_pos rfl]
  refine ⟨by rw [hedits.size_eq, hsize]; exact Nat.le_succ _, fun {m} hmn hms => ?_,
    fun {m} hmn hms hlinks => ?_, by rw [link, ht, hlink], by rw [data, ht]; rfl,
    Or.inl ⟨hk, rfl, by rw [Forest.kind, ht]; rfl, by rw [children, ht]; rfl⟩⟩
  · by_cases hmp : m = p
    · rw [hmp, hedits.holder_eq, hholder]
    · rw [children, hout m hmn hmp hms.ne]
  · by_cases hmp : m = p
    · rw [hmp, hchildren]
    · rw [children, hout m hmn hmp hms.ne]
      refine ((List.map_congr_left fun c hc => ?_).trans (List.map_id _)).symm
      have hcn : c ≠ n := by
        rintro rfl
        exact hmp (Option.some.inj ((hlinks c hc).symm.trans hlink))
      rw [if_neg hcn, id]

end LiveMarkup.Forest
