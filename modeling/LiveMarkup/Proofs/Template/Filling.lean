import LiveMarkup.Proofs.Forest.Placing
import LiveMarkup.Proofs.Template.Instance

/-!
# Filling a layout

A text that is placed at a node with a hole fills the hole in the tree that is laid out there
(`HoldsAll.put`).  So placing texts at the holes one after the other, while the texts before have
already changed the forest, fills them all at once (`Filled.place`).
-/

namespace LiveMarkup

variable {α : Type} {φ : α → List ℕ} {σ : ℕ → Option String} {k : ℕ} {v : String} {l : List ℕ}

namespace Labelled

theorem valueAt_update (hk : k ∉ l) : valueAt (Function.update σ k (some v)) l = valueAt σ l := by
  unfold valueAt
  split
  · next i =>
    exact Function.update_of_ne (fun e => hk (by simp [e])) _ _
  · rfl

theorem fillAttribute_update {a : α × Attribute} (hk : k ∉ φ a.1) :
    fillAttribute φ (Function.update σ k (some v)) a = fillAttribute φ σ a := by
  rw [fillAttribute, valueAt_update hk, fillAttribute]

end Labelled

namespace Forest

variable {f g : Forest} {ι : α → NodeId} {l₀ : α} {n' m root : NodeId}
  {q : Option NodeId}

/-! ### Children in a layout -/

theorem Holds.parent_eq {p : NodeId} {L : Labelled α} (h : Holds f ι (some p) L) :
    f.parent (ι L.label) = some p := by
  cases L with
  | text l s | comment l s => exact HoldsLeaf.parent_eq h rfl
  | element l tag as cs =>
    rw [Labelled.label, parent_eq_link, h.1.kind_eq, h.1.link_eq]
    simp [Kind.isAttr]

theorem HoldsBelow.childOf {p : NodeId} {Ls : List (Labelled α)} (h : HoldsBelow f ι p Ls)
    (hk : (f.kind p).holdsChildren = true) (hd : ((Labelled.labelsAll Ls).map ι).Nodup) :
    ∀ L ∈ Ls, f.ChildOf p (ι L.label) := by
  intro L hL
  refine ⟨(holdsAll_iff.1 h.holds L hL).parent_eq, hk, ?_, ?_⟩
  · rw [h.children_eq]
    exact List.mem_map_of_mem hL
  · rw [h.children_eq]
    exact hd.sublist (map_label_sublist Ls)

mutual

theorem Holds.exists_childOf {p : NodeId} {L : Labelled α} (h : Holds f ι (some p) L)
    (hroot : f.ChildOf p (ι L.label)) (hd : (L.labels.map ι).Nodup) :
    ∀ l ∈ L.labels, (f.kind (ι l)).isAttr = false → ∃ q, f.ChildOf q (ι l) := by
  cases L with
  | text l s | comment l s =>
    intro m hm _
    obtain rfl : m = l := by simpa [Labelled.labels] using hm
    exact ⟨p, hroot⟩
  | element l tag as cs =>
    obtain ⟨he, has, hcs⟩ := h
    intro m hm hkind
    rw [Labelled.labels, List.cons_append, List.map_cons, List.map_append] at hd
    rw [Labelled.labels, List.cons_append, List.mem_cons, List.mem_append] at hm
    have hbelow : ((Labelled.labelsAll cs).map ι).Nodup := (List.nodup_append.1 hd.of_cons).2.1
    rcases hm with rfl | hm | hm
    · exact ⟨p, hroot⟩
    · obtain ⟨a, ha, rfl⟩ := List.mem_map.1 hm
      rw [(has a ha).kind_eq] at hkind
      cases hkind
    · have hholds : (f.kind (ι l)).holdsChildren = true := by
        rw [he.kind_eq]
        rfl
      exact hcs.exists_childOf (HoldsBelow.childOf ⟨he.children_eq, hcs⟩ hholds hbelow) hbelow m hm
        hkind

/-- A node of a layout that is no attribute node is a child of another. -/
theorem HoldsAll.exists_childOf {p : NodeId} {Ls : List (Labelled α)} (h : HoldsAll f ι (some p) Ls)
    (hroots : ∀ L ∈ Ls, f.ChildOf p (ι L.label)) (hd : ((Labelled.labelsAll Ls).map ι).Nodup) :
    ∀ l ∈ Labelled.labelsAll Ls, (f.kind (ι l)).isAttr = false → ∃ q, f.ChildOf q (ι l) := by
  cases Ls with
  | nil => simp [Labelled.labelsAll]
  | cons L Ls =>
    intro m hm hkind
    rw [Labelled.labelsAll, List.map_append] at hd
    obtain ⟨hL, hLs, -⟩ := List.nodup_append.1 hd
    rcases List.mem_append.1 hm with hm | hm
    · exact h.1.exists_childOf (hroots L List.mem_cons_self) hL m hm hkind
    · exact h.2.exists_childOf (fun K hK => hroots K (List.mem_cons_of_mem L hK)) hLs m hm hkind

end

/-! ### Trees that are being filled -/

/-- Below the fragment `root` lies a tree in which the texts `σ` have been filled. -/
structure Filled (f : Forest) (ι : α → NodeId) (root : NodeId) (φ : α → List ℕ)
    (σ : ℕ → Option String) (Ms : List (Labelled α)) : Prop where
  kind_root : f.kind root = .fragment
  link_root : f.link root = none
  layout : f.HoldsBelow ι root (Labelled.fillAll φ σ Ms)
  nodup : (root :: (Labelled.labelsAll Ms).map ι).Nodup

namespace Filled

variable {Ms : List (Labelled α)} (h : Filled f ι root φ σ Ms)

include h

theorem root_lt_size : root < f.size := by
  by_contra hlt
  have hkind := kind_of_size_le (Nat.le_of_not_lt hlt)
  rw [h.kind_root] at hkind
  cases hkind

theorem lt_size {l : α} (hl : l ∈ Labelled.labelsAll Ms) : ι l < f.size :=
  h.layout.holds.lt_size l (by rwa [Labelled.labelsAll_fillAll])

theorem parent_root : f.parent root = none := by
  rw [parent_eq_link, h.link_root]
  split_ifs <;> rfl

/-- A node of the layout that is no attribute node is a child, and nothing new is above it. -/
theorem exists_childOf {l : α} (hl : l ∈ Labelled.labelsAll Ms)
    (hk : (f.kind (ι l)).isAttr = false) :
    ∃ p, f.ChildOf p (ι l) ∧ ¬ f.Above f.size p := by
  have hd : ((Labelled.labelsAll (Labelled.fillAll φ σ Ms)).map ι).Nodup := by
    rw [Labelled.labelsAll_fillAll]
    exact h.nodup.of_cons
  have hl' : l ∈ Labelled.labelsAll (Labelled.fillAll φ σ Ms) := by
    rwa [Labelled.labelsAll_fillAll]
  have hroots := h.layout.childOf (by rw [h.kind_root]; rfl) hd
  obtain ⟨p, hp⟩ := h.layout.holds.exists_childOf hroots hd l hl' hk
  refine ⟨p, hp, not_above_size h.parent_root h.root_lt_size ?_⟩
  have hne : root ≠ ι l := fun e =>
    (List.nodup_cons.1 h.nodup).1 (e ▸ List.mem_map_of_mem hl)
  rcases h.layout.holds.inside l hl' with habove | ⟨e, ho, -⟩
  · rcases habove.cases with heq | ⟨q, hq, habove⟩
    · exact absurd heq hne
    · rw [hp.parent_eq] at hq
      exact Option.some.inj hq ▸ habove
  · rw [owner_eq_link, if_neg (by simp [hk])] at ho
    cases ho

end Filled

/-! ### Placing a text -/

/-- A text can be placed at a node with one hole that has not been filled. -/
theorem Filled.exists_puts {Ms : List (Labelled α)} (h : Filled f ι root φ σ Ms)
    (hMs : Template.TidyAll (Labelled.mapAll φ Ms))
    (hl₀ : l₀ ∈ Labelled.labelsAll Ms) (hφ : φ l₀ = [k]) (hσ : σ k = none)
    (hk : (f.kind (ι l₀)).isElement = false) (kind v : String) :
    ∃ g n', f.placeText (ι l₀) kind v = (.ok (), g) ∧ Puts f g (ι l₀) n' v := by
  rcases (h.layout.holds.isHole hMs l₀ hl₀ k (by simp [hφ]) hσ).1 with
    ⟨hcomment, -⟩ | ⟨⟨name, hattr⟩, -⟩ | helement
  · obtain ⟨p, hp, hfresh⟩ := h.exists_childOf hl₀ (by rw [hcomment]; rfl)
    obtain ⟨g, hplace, hput⟩ := placeText_comment hcomment hp hfresh
    exact ⟨g, f.size, hplace, hput⟩
  · obtain ⟨g, hplace, hput⟩ := placeText_attr (by rw [hattr]; rfl)
    exact ⟨g, ι l₀, hplace, hput⟩
  · rw [helement] at hk
    cases hk

/-- Unless the label `l` is `l₀`, it stands for another node than `l₀` and does not have the hole
`k`. -/
structure Apart (f : Forest) (ι : α → NodeId) (φ : α → List ℕ) (l₀ : α) (k : ℕ) (l : α) :
    Prop where
  lt_size : ι l < f.size
  eq_of_eq : ι l = ι l₀ → l = l₀
  eq_of_mem : k ∈ φ l → l = l₀

theorem Puts.kind_or (hput : Puts f g (ι l₀) n' v) :
    f.kind (ι l₀) = .comment ∨ (f.kind (ι l₀)).isAttr = true :=
  hput.stands.imp And.left And.left

theorem HoldsLeaf.put {kind : Kind} {s : String} (hput : Puts f g (ι l₀) n' v)
    (h : HoldsLeaf f m q kind s) (hm : m ≠ ι l₀) (hs : m < f.size) : HoldsLeaf g m q kind s := by
  refine ⟨(hput.kind_eq hm hs).trans h.kind_eq, (hput.link_eq_of_ne hm hs).trans h.link_eq,
    (hput.data_eq_of_ne hm hs).trans h.data_eq, ?_⟩
  rw [hput.children_eq hm hs (by simp [h.children_eq]), h.children_eq, List.map_nil]

variable [DecidableEq α]

theorem Apart.update_eq {l : α} (hl : Apart f ι φ l₀ k l) :
    (if ι l = ι l₀ then n' else ι l) = Function.update ι l₀ n' l := by
  by_cases h : l = l₀
  · rw [h, if_pos rfl, Function.update_self]
  · rw [if_neg fun e => h (hl.eq_of_eq e), Function.update_of_ne h]

/-- An attribute node stays where it is. -/
theorem Puts.update_of_isAttr (hput : Puts f g (ι l₀) n' v) {l : α}
    (hk : (f.kind (ι l)).isAttr = true) : Function.update ι l₀ n' l = ι l := by
  by_cases hl : l = l₀
  · subst hl
    rcases hput.stands with ⟨hcomment, -⟩ | ⟨-, hsame, -⟩
    · rw [hcomment] at hk
      cases hk
    · rw [Function.update_self, hsame]
  · rw [Function.update_of_ne hl]

theorem HoldsAttribute.put {a : α × Attribute} (hput : Puts f g (ι l₀) n' v) (hφ : φ l₀ = [k])
    (h : HoldsAttribute f ι m (Labelled.fillAttribute φ σ a)) (ha : Apart f ι φ l₀ k a.1) :
    HoldsAttribute g (Function.update ι l₀ n') m
      (Labelled.fillAttribute φ (Function.update σ k (some v)) a) := by
  obtain ⟨hkind, hdata, hlink⟩ := h
  rw [Labelled.fst_fillAttribute] at hkind hdata hlink
  rw [Labelled.name_fillAttribute] at hkind
  have hattr : (f.kind (ι a.1)).isAttr = true := by
    rw [hkind]
    rfl
  have hstays := hput.update_of_isAttr hattr
  by_cases hl : a.1 = l₀
  · have hvalue : Labelled.fillAttribute φ (Function.update σ k (some v)) a =
        (a.1, ⟨a.2.name, v⟩) := by
      rw [Labelled.fillAttribute, hl, hφ, Labelled.valueAt, Function.update_self]
    rw [hvalue]
    rw [hl] at hkind hlink hattr hstays
    rw [Function.update_self] at hstays
    rw [hstays] at hput
    refine ⟨?_, ?_, ?_⟩
    · rw [hl, Function.update_self, hstays, ← hkind]
      rcases hput.stands with ⟨hcomment, -⟩ | ⟨-, -, hsame⟩
      · rw [hcomment] at hattr
        cases hattr
      · exact hsame
    · rw [hl, Function.update_self, hstays, hput.data_eq]
    · rw [hl, Function.update_self, hstays, hput.link_eq, hlink]
  · have hne : ι a.1 ≠ ι l₀ := fun e => hl (ha.eq_of_eq e)
    rw [Labelled.fillAttribute_update fun hk => hl (ha.eq_of_mem hk)]
    refine ⟨?_, ?_, ?_⟩
    · rw [Labelled.fst_fillAttribute, hstays, hput.kind_eq hne ha.lt_size,
        Labelled.name_fillAttribute, hkind]
    · rw [Labelled.fst_fillAttribute, hstays, hput.data_eq_of_ne hne ha.lt_size, hdata]
    · rw [Labelled.fst_fillAttribute, hstays, hput.link_eq_of_ne hne ha.lt_size, hlink]

/-- The children of a node after a text has been put. -/
theorem Puts.children_fillAll {Ms : List (Labelled α)} (hput : Puts f g (ι l₀) n' v)
    (hm : m ≠ ι l₀) (hs : m < f.size)
    (hchildren : f.children m = (Labelled.fillAll φ σ Ms).map (ι ·.label))
    (hholds : HoldsAll f ι (some m) (Labelled.fillAll φ σ Ms))
    (hapart : ∀ l ∈ Labelled.labelsAll Ms, Apart f ι φ l₀ k l) (τ : ℕ → Option String) :
    g.children m = (Labelled.fillAll φ τ Ms).map (Function.update ι l₀ n' ·.label) := by
  have hlinks : ∀ c ∈ f.children m, f.link c = some m := by
    intro c hc
    rw [hchildren] at hc
    obtain ⟨L, hL, rfl⟩ := List.mem_map.1 hc
    exact (holdsAll_iff.1 hholds L hL).link_eq
  rw [hput.children_eq hm hs hlinks, hchildren, Labelled.fillAll_eq_map, Labelled.fillAll_eq_map,
    List.map_map, List.map_map, List.map_map]
  refine List.map_congr_left fun M hM => ?_
  have hlabel : M.label ∈ Labelled.labelsAll Ms := by
    rw [Labelled.labelsAll_eq_flatMap]
    exact List.mem_flatMap.2 ⟨M, hM, M.label_mem_labels⟩
  simp only [Function.comp_apply, Labelled.label_fill]
  exact (hapart _ hlabel).update_eq

/-- A text or a comment without the hole stays as it is. -/
theorem HoldsLeaf.put_update {kind : Kind} {l : α} {s : String} (hput : Puts f g (ι l₀) n' v)
    (h : HoldsLeaf f (ι l) q kind s) (hl : l ≠ l₀) (ha : Apart f ι φ l₀ k l) :
    HoldsLeaf g (Function.update ι l₀ n' l) q kind s := by
  rw [Function.update_of_ne hl]
  exact HoldsLeaf.put hput h (fun e => hl (ha.eq_of_eq e)) ha.lt_size

/-- A comment with the hole becomes the text. -/
theorem Holds.put_comment {l : α} {s : String} (hput : Puts f g (ι l₀) n' v) (hφ : φ l₀ = [k])
    (hσ : σ k = none) (h : Holds f ι q ((Labelled.comment l s).fill φ σ))
    (ha : Apart f ι φ l₀ k l) :
    Holds g (Function.update ι l₀ n') q
      ((Labelled.comment l s).fill φ (Function.update σ k (some v))) := by
  rw [Labelled.fill] at h ⊢
  by_cases hl : l = l₀
  · subst hl
    rw [hφ, Labelled.valueAt, hσ] at h
    rw [hφ, Labelled.valueAt, Function.update_self]
    rcases hput.stands with ⟨-, -, hkind, hchildren⟩ | ⟨hkind, -⟩
    · have hleaf : HoldsLeaf g n' q .text v :=
        ⟨hkind, hput.link_eq.trans h.link_eq, hput.data_eq, hchildren⟩
      rwa [← Function.update_self l n' ι] at hleaf
    · rw [HoldsLeaf.kind_eq h] at hkind
      cases hkind
  · rw [Labelled.valueAt_update fun hk => hl (ha.eq_of_mem hk)]
    cases hvalue : Labelled.valueAt σ (φ l) with
    | none =>
      rw [hvalue] at h
      exact HoldsLeaf.put_update hput h hl ha
    | some w =>
      rw [hvalue] at h
      exact HoldsLeaf.put_update hput h hl ha

/-- The attribute nodes of an element after a text has been put. -/
theorem Puts.attributes_fill {as : List (α × Attribute)} (hput : Puts f g (ι l₀) n' v)
    (hm : m ≠ ι l₀) (hs : m < f.size)
    (hattributes : f.attributes m = (as.map (Labelled.fillAttribute φ σ)).map (ι ·.1))
    (has : ∀ a ∈ as.map (Labelled.fillAttribute φ σ), HoldsAttribute f ι m a)
    (τ : ℕ → Option String) :
    g.attributes m =
      (as.map (Labelled.fillAttribute φ τ)).map (Function.update ι l₀ n' ·.1) := by
  rw [hput.attributes_eq hm hs, hattributes, List.map_map, List.map_map]
  refine List.map_congr_left fun a ha => ?_
  have hkind := (has _ (List.mem_map_of_mem ha)).kind_eq
  simp only [Labelled.fst_fillAttribute] at hkind
  simp only [Function.comp_apply, Labelled.fst_fillAttribute]
  rw [hput.update_of_isAttr (by rw [hkind]; rfl)]

mutual

/-- A text that is put at the label of a hole fills the hole. -/
theorem Holds.put {q : Option NodeId} {M : Labelled α} (hput : Puts f g (ι l₀) n' v)
    (hφ : φ l₀ = [k]) (hσ : σ k = none) (h : Holds f ι q (M.fill φ σ))
    (hapart : ∀ l ∈ M.labels, Apart f ι φ l₀ k l) :
    Holds g (Function.update ι l₀ n') q (M.fill φ (Function.update σ k (some v))) := by
  cases M with
  | text l s =>
    have hl : l ≠ l₀ := by
      rintro rfl
      have hkind := hput.kind_or
      simp [HoldsLeaf.kind_eq h, Kind.isAttr] at hkind
    exact HoldsLeaf.put_update hput h hl (hapart l (by simp [Labelled.labels]))
  | comment l s => exact Holds.put_comment hput hφ hσ h (hapart l (by simp [Labelled.labels]))
  | element l tag as cs =>
    obtain ⟨he, has, hcs⟩ := h
    have hl : l ≠ l₀ := by
      rintro rfl
      have hkind := hput.kind_or
      simp [he.kind_eq, Kind.isAttr] at hkind
    obtain ⟨hlt, hinj, -⟩ := hapart l (by simp [Labelled.labels])
    have hne : ι l ≠ ι l₀ := fun e => hl (hinj e)
    have hbelow : ∀ m ∈ Labelled.labelsAll cs, Apart f ι φ l₀ k m := fun m hm =>
      hapart m (by simp [Labelled.labels, hm])
    have hattributes : ∀ a ∈ as, Apart f ι φ l₀ k a.1 := fun a ha => by
      have hmem : a.1 ∈ as.map Prod.fst := List.mem_map_of_mem ha
      exact hapart a.1 (by simp [Labelled.labels, hmem])
    rw [Labelled.fill, Holds, Function.update_of_ne hl]
    refine ⟨⟨(hput.kind_eq hne hlt).trans he.kind_eq, (hput.link_eq_of_ne hne hlt).trans he.link_eq,
      hput.attributes_fill hne hlt he.attributes_eq has _,
      hput.children_fillAll hne hlt he.children_eq hcs hbelow _⟩, fun b hb => ?_,
      HoldsAll.put hput hφ hσ hcs hbelow⟩
    obtain ⟨a, ha, rfl⟩ := List.mem_map.1 hb
    exact HoldsAttribute.put hput hφ (has _ (List.mem_map_of_mem ha)) (hattributes a ha)

theorem HoldsAll.put {q : Option NodeId} {Ms : List (Labelled α)} (hput : Puts f g (ι l₀) n' v)
    (hφ : φ l₀ = [k]) (hσ : σ k = none) (h : HoldsAll f ι q (Labelled.fillAll φ σ Ms))
    (hapart : ∀ l ∈ Labelled.labelsAll Ms, Apart f ι φ l₀ k l) :
    HoldsAll g (Function.update ι l₀ n') q
      (Labelled.fillAll φ (Function.update σ k (some v)) Ms) := by
  cases Ms with
  | nil => trivial
  | cons M Ms =>
    exact ⟨Holds.put hput hφ hσ h.1 fun l hl => hapart l (by simp [Labelled.labelsAll, hl]),
      HoldsAll.put hput hφ hσ h.2 fun l hl => hapart l (by simp [Labelled.labelsAll, hl])⟩

end

theorem nodup_map_update {ls : List α} (hd : (root :: ls.map ι).Nodup)
    (hn : n' = ι l₀ ∨ n' ∉ root :: ls.map ι) :
    (root :: ls.map (Function.update ι l₀ n')).Nodup := by
  rcases hn with rfl | hn
  · rwa [Function.update_eq_self]
  obtain ⟨hroot, hls⟩ := List.nodup_cons.1 hd
  obtain ⟨hnroot, hnls⟩ := not_or.1 (List.mem_cons.not.1 hn)
  refine List.nodup_cons.2 ⟨fun hin => ?_, List.Nodup.map_on (fun l hl m hm heq => ?_) hls.of_map⟩
  · obtain ⟨l, hl, heq⟩ := List.mem_map.1 hin
    rcases eq_or_ne l l₀ with rfl | hne
    · rw [Function.update_self] at heq
      exact hnroot heq
    · rw [Function.update_of_ne hne] at heq
      exact hroot (heq ▸ List.mem_map_of_mem hl)
  · rcases eq_or_ne l l₀ with he | hne <;> rcases eq_or_ne m l₀ with he' | hne'
    · rw [he, he']
    · rw [he, Function.update_self, Function.update_of_ne hne'] at heq
      exact absurd (heq ▸ List.mem_map_of_mem hm) hnls
    · rw [he', Function.update_self, Function.update_of_ne hne] at heq
      exact absurd (heq ▸ List.mem_map_of_mem hl) hnls
    · rw [Function.update_of_ne hne, Function.update_of_ne hne'] at heq
      exact List.inj_on_of_nodup_map hls hl hm heq

/-- A text that has been put at a node with one hole fills the hole. -/
theorem Filled.put {Ms : List (Labelled α)} (h : Filled f ι root φ σ Ms)
    (hl₀ : l₀ ∈ Labelled.labelsAll Ms) (hφ : φ l₀ = [k]) (hσ : σ k = none)
    (honly : ∀ l ∈ Labelled.labelsAll Ms, k ∈ φ l → l = l₀) (hput : Puts f g (ι l₀) n' v) :
    Filled g (Function.update ι l₀ n') root φ (Function.update σ k (some v)) Ms := by
  have hapart : ∀ l ∈ Labelled.labelsAll Ms, Apart f ι φ l₀ k l := fun l hl =>
    ⟨h.lt_size hl, fun e => List.inj_on_of_nodup_map h.nodup.of_cons hl hl₀ e, honly l hl⟩
  have hroot : root ≠ ι l₀ := fun e =>
    (List.nodup_cons.1 h.nodup).1 (e ▸ List.mem_map_of_mem hl₀)
  refine ⟨(hput.kind_eq hroot h.root_lt_size).trans h.kind_root,
    (hput.link_eq_of_ne hroot h.root_lt_size).trans h.link_root,
    ⟨hput.children_fillAll hroot h.root_lt_size h.layout.children_eq h.layout.holds hapart _,
      h.layout.holds.put hput hφ hσ hapart⟩, ?_⟩
  refine nodup_map_update h.nodup
    (hput.stands.symm.imp (fun hstays => hstays.2.1) fun hnew hin => ?_)
  rw [hnew.2.1] at hin
  rcases List.mem_cons.1 hin with heq | hin
  · exact h.root_lt_size.ne' heq
  · obtain ⟨l, hl, heq⟩ := List.mem_map.1 hin
    exact (h.lt_size hl).ne heq

/-- Placing a text at a node with one hole succeeds and fills the hole. -/
theorem Filled.place {Ms : List (Labelled α)} (h : Filled f ι root φ σ Ms)
    (hMs : Template.TidyAll (Labelled.mapAll φ Ms))
    (hl₀ : l₀ ∈ Labelled.labelsAll Ms) (hφ : φ l₀ = [k]) (hσ : σ k = none)
    (hk : (f.kind (ι l₀)).isElement = false)
    (honly : ∀ l ∈ Labelled.labelsAll Ms, k ∈ φ l → l = l₀) (kind v : String) :
    ∃ g n', f.placeText (ι l₀) kind v = (.ok (), g) ∧
      Filled g (Function.update ι l₀ n') root φ (Function.update σ k (some v)) Ms := by
  obtain ⟨g, n', hplace, hput⟩ := h.exists_puts hMs hl₀ hφ hσ hk kind v
  exact ⟨g, n', hplace, h.put hl₀ hφ hσ honly hput⟩

end Forest

end LiveMarkup
