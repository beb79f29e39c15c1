import LiveMarkup.Proofs.Markup.Joined
import LiveMarkup.Proofs.Template.Checked
import LiveMarkup.Proofs.Template.Marked

/-!
# Substitution

`Tree.substituteAll` replaces the markers in trees all at once: each marker in a text or in the
value of an attribute by the value for its hole, and attributes whose name is a marker are left out.
Where the base of the markers stands in markers only (`Tree.MarkedAll`), cutting the trees and
filling the holes gives the same, up to joining texts (`Template.joinedAll_fillAll_cutAll`).
-/

namespace LiveMarkup

/-! ### Substitution in trees -/

namespace Tree

mutual

/-- In texts, names and values of attributes, the base stands in markers of the first `count` holes
only. -/
def Marked (base : String) (count : ℕ) : Tree → Prop
  | element _ as cs =>
    (∀ a ∈ as, MarkedText base count a.name ∧ MarkedText base count a.value) ∧
      MarkedAll base count cs
  | text s => MarkedText base count s
  | comment _ => True

/-- In several trees, the base stands in markers of the first `count` holes only. -/
def MarkedAll (base : String) (count : ℕ) : List Tree → Prop
  | [] => True
  | t :: ts => t.Marked base count ∧ MarkedAll base count ts

end

mutual

instance decidableMarked (base : String) (count : ℕ) (t : Tree) : Decidable (t.Marked base count) :=
  match t with
  | element _ as cs =>
    have := decidableMarkedAll base count cs
    inferInstanceAs (Decidable ((∀ a ∈ as, _ ∧ _) ∧ _))
  | text s => inferInstanceAs (Decidable (MarkedText base count s))
  | comment _ => .isTrue trivial

instance decidableMarkedAll (base : String) (count : ℕ) (ts : List Tree) :
    Decidable (MarkedAll base count ts) :=
  match ts with
  | [] => .isTrue trivial
  | t :: ts =>
    have := decidableMarked base count t
    have := decidableMarkedAll base count ts
    inferInstanceAs (Decidable (_ ∧ _))

end

/-- The attributes with the values for their markers, without those that a marker names. -/
def substituteAttributes (base : String) (count : ℕ) (values : ℕ → String)
    (as : List Attribute) : List Attribute :=
  (as.filter fun a => !Marker.isText base count a.name).map fun a =>
    ⟨a.name, substituteText base count values a.value⟩

mutual

/-- A tree with the values for its markers. -/
def substitute (base : String) (count : ℕ) (values : ℕ → String) : Tree → Tree
  | element tag as cs =>
    element tag (substituteAttributes base count values as) (substituteAll base count values cs)
  | text s => text (substituteText base count values s)
  | comment s => comment s

/-- Several trees with the values for their markers. -/
def substituteAll (base : String) (count : ℕ) (values : ℕ → String) : List Tree → List Tree
  | [] => []
  | t :: ts => t.substitute base count values :: substituteAll base count values ts

end

mutual

/-- The names of all attributes in a tree. -/
def attributeNames : Tree → List String
  | element _ as cs => as.map Attribute.name ++ attributeNamesAll cs
  | text _ => []
  | comment _ => []

/-- The names of all attributes in several trees. -/
def attributeNamesAll : List Tree → List String
  | [] => []
  | t :: ts => t.attributeNames ++ attributeNamesAll ts

end

/-- Siblings that join to the same join to the same behind another. -/
theorem joinedAll_cons_congr {ts us : List Tree} (t : Tree) (h : joinedAll ts = joinedAll us) :
    joinedAll (t :: ts) = joinedAll (t :: us) := by
  rw [joinedAll, joinedAll, h]

end Tree

namespace Template

variable {base : String} {count : ℕ} {values : ℕ → String} {σ : ℕ → Option String}

/-! ### Filling a cut -/

/-- A text that is cut and filled joins to the text with the values for its markers. -/
theorem joinedAll_fillAll_cutText (hcount : count ≤ largest64 + 1) {fuel : ℕ} {data : String}
    (hfuel : data.length ≤ fuel) (hdata : MarkedText base count data)
    (hσ : ∀ i ∈ Labelled.dataHolesAll (cutText base fuel data), σ i = some (values i))
    (ts : List Tree) :
    Tree.joinedAll (Labelled.trees (Labelled.fillAll id σ (cutText base fuel data)) ++ ts) =
      Tree.joinedAll (.text (substituteText base count values data) :: ts) := by
  induction fuel generalizing data with
  | zero =>
    obtain rfl : data = "" := by simpa using hfuel
    rfl
  | succ fuel ih =>
    cases hfound : Marker.find? base data with
    | none =>
      have hcut : cutText base (fuel + 1) data = [.text [] data] := by rw [cutText, hfound]
      rw [hcut, substituteText_of_none hdata hcount hfound]
      rfl
    | some m =>
      rw [substituteText_of_some hdata hfound]
      rw [cutText, hfound] at hσ ⊢
      dsimp only at hσ ⊢
      have hm : σ m.ordinal = some (values m.ordinal) := by
        refine hσ m.ordinal ?_
        rw [Labelled.dataHolesAll_append]
        exact List.mem_append_right _ (List.mem_append_left _ (List.mem_singleton_self _))
      have hcomment : (Labelled.comment [m.ordinal] "").fill id σ =
          .text [m.ordinal] (values m.ordinal) := by
        simp only [Labelled.fill, id, Labelled.valueAt, hm]
      rw [Labelled.fillAll_append, Labelled.fillAll, hcomment, Labelled.trees_append,
        Labelled.trees, Labelled.tree, List.append_assoc, List.cons_append]
      -- What comes from the marker on joins to one text.
      have hafter : Tree.joinedAll (.text (values m.ordinal) ::
          (Labelled.trees (Labelled.fillAll id σ
            (if m.after.isEmpty then [] else cutText base fuel m.after)) ++ ts)) =
          Tree.joinedAll
            (.text (values m.ordinal ++ substituteText base count values m.after) :: ts) := by
        by_cases hempty : m.after.isEmpty = true
        · have hnone : substituteText base count values m.after = "" := by
            rw [String.isEmpty_iff.1 hempty]
            rfl
          rw [if_pos hempty, hnone, String.append_empty]
          rfl
        · rw [if_neg hempty] at hσ ⊢
          have hlt := Marker.length_after_lt hfound
          rw [Tree.joinedAll_cons_congr _ (ih (by omega) (hdata.after hfound) fun i hi => hσ i ?_),
            Tree.joinedAll_text_text]
          rw [Labelled.dataHolesAll_append]
          exact List.mem_append_right _ (List.mem_append_right _ hi)
      by_cases hempty : m.before.isEmpty = true
      · rw [if_pos hempty, String.isEmpty_iff.1 hempty, String.empty_append]
        exact hafter
      · rw [if_neg hempty, ← Tree.joinedAll_text_text]
        exact Tree.joinedAll_cons_congr _ hafter

/-- The names in which a marker is found are the markers of holes. -/
theorem find?_name_eq_some_iff {a : Attribute} {i : ℕ} (hcount : count ≤ largest64 + 1)
    (hmarked : MarkedText base count a.name) (hwhole : Tree.WholeMarker base a) :
    (∃ m, Marker.find? base a.name = some m ∧ m.ordinal = i) ↔
      i < count ∧ a.name = Marker.text base i := by
  constructor
  · rintro ⟨m, hfound, rfl⟩
    rw [Tree.WholeMarker, hfound] at hwhole
    exact ⟨hmarked.ordinal_lt hfound, hmarked.eq_text hfound hwhole⟩
  · rintro ⟨hi, hname⟩
    cases hfound : Marker.find? base a.name with
    | none =>
      have hnone := Marker.ordinalAt?_of_find?_eq_none hmarked hcount hfound
        (List.nil_append a.name.toList).symm
      rw [hname, Marker.ordinalAt?_eq_some_iff.2 ⟨hi, List.prefix_refl _⟩] at hnone
      cases hnone
    | some m =>
      rw [Tree.WholeMarker, hfound] at hwhole
      refine ⟨m, rfl, Marker.text_injective base ?_⟩
      rw [← hname, ← hmarked.eq_text hfound hwhole]

theorem isText_name {a : Attribute} (hcount : count ≤ largest64 + 1)
    (hmarked : MarkedText base count a.name) (hwhole : Tree.WholeMarker base a) :
    Marker.isText base count a.name = (Marker.find? base a.name).isSome := by
  rw [Bool.eq_iff_iff, Marker.isText_iff, Option.isSome_iff_exists]
  constructor
  · rintro ⟨i, hi, hname⟩
    obtain ⟨m, hfound, -⟩ := (find?_name_eq_some_iff hcount hmarked hwhole).2 ⟨hi, hname.symm⟩
    exact ⟨m, hfound⟩
  · rintro ⟨m, hfound⟩
    obtain ⟨hi, hname⟩ := (find?_name_eq_some_iff hcount hmarked hwhole).1 ⟨m, hfound, rfl⟩
    exact ⟨m.ordinal, hi, hname.symm⟩

/-- Attributes that are cut and filled are those with the values for their markers. -/
theorem fillAttributes_eq {as : List Attribute} (hcount : count ≤ largest64 + 1)
    (hmarked : ∀ a ∈ as, MarkedText base count a.name ∧ MarkedText base count a.value)
    (hwhole : ∀ a ∈ as, Tree.WholeMarker base a)
    (hσ : ∀ i ∈ ((as.filterMap (cutAttribute base)).map Prod.fst).flatten,
      σ i = some (values i)) :
    ((as.filterMap (cutAttribute base)).map (Labelled.fillAttribute id σ)).map Prod.snd =
      Tree.substituteAttributes base count values as := by
  induction as with
  | nil => rfl
  | cons a as ih =>
    rw [List.forall_mem_cons] at hmarked hwhole
    obtain ⟨⟨hname, hvalue⟩, hmarked⟩ := hmarked
    have hisText := isText_name hcount hname hwhole.1
    have hrest : (∀ i ∈ ((as.filterMap (cutAttribute base)).map Prod.fst).flatten,
        σ i = some (values i)) →
        ((as.filterMap (cutAttribute base)).map (Labelled.fillAttribute id σ)).map Prod.snd =
          Tree.substituteAttributes base count values as := ih hmarked hwhole.2
    have hwhole := hwhole.1
    rw [Tree.WholeMarker] at hwhole
    rw [Tree.substituteAttributes, List.filter_cons, hisText]
    cases hfound : Marker.find? base a.name with
    | some m =>
      rw [List.filterMap_cons_none (cutAttribute_of_name hfound)] at hσ ⊢
      exact hrest hσ
    | none =>
      rw [hfound] at hwhole
      rw [Option.isSome_none, Bool.not_false, if_pos rfl, List.map_cons]
      cases hvalued : Marker.find? base a.value with
      | none =>
        rw [List.filterMap_cons_some (cutAttribute_of_none hfound hvalued)] at hσ ⊢
        rw [List.map_cons, List.map_cons, hrest hσ, substituteText_of_none hvalue hcount hvalued]
        rfl
      | some m =>
        rw [List.filterMap_cons_some (cutAttribute_of_value hfound hvalued)] at hσ ⊢
        have hm : σ m.ordinal = some (values m.ordinal) := hσ m.ordinal (by simp)
        obtain ⟨hbefore, hafter⟩ : m.before = "" ∧ m.after = "" := by
          simpa [Marker.isWhole] using hwhole m hvalued
        have hone : (Labelled.fillAttribute id σ ([m.ordinal], ⟨a.name, ""⟩)).2 =
            ⟨a.name, substituteText base count values a.value⟩ := by
          rw [substituteText_of_some hvalue hvalued, hbefore, hafter]
          simp only [Labelled.fillAttribute, id, Labelled.valueAt, hm]
          simp [substituteText, substituteChars]
        rw [List.map_cons, List.map_cons, hone,
          hrest fun i hi => hσ i (by simpa using Or.inr hi)]
        rfl

mutual

theorem joinedAll_fillAll_cut (hcount : count ≤ largest64 + 1) {t : Tree}
    (hmarked : t.Marked base count) (hwhole : t.Whole base)
    (hσ : ∀ i ∈ Labelled.dataHolesAll (cut base t), σ i = some (values i)) (ts : List Tree) :
    Tree.joinedAll (Labelled.trees (Labelled.fillAll id σ (cut base t)) ++ ts) =
      Tree.joinedAll (t.substitute base count values :: ts) := by
  cases t with
  | text s => exact joinedAll_fillAll_cutText hcount le_rfl hmarked hσ ts
  | comment s => rfl
  | element tag as cs =>
    rw [cut, Labelled.dataHolesAll, Labelled.dataHolesAll, Labelled.dataHoles,
      List.append_nil] at hσ
    have hchildren := joinedAll_fillAll_cutAll hcount hmarked.2 hwhole.2 fun i hi =>
      hσ i (List.mem_append_right _ hi)
    have hattributes := fillAttributes_eq hcount hmarked.1 hwhole.1 fun i hi =>
      hσ i (List.mem_append_left _ hi)
    rw [cut, Labelled.fillAll, Labelled.fillAll, Labelled.fill, Labelled.trees, Labelled.trees,
      Labelled.tree, hattributes, Tree.substitute, List.cons_append, List.nil_append,
      Tree.joinedAll, Tree.joinedAll, Tree.joined, Tree.joined, hchildren]

/-- Trees that are cut and filled join to the trees with the values for their markers. -/
theorem joinedAll_fillAll_cutAll (hcount : count ≤ largest64 + 1) {ts : List Tree}
    (hmarked : Tree.MarkedAll base count ts) (hwhole : Tree.WholeAll base ts)
    (hσ : ∀ i ∈ Labelled.dataHolesAll (cutAll base ts), σ i = some (values i)) :
    Tree.joinedAll (Labelled.trees (Labelled.fillAll id σ (cutAll base ts))) =
      Tree.joinedAll (Tree.substituteAll base count values ts) := by
  cases ts with
  | nil => rfl
  | cons t ts =>
    rw [cutAll] at hσ ⊢
    rw [Labelled.dataHolesAll_append] at hσ
    rw [Labelled.fillAll_append, Labelled.trees_append,
      joinedAll_fillAll_cut hcount hmarked.1 hwhole.1 fun i hi => hσ i (List.mem_append_left _ hi)]
    have hrest := joinedAll_fillAll_cutAll hcount hmarked.2 hwhole.2 fun i hi =>
      hσ i (List.mem_append_right _ hi)
    exact Tree.joinedAll_cons_congr _ hrest

end

/-! ### Holes at elements -/

theorem elementHolesAll_cutText (fuel : ℕ) (data : String) :
    Labelled.elementHolesAll (cutText base fuel data) = [] := by
  induction fuel generalizing data with
  | zero => rfl
  | succ fuel ih =>
    rw [cutText]
    split
    · rfl
    · next m _ =>
      rw [Labelled.elementHolesAll_append, Labelled.elementHolesAll, Labelled.elementHoles]
      split_ifs <;> simp [Labelled.elementHolesAll, Labelled.elementHoles, ih]

theorem mem_nameHoles_iff {as : List Attribute} {i : ℕ} (hcount : count ≤ largest64 + 1)
    (hmarked : ∀ a ∈ as, MarkedText base count a.name ∧ MarkedText base count a.value)
    (hwhole : ∀ a ∈ as, Tree.WholeMarker base a) :
    i ∈ nameHoles base as ↔ i < count ∧ Marker.text base i ∈ as.map Attribute.name := by
  simp only [nameHoles, List.mem_filterMap, Option.map_eq_some_iff, List.mem_map]
  constructor
  · rintro ⟨a, ha, hfound⟩
    obtain ⟨hi, hname⟩ := (find?_name_eq_some_iff hcount (hmarked a ha).1 (hwhole a ha)).1 hfound
    exact ⟨hi, a, ha, hname⟩
  · rintro ⟨hi, a, ha, hname⟩
    exact ⟨a, ha, (find?_name_eq_some_iff hcount (hmarked a ha).1 (hwhole a ha)).2 ⟨hi, hname⟩⟩

mutual

theorem mem_elementHoles_cut_iff {i : ℕ} (hcount : count ≤ largest64 + 1) {t : Tree}
    (hmarked : t.Marked base count) (hwhole : t.Whole base) :
    i ∈ Labelled.elementHolesAll (cut base t) ↔
      i < count ∧ Marker.text base i ∈ t.attributeNames := by
  cases t with
  | text s =>
    rw [cut, elementHolesAll_cutText]
    simp [Tree.attributeNames]
  | comment s => simp [cut, Labelled.elementHolesAll, Labelled.elementHoles, Tree.attributeNames]
  | element tag as cs =>
    rw [cut, Labelled.elementHolesAll, Labelled.elementHolesAll, Labelled.elementHoles,
      List.append_nil, List.mem_append, mem_nameHoles_iff hcount hmarked.1 hwhole.1,
      mem_elementHolesAll_cutAll_iff hcount hmarked.2 hwhole.2, Tree.attributeNames,
      List.mem_append, and_or_left]

/-- The holes at elements are those whose markers are names of attributes. -/
theorem mem_elementHolesAll_cutAll_iff {i : ℕ} (hcount : count ≤ largest64 + 1) {ts : List Tree}
    (hmarked : Tree.MarkedAll base count ts) (hwhole : Tree.WholeAll base ts) :
    i ∈ Labelled.elementHolesAll (cutAll base ts) ↔
      i < count ∧ Marker.text base i ∈ Tree.attributeNamesAll ts := by
  cases ts with
  | nil => simp [cutAll, Labelled.elementHolesAll, Tree.attributeNamesAll]
  | cons t ts =>
    rw [cutAll, Labelled.elementHolesAll_append, List.mem_append,
      mem_elementHoles_cut_iff hcount hmarked.1 hwhole.1,
      mem_elementHolesAll_cutAll_iff hcount hmarked.2 hwhole.2, Tree.attributeNamesAll,
      List.mem_append, and_or_left]

end

/-! ### Compiled templates -/

/-- In the texts, names and values of the markup of a template, the base stands in the markers of
its holes only. -/
@[irreducible] def MarkedSource (base : String) (segments : List String) : Prop :=
  Tree.MarkedAll base (holeCount segments) (Tree.ofMarkup (source base segments))

theorem markedSource_iff {segments : List String} : MarkedSource base segments ↔
    Tree.MarkedAll base (holeCount segments) (Tree.ofMarkup (source base segments)) := by
  rw [MarkedSource]

instance (base : String) (segments : List String) : Decidable (MarkedSource base segments) :=
  decidable_of_iff _ markedSource_iff.symm

section Compiled

variable {segments : List String} {t : Template} (ht : compile base segments = .ok t)

include ht

/-- The holes at elements are those whose markers are names of attributes in the markup. -/
theorem mem_elementHoles_cutSource_iff {i : ℕ} (hmarked : MarkedSource base segments) :
    i ∈ Labelled.elementHolesAll (cutSource base segments) ↔ i < holeCount segments ∧
      Marker.text base i ∈ Tree.attributeNamesAll (Tree.ofMarkup (source base segments)) := by
  rw [markedSource_iff] at hmarked
  rw [cutSource]
  generalize hts : Tree.ofMarkup (source base segments) = ts at hmarked ⊢
  exact mem_elementHolesAll_cutAll_iff (holeCount_le ht) hmarked (wholeAll_source ht hts)

/-- The content of a template, filled with texts, joins to the markup with the texts for its
markers. -/
theorem joinedAll_fillAll_cutSource
    (hmarked : MarkedSource base segments)
    (hσ : ∀ i ∈ Labelled.dataHolesAll (cutSource base segments), σ i = some (values i)) :
    Tree.joinedAll (Labelled.trees (Labelled.fillAll id σ (cutSource base segments))) =
      Tree.joinedAll (Tree.substituteAll base (holeCount segments) values
        (Tree.ofMarkup (source base segments))) := by
  rw [markedSource_iff] at hmarked
  rw [cutSource] at hσ ⊢
  generalize hts : Tree.ofMarkup (source base segments) = ts at hmarked hσ ⊢
  exact joinedAll_fillAll_cutAll (holeCount_le ht) hmarked (wholeAll_source ht hts) hσ

end Compiled

end Template

end LiveMarkup
