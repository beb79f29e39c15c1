import LiveMarkup.Proofs.Template.Content
import LiveMarkup.Proofs.Template.SketchedTrees

/-!
# Attributes in which the base is left open

The reader keeps attributes sorted by name, and a name with a marker in it goes to a place that the
base decides.  But which attributes are kept is the same with every base
(`AttributeSketch.exists_kept`), and what a scan makes of a single one does not depend on the base
(`AttributeSketch.cutAttribute_ink`).  So where attributes are scanned, the base only matters to the
order in which holes are recorded (`Template.scanAttributes_ink`).
-/

namespace LiveMarkup

open Sketch

variable {B : Set String} (hB : ∀ base ∈ B, IsBase base) {base other : String}

/-! ### The first hole of a clean sketch -/

namespace Sketch

variable {σ : Type} [Part σ] {X : Sketch σ}

include hB

/-- What is found in the text of a clean sketch is its first hole. -/
theorem Clean.exists_hole (hX : X.Clean B) (hbase : base ∈ B) {m : Marker}
    (h : Marker.find? base (X.text base) = some m) :
    ∃ Y Z : Sketch σ, X = Y ++ .hole m.ordinal :: Z ∧ m.after = Z.text base := by
  obtain ⟨other, -, hother⟩ := hX base hbase
  rcases holes_cases X with hnone | ⟨Y, k, Z, rfl, hY⟩
  · rw [find?_text_of_holes_eq_nil (hB base hbase) hnone hother] at h
    cases h
  · rw [find?_text (hB base hbase) hY hother] at h
    split_ifs at h
    obtain rfl := Option.some.inj h
    exact ⟨Y, Z, rfl, rfl⟩

theorem Clean.mem_holes (hX : X.Clean B) (hbase : base ∈ B) {m : Marker}
    (h : Marker.find? base (X.text base) = some m) : m.ordinal ∈ X.holes := by
  obtain ⟨Y, Z, rfl, -⟩ := hX.exists_hole hB hbase h
  simp

omit hB in
theorem Clean.suffix {Y : Sketch σ} (h : Clean B (X ++ Y)) : Clean B Y := by
  intro base hbase
  obtain ⟨other, hother, habsent⟩ := h base hbase
  rw [ink_append] at habsent
  exact ⟨other, hother, habsent.suffix⟩

/-- Whatever the base, either a clean sketch without parts has letters only, and no marker is found
in them, or the marker that is found is its first hole. -/
theorem Clean.find?_cases (hX : X.Clean B) (hparts : X.weight = X.holes.length)
    (hsmall : ∀ k ∈ X.holes, k ≤ largest64) :
    (∃ cs, X = letters cs ∧ ∀ base ∈ B, Marker.find? base (X.text base) = none) ∨
      ∃ (cs : List Char) (k : ℕ) (Z : Sketch σ), X = letters cs ++ .hole k :: Z ∧
        ∀ base ∈ B, Marker.find? base (X.text base) = some ⟨String.ofList cs, k, Z.text base⟩ := by
  rcases holes_cases X with hnone | ⟨Y, k, Z, rfl, hY⟩
  · obtain ⟨cs, hcs⟩ := exists_eq_letters (hparts.trans (by rw [hnone]; rfl))
    refine Or.inl ⟨cs, hcs, fun base hbase => ?_⟩
    obtain ⟨other, -, hother⟩ := hX base hbase
    exact find?_text_of_holes_eq_nil (hB base hbase) hnone hother
  · have hweight : Y.weight = 0 := by
      have hle := length_holes_le_weight Z
      simp only [weight_append, weight_cons, Stroke.weight_hole, holes_append, holes_hole, hY,
        List.nil_append, List.length_cons] at hparts
      omega
    obtain ⟨cs, rfl⟩ := exists_eq_letters hweight
    refine Or.inr ⟨cs, k, Z, rfl, fun base hbase => ?_⟩
    obtain ⟨other, -, hother⟩ := hX base hbase
    rw [find?_text (hB base hbase) hY hother, if_pos (hsmall k (by simp)), text_letters]

/-- A marker between letters and a sketch is all of the text only if there is nothing around it. -/
theorem isWhole_iff (hbase : base ∈ B) (cs : List Char) (k : ℕ) (Z : Sketch σ) :
    (⟨String.ofList cs, k, Z.text base⟩ : Marker).isWhole = true ↔ cs = [] ∧ Z = [] := by
  rw [Marker.isWhole, Bool.and_eq_true, isEmpty_text (hB base hbase), String.isEmpty_iff,
    ← String.toList_eq_nil_iff, String.toList_ofList]

end Sketch

/-! ### Attributes that are kept -/

namespace AttributeSketch

/-- The ordinals of the holes in the name and in the value. -/
def holes (a : AttributeSketch) : List ℕ := a.name.holes ++ a.value.holes

/-- The name and the value are clean. -/
structure Clean (B : Set String) (a : AttributeSketch) : Prop where
  name : a.name.Clean B
  value : a.value.Clean B

/-- The attributes that the reader keeps are clean. -/
def CleanAll (B : Set String) (as : List AttributeSketch) : Prop :=
  ∀ base ∈ B, ∃ other ∈ B, ∀ a ∈ inkAll other as,
    Marker.Absent base a.name.toList ∧ Marker.Absent base a.value.toList

theorem inkAll_concat (base : String) (as : List AttributeSketch) (a : AttributeSketch) :
    inkAll base (as ++ [a]) = insertByName (a.ink base) (inkAll base as) := by
  simp [inkAll]

theorem pairwise_inkAll (base : String) (as : List AttributeSketch) :
    (inkAll base as).Pairwise (·.name < ·.name) := by
  induction as using List.reverseRecOn with
  | nil => exact List.Pairwise.nil
  | append_singleton as a ih =>
    rw [inkAll_concat]
    exact pairwise_insertByName ih

/-- No name is lost. -/
theorem exists_name_eq (base : String) {as : List AttributeSketch} {a : AttributeSketch}
    (ha : a ∈ as) : ∃ b ∈ inkAll base as, a.name.text base = b.name := by
  induction as using List.reverseRecOn with
  | nil => cases ha
  | append_singleton as c ih =>
    rw [inkAll_concat]
    by_cases hname : ∃ b ∈ inkAll base as, (c.ink base).name = b.name
    · rw [insertByName_eq_self (pairwise_inkAll base as) hname]
      rcases List.mem_append.1 ha with ha | ha
      · exact ih ha
      · rwa [List.mem_singleton.1 ha]
    · have hperm := insertByName_perm fun b hb heq => hname ⟨b, hb, heq⟩
      rcases List.mem_append.1 ha with ha | ha
      · obtain ⟨b, hb, heq⟩ := ih ha
        exact ⟨b, hperm.mem_iff.2 (List.mem_cons_of_mem _ hb), heq⟩
      · rw [List.mem_singleton.1 ha]
        exact ⟨c.ink base, hperm.mem_iff.2 List.mem_cons_self, rfl⟩

include hB

/-- Of several attributes with one name the same one is kept with every base. -/
theorem exists_perm_inkAll {as : List AttributeSketch} (has : ∀ a ∈ as, a.name.Clean B) :
    ∃ ds : List AttributeSketch, (∀ d ∈ ds, d ∈ as) ∧
      ∀ base ∈ B, (inkAll base as).Perm (ds.map (ink base)) := by
  induction as using List.reverseRecOn with
  | nil => exact ⟨[], by simp, fun _ _ => List.Perm.refl _⟩
  | append_singleton as a ih =>
    obtain ⟨hinit, ha⟩ := List.forall_mem_append.1 has
    replace ha := List.forall_mem_singleton.1 ha
    obtain ⟨ds, hds, hperm⟩ := ih hinit
    have hds' : ∀ d ∈ ds, d ∈ as ++ [a] := fun d hd => List.mem_append_left _ (hds d hd)
    by_cases hname : ∃ d ∈ ds, a.name = d.name
    · obtain ⟨d, hd, hname⟩ := hname
      refine ⟨ds, hds', fun base hbase => ?_⟩
      have hmem := (hperm base hbase).mem_iff.2 (List.mem_map_of_mem hd)
      rw [inkAll_concat, insertByName_eq_self (pairwise_inkAll base as)
        ⟨d.ink base, hmem, by simp [ink, hname]⟩]
      exact hperm base hbase
    · refine ⟨a :: ds, List.forall_mem_cons.2 ⟨by simp, hds'⟩, fun base hbase => ?_⟩
      rw [inkAll_concat]
      refine (insertByName_perm fun b hb heq => ?_).trans ((hperm base hbase).cons _)
      obtain ⟨d, hd, rfl⟩ := List.mem_map.1 ((hperm base hbase).mem_iff.1 hb)
      exact hname ⟨d, hd, (ha.text_eq_text_iff hB (hinit d (hds d hd)) hbase).1 heq⟩

/-- The attributes that are kept are the same with every base, and clean. -/
theorem CleanAll.exists_kept {as : List AttributeSketch} (has : CleanAll B as) :
    ∃ ds : List AttributeSketch, (∀ d ∈ ds, d ∈ as) ∧ (∀ d ∈ ds, d.Clean B) ∧
      ∀ base ∈ B, (inkAll base as).Perm (ds.map (ink base)) := by
  have hnames : ∀ a ∈ as, a.name.Clean B := by
    intro a ha base hbase
    obtain ⟨other, hother, habsent⟩ := has base hbase
    obtain ⟨b, hb, hname⟩ := exists_name_eq other ha
    refine ⟨other, hother, ?_⟩
    rw [← toList_sketchText, hname]
    exact (habsent b hb).1
  obtain ⟨ds, hds, hperm⟩ := exists_perm_inkAll hB hnames
  refine ⟨ds, hds, fun d hd => ⟨hnames d (hds d hd), fun base hbase => ?_⟩, hperm⟩
  obtain ⟨other, hother, habsent⟩ := has base hbase
  have hmem := (hperm other hother).mem_iff.2 (List.mem_map_of_mem hd)
  refine ⟨other, hother, ?_⟩
  rw [← toList_sketchText]
  exact (habsent _ hmem).2

/-! ### Scanning an attribute -/

omit hB in
theorem ink_name (base : String) (a : AttributeSketch) : (a.ink base).name = a.name.text base := rfl

omit hB in
theorem ink_value (base : String) (a : AttributeSketch) :
    (a.ink base).value = a.value.text base := rfl

variable {a : AttributeSketch} (ha : a.Clean B) (hsmall : ∀ k ∈ a.holes, k ≤ largest64)
  (hbase : base ∈ B) (hother : other ∈ B)

include ha hsmall hbase hother

/-- What remains of an attribute does not depend on the base. -/
theorem cutAttribute_ink :
    Template.cutAttribute base (a.ink base) = Template.cutAttribute other (a.ink other) := by
  obtain ⟨hname, hvalue⟩ := List.forall_mem_append.1 hsmall
  simp only [Template.cutAttribute, ink_name, ink_value]
  rcases ha.name.find?_cases hB (weight_eq_length_holes _) hname with
    ⟨cs, hcs, hnone⟩ | ⟨cs, k, Z, -, hfound⟩
  · rcases ha.value.find?_cases hB (weight_eq_length_holes _) hvalue with
      ⟨ds, hds, hnone'⟩ | ⟨ds, j, Z, -, hfound⟩
    · simp only [hnone base hbase, hnone' base hbase, hnone other hother, hnone' other hother]
      simp only [ink, hcs, hds, text_letters]
    · simp only [hnone base hbase, hfound base hbase, hnone other hother, hfound other hother]
      simp only [hcs, text_letters]
  · simp only [hfound base hbase, hfound other hother]

theorem ordinal_name_ink : (Marker.find? base (a.ink base).name).map Marker.ordinal =
    (Marker.find? other (a.ink other).name).map Marker.ordinal := by
  obtain ⟨hname, -⟩ := List.forall_mem_append.1 hsmall
  simp only [ink_name]
  rcases ha.name.find?_cases hB (weight_eq_length_holes _) hname with
    ⟨cs, -, hnone⟩ | ⟨cs, k, Z, -, hfound⟩
  · rw [hnone base hbase, hnone other hother]
  · rw [hfound base hbase, hfound other hother]
    rfl

/-- An attribute that is not refused with one base is not refused with another. -/
theorem accepted_ink (h : Template.Accepted base (a.ink base)) :
    Template.Accepted other (a.ink other) := by
  obtain ⟨hname, hvalue⟩ := List.forall_mem_append.1 hsmall
  have hwhole {cs : List Char} {k : ℕ} {Z : Sketch Empty}
      (h : (⟨String.ofList cs, k, Z.text base⟩ : Marker).isWhole = true) :
      (⟨String.ofList cs, k, Z.text other⟩ : Marker).isWhole = true :=
    (isWhole_iff hB hother cs k Z).2 ((isWhole_iff hB hbase cs k Z).1 h)
  simp only [Template.Accepted, ink_name, ink_value] at h ⊢
  rcases ha.name.find?_cases hB (weight_eq_length_holes _) hname with
    ⟨cs, -, hnone⟩ | ⟨cs, k, Z, -, hfound⟩ <;>
  rcases ha.value.find?_cases hB (weight_eq_length_holes _) hvalue with
    ⟨ds, -, hnone'⟩ | ⟨ds, j, W, -, hfound'⟩
  · simp [hnone other hother, hnone' other hother]
  · rw [hnone base hbase, hfound' base hbase] at h
    rw [hnone other hother, hfound' other hother]
    simpa using hwhole (h.2 rfl _ rfl)
  · rw [hfound base hbase, hnone' base hbase] at h
    rw [hfound other hother, hnone' other hother]
    simpa using hwhole (h.1 _ rfl).1
  · rw [hfound base hbase, hfound' base hbase] at h
    cases (h.1 _ rfl).2

end AttributeSketch

/-! ### Scanning the attributes of an element -/

namespace Template

open AttributeSketch

variable {path : Path} {places places' : Places}

theorem attributeHoles_perm (base : String) (path : Path) {as bs : List Attribute}
    (h : as.Perm bs) : (attributeHoles base path as).Perm (attributeHoles base path bs) :=
  ((h.filterMap _).map _).append ((h.filterMap _).flatMap_right _)

include hB

/-- What remains of attributes, and where the holes are, does not depend on the base. -/
theorem cutAttributes_ink {ds : List AttributeSketch} (hds : ∀ d ∈ ds, d.Clean B)
    (hsmall : ∀ d ∈ ds, ∀ k ∈ d.holes, k ≤ largest64) (hbase : base ∈ B) (hother : other ∈ B) :
    (ds.map (ink base)).filterMap (cutAttribute base) =
      (ds.map (ink other)).filterMap (cutAttribute other) ∧
    nameHoles base (ds.map (ink base)) = nameHoles other (ds.map (ink other)) := by
  induction ds with
  | nil => exact ⟨rfl, rfl⟩
  | cons d ds ih =>
    obtain ⟨hd, hds⟩ := List.forall_mem_cons.1 hds
    obtain ⟨hk, hks⟩ := List.forall_mem_cons.1 hsmall
    obtain ⟨hcut, hnames⟩ := ih hds hks
    rw [nameHoles, nameHoles] at hnames ⊢
    rw [List.map_cons, List.map_cons, List.filterMap_cons, List.filterMap_cons, List.filterMap_cons,
      List.filterMap_cons, cutAttribute_ink hB hd hk hbase hother,
      ordinal_name_ink hB hd hk hbase hother, hcut, hnames]
    exact ⟨rfl, rfl⟩

/-- Attributes that are scanned with one base are scanned alike with another. -/
theorem scanAttributes_ink {element element' : String} {as : List AttributeSketch}
    {rest : List Attribute} (has : CleanAll B as) (hsmall : ∀ a ∈ as, ∀ k ∈ a.holes, k ≤ largest64)
    (hbase : base ∈ B) (hother : other ∈ B)
    (h : scanAttributes base element path places (inkAll base as) = .ok (rest, places')) :
    scanAttributes other element' path places (inkAll other as) = .ok (rest, places') := by
  obtain ⟨ds, hds, hclean, hperm⟩ := has.exists_kept hB
  have hkept : ∀ d ∈ ds, ∀ k ∈ d.holes, k ≤ largest64 := fun d hd => hsmall d (hds d hd)
  obtain ⟨hcut, hnames⟩ := cutAttributes_ink hB hclean hkept hbase hother
  have haccepted : ∀ a ∈ inkAll other as, Accepted other a := by
    intro a ha
    obtain ⟨d, hd, rfl⟩ := List.mem_map.1 ((hperm other hother).mem_iff.1 ha)
    refine accepted_ink hB (hclean d hd) (hkept d hd) hbase hother ?_
    exact accepted_of_scanAttributes h _ ((hperm base hbase).mem_iff.2 (List.mem_map_of_mem hd))
  obtain ⟨rfl, hrecords⟩ := scanAttributes_eq_ok h
  have hholes : (attributeHoles base path (inkAll base as)).Perm
      (attributeHoles other path (inkAll other as)) := by
    refine (attributeHoles_perm base path (hperm base hbase)).trans ?_
    rw [attributeHoles, hcut, hnames]
    exact (attributeHoles_perm other path (hperm other hother)).symm
  -- Both are sorted by name, so they are in one order.
  have hsorted (base : String) :
      (((inkAll base as).filterMap (cutAttribute base)).map Prod.snd).Pairwise
        (·.name < ·.name) := by
    have hnames := List.pairwise_map.2 (pairwise_inkAll base as)
    rw [← List.pairwise_map (f := Attribute.name), List.map_map]
    exact hnames.sublist (names_cutAttributes base _)
  have hrest : (((inkAll other as).filterMap (cutAttribute other)).map Prod.snd).Perm
      (((inkAll base as).filterMap (cutAttribute base)).map Prod.snd) := by
    refine (((hperm other hother).filterMap _).trans ?_).map Prod.snd
    rw [← hcut]
    exact ((hperm base hbase).filterMap _).symm
  rw [scanAttributes_of_records element' haccepted (hrecords.perm hholes),
    hrest.eq_of_pairwise (fun a b _ _ hab hba => absurd hba (lt_asymm hab)) (hsorted other)
      (hsorted base)]

end Template

end LiveMarkup
