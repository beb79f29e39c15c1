import LiveMarkup.Proofs.Template.Filled

/-!
# What compiling has checked

In the markup of a template that compiles, a marker in an attribute is all of its name or all of its
value (`Template.wholeAll_source`), and the holes are those between the segments, each of them once
(`Template.mem_holes_iff`, `Template.nodup_holes`).
-/

namespace LiveMarkup

namespace Tree

/-- A marker in the name of an attribute is all of the name; otherwise one in the value is all of
the value. -/
def WholeMarker (base : String) (a : Attribute) : Prop :=
  match Marker.find? base a.name with
  | some m => m.isWhole = true
  | none => ∀ m, Marker.find? base a.value = some m → m.isWhole = true

mutual

/-- Markers in attributes are whole names or values. -/
def Whole (base : String) : Tree → Prop
  | element _ as cs => (∀ a ∈ as, WholeMarker base a) ∧ WholeAll base cs
  | text _ => True
  | comment _ => True

/-- Markers in attributes of several trees are whole names or values. -/
def WholeAll (base : String) : List Tree → Prop
  | [] => True
  | t :: ts => t.Whole base ∧ WholeAll base ts

end

end Tree

namespace Template

variable {base : String}

/-! ### Whole markers -/

theorem wholes_of_scanAttributes {element : String} {path : Path} {as as' : List Attribute}
    {places places' : Places}
    (h : scanAttributes base element path places as = .ok (as', places')) :
    ∀ a ∈ as, Tree.WholeMarker base a := by
  induction as generalizing places places' as' with
  | nil => simp
  | cons a as ih =>
    rw [List.forall_mem_cons, Tree.WholeMarker]
    rcases scanAttributes_cons_eq_ok h with ⟨m, places₁, hname, hwhole, -, -, hscan⟩ |
      ⟨bs, hname, hvalue, hscan, -⟩ | ⟨m, places₁, bs, hname, hvalue, hwhole, -, hscan, -⟩
    · rw [hname]
      exact ⟨hwhole, ih hscan⟩
    · rw [hname, hvalue]
      exact ⟨by simp, ih hscan⟩
    · rw [hname, hvalue]
      exact ⟨fun m' hm' => Option.some.inj hm' ▸ hwhole, ih hscan⟩

mutual

theorem whole_of_scan {base : String} {path : Path} {places places' : Places} {inStyle : Bool}
    {index : ℕ} {t : Tree} {pieces : List Tree}
    (h : scan base inStyle path index places t = .ok (pieces, places')) : t.Whole base := by
  cases t with
  | text data => trivial
  | comment data => trivial
  | element tag as cs =>
    rw [scan] at h
    split at h
    · cases h
    · next has =>
      split at h
      · cases h
      · next hcs => exact ⟨wholes_of_scanAttributes has, wholeAll_of_scanAll hcs⟩

theorem wholeAll_of_scanAll {base : String} {path : Path} {places places' : Places}
    {inStyle : Bool} {index : ℕ} {ts pieces : List Tree}
    (h : scanAll base inStyle path index places ts = .ok (pieces, places')) :
    Tree.WholeAll base ts := by
  cases ts with
  | nil => trivial
  | cons t ts =>
    rw [scanAll] at h
    split at h
    · cases h
    · next ht =>
      split at h
      · cases h
      · next hts => exact ⟨whole_of_scan ht, wholeAll_of_scanAll hts⟩

end

/-! ### Ordinals -/

theorem labels_cutText {fuel : ℕ} {data : String} {m : Marker}
    (hfound : Marker.find? base data = some m) :
    (Labelled.labelsAll (cutText base (fuel + 1) data)).flatten = m.ordinal ::
      if m.after.isEmpty then [] else (Labelled.labelsAll (cutText base fuel m.after)).flatten := by
  have hbefore : (Labelled.labelsAll (if m.before.isEmpty then []
      else [Labelled.text ([] : List ℕ) m.before])).flatten = [] := by
    split_ifs <;> rfl
  rw [cutText, hfound]
  dsimp only
  rw [Labelled.labelsAll_append, List.flatten_append, hbefore, Labelled.labelsAll, Labelled.labels,
    List.nil_append, List.singleton_append, List.flatten_cons, List.singleton_append]
  split_ifs <;> rfl

theorem labels_cutText_of_none {data : String} (hfound : Marker.find? base data = none)
    (fuel : ℕ) : (Labelled.labelsAll (cutText base fuel data)).flatten = [] := by
  cases fuel with
  | zero => rfl
  | succ fuel =>
    rw [cutText, hfound]
    rfl

/-- A hole at an element or below it is a marker in an attribute, or a hole below a child. -/
theorem mem_labels_element {tag : String} {as : List Attribute} {cs : List Tree} {i : ℕ}
    (hi : i ∈ (Labelled.labelsAll (cut base (.element tag as cs))).flatten) :
    (∃ a ∈ as, ∃ m : Marker, m.ordinal = i ∧
      (Marker.find? base a.name = some m ∨ Marker.find? base a.value = some m)) ∨
    i ∈ (Labelled.labelsAll (cutAll base cs)).flatten := by
  rw [cut, Labelled.labelsAll, Labelled.labelsAll, List.append_nil, Labelled.labels,
    List.cons_append, List.flatten_cons, List.flatten_append, List.mem_append,
    List.mem_append] at hi
  rcases hi with hi | hi | hi
  · obtain ⟨a, ha, hfound⟩ := List.mem_filterMap.1 hi
    obtain ⟨m, hm, rfl⟩ := Option.map_eq_some_iff.1 hfound
    exact Or.inl ⟨a, ha, m, rfl, Or.inl hm⟩
  · obtain ⟨l, hl, hi⟩ := List.mem_flatten.1 hi
    obtain ⟨b, hb, rfl⟩ := List.mem_map.1 hl
    obtain ⟨a, ha, hcut⟩ := List.mem_filterMap.1 hb
    rcases (cutAttribute_eq_some hcut).2 with ⟨rfl, -⟩ | ⟨m, rfl, hm⟩
    · cases hi
    · exact Or.inl ⟨a, ha, m, (List.mem_singleton.1 hi).symm, Or.inr hm⟩
  · exact Or.inr hi

theorem ordinal_le_of_cutText {fuel : ℕ} {data : String} :
    ∀ i ∈ (Labelled.labelsAll (cutText base fuel data)).flatten, i ≤ largest64 := by
  induction fuel generalizing data with
  | zero => simp [cutText, Labelled.labelsAll, Labelled.labels]
  | succ fuel ih =>
    cases hfound : Marker.find? base data with
    | none => simp [labels_cutText_of_none hfound]
    | some m =>
      rw [labels_cutText hfound]
      refine List.forall_mem_cons.2 ⟨Marker.ordinal_le_of_find? hfound, fun i hi => ?_⟩
      split_ifs at hi
      · cases hi
      · exact ih i hi

mutual

theorem ordinal_le_of_cut (t : Tree) :
    ∀ i ∈ (Labelled.labelsAll (cut base t)).flatten, i ≤ largest64 := by
  cases t with
  | text s => exact ordinal_le_of_cutText
  | comment s => simp [cut, Labelled.labelsAll, Labelled.labels]
  | element tag as cs =>
    intro i hi
    rcases mem_labels_element hi with ⟨a, -, m, rfl, hm | hm⟩ | hi
    · exact Marker.ordinal_le_of_find? hm
    · exact Marker.ordinal_le_of_find? hm
    · exact ordinal_le_of_cutAll cs i hi

/-- The ordinals of all markers that are found fit 64 bits. -/
theorem ordinal_le_of_cutAll (ts : List Tree) :
    ∀ i ∈ (Labelled.labelsAll (cutAll base ts)).flatten, i ≤ largest64 := by
  cases ts with
  | nil => simp [cutAll, Labelled.labelsAll]
  | cons t ts =>
    intro i hi
    rw [cutAll, Labelled.labelsAll_append, List.flatten_append] at hi
    rcases List.mem_append.1 hi with hi | hi
    · exact ordinal_le_of_cut t i hi
    · exact ordinal_le_of_cutAll ts i hi

end

/-! ### Compiled templates -/

section Compiled

variable {segments : List String} {t : Template} (ht : compile base segments = .ok t)

include ht

/-- The holes of a compiled template are those between its segments, each of them once. -/
theorem mem_holes_iff {i : ℕ} :
    i ∈ (Labelled.labelsAll (cutSource base segments)).flatten ↔ i < holeCount segments := by
  obtain ⟨-, hlength, -, hpaths⟩ := compile_eq_ok ht
  rw [← fst_holesAt [] 0, ← hlength, List.mem_map]
  constructor
  · rintro ⟨hole, hmem, rfl⟩
    exact (List.getElem?_eq_some_iff.1 ((hpaths hole.1 hole.2).1 hmem)).1
  · intro hi
    exact ⟨(i, t.paths[i]), (hpaths i _).2 (List.getElem?_eq_getElem hi), rfl⟩

theorem nodup_holes : (Labelled.labelsAll (cutSource base segments)).flatten.Nodup := by
  obtain ⟨-, -, hnodup, -⟩ := compile_eq_ok ht
  rwa [fst_holesAt] at hnodup

theorem holeCount_le : holeCount segments ≤ largest64 + 1 := by
  by_contra hlt
  have hle : largest64 + 1 ≤ largest64 := by
    have hmem := (mem_holes_iff ht).2 (Nat.lt_of_not_le hlt)
    rw [cutSource] at hmem
    generalize Tree.ofMarkup (source base segments) = ts at hmem
    exact ordinal_le_of_cutAll ts _ hmem
  omega

theorem wholeAll_source {ts : List Tree} (hts : Tree.ofMarkup (source base segments) = ts) :
    Tree.WholeAll base ts := by
  rw [compile, hts] at ht
  split at ht
  · cases ht
  · next hscan => exact wholeAll_of_scanAll hscan

theorem not_mem_elementHoles {i : ℕ}
    (hi : i ∈ Labelled.dataHolesAll (cutSource base segments)) :
    i < holeCount segments ∧ i ∉ Labelled.elementHolesAll (cutSource base segments) := by
  have hperm := Labelled.perm_holesAll (cutSource base segments)
  have hnodup := hperm.nodup_iff.1 (nodup_holes ht)
  refine ⟨(mem_holes_iff ht).1 (hperm.mem_iff.2 (List.mem_append_right _ hi)), fun helement => ?_⟩
  exact (List.nodup_append.1 hnodup).2.2 i helement i hi rfl

end Compiled

end Template

end LiveMarkup
