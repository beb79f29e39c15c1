import LiveMarkup.Proofs.Markup.Names
import LiveMarkup.Proofs.Template.Cut

/-!
# The content of compiled templates

What remains of markup when its markers are cut out: holes are left at elements, at empty comments
and at attributes with an empty value (`Template.Tidy`), no marker can be found any more
(`Tree.Unmarked`), and attributes keep different names.  A template that compiles has a path for
each of its holes and no others (`Template.compile_eq_ok`).
-/

namespace LiveMarkup

/-! ### Trees without markers -/

mutual

/-- No marker is found in a text, or in the name or the value of an attribute. -/
def Tree.Unmarked (base : String) : Tree → Prop
  | .element _ as cs =>
    (∀ a ∈ as, Marker.find? base a.name = none ∧ Marker.find? base a.value = none) ∧
      Tree.UnmarkedAll base cs
  | .text s => Marker.find? base s = none
  | .comment _ => True

/-- No marker is found in any of several trees. -/
def Tree.UnmarkedAll (base : String) : List Tree → Prop
  | [] => True
  | t :: ts => t.Unmarked base ∧ Tree.UnmarkedAll base ts

end

namespace Template

variable {base : String}

mutual

/-- Holes are left at elements, and one at a time at empty comments and at attributes with an empty
value. -/
def Tidy : Labelled (List ℕ) → Prop
  | .element _ _ as cs => (∀ a ∈ as, a.1 = [] ∨ (∃ i, a.1 = [i]) ∧ a.2.value = "") ∧ TidyAll cs
  | .text l _ => l = []
  | .comment l s => l = [] ∨ (∃ i, l = [i]) ∧ s = ""

/-- Holes are left in several trees as they are in one. -/
def TidyAll : List (Labelled (List ℕ)) → Prop
  | [] => True
  | L :: Ls => Tidy L ∧ TidyAll Ls

end

theorem tidyAll_append {Ls Ms : List (Labelled (List ℕ))} :
    TidyAll (Ls ++ Ms) ↔ TidyAll Ls ∧ TidyAll Ms := by
  induction Ls with
  | nil => simp [TidyAll]
  | cons L Ls ih => simp [TidyAll, ih, and_assoc]

theorem unmarkedAll_append {ts us : List Tree} :
    Tree.UnmarkedAll base (ts ++ us) ↔ Tree.UnmarkedAll base ts ∧ Tree.UnmarkedAll base us := by
  induction ts with
  | nil => simp [Tree.UnmarkedAll]
  | cons t ts ih => simp [Tree.UnmarkedAll, ih, and_assoc]

theorem namedAll_append {ts us : List Tree} :
    Tree.NamedAll (ts ++ us) ↔ Tree.NamedAll ts ∧ Tree.NamedAll us := by
  induction ts with
  | nil => simp [Tree.NamedAll]
  | cons t ts ih => simp [Tree.NamedAll, ih, and_assoc]

/-! ### Cut texts -/

theorem tidyAll_cutText (fuel : ℕ) (data : String) : TidyAll (cutText base fuel data) := by
  induction fuel generalizing data with
  | zero => exact ⟨rfl, trivial⟩
  | succ fuel ih =>
    rw [cutText]
    split
    · exact ⟨rfl, trivial⟩
    · next m _ =>
      refine tidyAll_append.2 ⟨?_, Or.inr ⟨⟨m.ordinal, rfl⟩, rfl⟩, ?_⟩
      · split_ifs
        · trivial
        · exact ⟨rfl, trivial⟩
      · split_ifs
        · trivial
        · exact ih m.after

/-- A text has fewer markers than characters, so none is left over. -/
theorem unmarkedAll_cutText {fuel : ℕ} {data : String} (hfuel : data.length ≤ fuel) :
    Tree.UnmarkedAll base (Labelled.trees (cutText base fuel data)) := by
  induction fuel generalizing data with
  | zero =>
    obtain rfl : data = "" := by simpa using hfuel
    exact ⟨Marker.find?_empty base, trivial⟩
  | succ fuel ih =>
    rw [cutText]
    split
    · next hnone => exact ⟨hnone, trivial⟩
    · next m hsome =>
      rw [Labelled.trees_append]
      refine unmarkedAll_append.2 ⟨?_, trivial, ?_⟩
      · split_ifs
        · trivial
        · exact ⟨Marker.find?_before hsome, trivial⟩
      · split_ifs
        · trivial
        · have hlt := Marker.length_after_lt hsome
          exact ih (by omega)

theorem namedAll_cutText (fuel : ℕ) (data : String) :
    Tree.NamedAll (Labelled.trees (cutText base fuel data)) := by
  induction fuel generalizing data with
  | zero => exact ⟨trivial, trivial⟩
  | succ fuel ih =>
    rw [cutText]
    split
    · exact ⟨trivial, trivial⟩
    · next m _ =>
      rw [Labelled.trees_append]
      refine namedAll_append.2 ⟨?_, trivial, ?_⟩
      · split_ifs
        · trivial
        · exact ⟨trivial, trivial⟩
      · split_ifs
        · trivial
        · exact ih m.after

/-! ### Cut attributes -/

/-- What remains of an attribute has its name, in which no marker is found, and either its value, in
which no marker is found, or the hole of the marker that was its value. -/
theorem cutAttribute_eq_some {a : Attribute} {b : List ℕ × Attribute}
    (h : cutAttribute base a = some b) :
    Marker.find? base a.name = none ∧
      (b = ([], a) ∧ Marker.find? base a.value = none ∨
        ∃ m, b = ([m.ordinal], ⟨a.name, ""⟩) ∧ Marker.find? base a.value = some m) := by
  unfold cutAttribute at h
  split at h
  · cases h
  · next hname =>
    refine ⟨hname, ?_⟩
    split at h
    · next m hvalue => exact Or.inr ⟨m, (Option.some.inj h).symm, hvalue⟩
    · next hvalue => exact Or.inl ⟨(Option.some.inj h).symm, hvalue⟩

theorem name_cutAttribute {a : Attribute} {b : List ℕ × Attribute}
    (h : cutAttribute base a = some b) : b.2.name = a.name := by
  rcases (cutAttribute_eq_some h).2 with ⟨rfl, -⟩ | ⟨m, rfl, -⟩ <;> rfl

theorem names_cutAttributes (base : String) (as : List Attribute) :
    ((as.filterMap (cutAttribute base)).map (·.2.name)).Sublist (as.map Attribute.name) := by
  induction as with
  | nil => exact List.Sublist.refl _
  | cons a as ih =>
    rw [List.map_cons]
    cases hcut : cutAttribute base a with
    | none =>
      rw [List.filterMap_cons_none hcut]
      exact ih.cons a.name
    | some b =>
      rw [List.filterMap_cons_some hcut, List.map_cons, name_cutAttribute hcut]
      exact ih.cons_cons a.name

/-! ### Cut trees -/

mutual

theorem tidyAll_cut (base : String) (t : Tree) : TidyAll (cut base t) := by
  cases t with
  | text s => exact tidyAll_cutText s.length s
  | comment s => exact ⟨Or.inl rfl, trivial⟩
  | element tag as cs =>
    refine ⟨⟨fun b hb => ?_, tidyAll_cutAll base cs⟩, trivial⟩
    obtain ⟨a, -, hcut⟩ := List.mem_filterMap.1 hb
    rcases (cutAttribute_eq_some hcut).2 with ⟨rfl, -⟩ | ⟨m, rfl, -⟩
    · exact Or.inl rfl
    · exact Or.inr ⟨⟨m.ordinal, rfl⟩, rfl⟩

theorem tidyAll_cutAll (base : String) (ts : List Tree) : TidyAll (cutAll base ts) := by
  cases ts with
  | nil => trivial
  | cons t ts => exact tidyAll_append.2 ⟨tidyAll_cut base t, tidyAll_cutAll base ts⟩

end

mutual

theorem unmarkedAll_cut (base : String) (t : Tree) :
    Tree.UnmarkedAll base (Labelled.trees (cut base t)) := by
  cases t with
  | text s => exact unmarkedAll_cutText le_rfl
  | comment s => exact ⟨trivial, trivial⟩
  | element tag as cs =>
    refine ⟨⟨fun b hb => ?_, unmarkedAll_cutAll base cs⟩, trivial⟩
    obtain ⟨c, hc, rfl⟩ := List.mem_map.1 hb
    obtain ⟨a, -, hcut⟩ := List.mem_filterMap.1 hc
    obtain ⟨hname, hvalue⟩ := cutAttribute_eq_some hcut
    rcases hvalue with ⟨rfl, hvalue⟩ | ⟨m, rfl, -⟩
    · exact ⟨hname, hvalue⟩
    · exact ⟨hname, Marker.find?_empty base⟩

/-- No marker is left in what a cut makes of trees. -/
theorem unmarkedAll_cutAll (base : String) (ts : List Tree) :
    Tree.UnmarkedAll base (Labelled.trees (cutAll base ts)) := by
  cases ts with
  | nil => trivial
  | cons t ts =>
    rw [cutAll, Labelled.trees_append]
    exact unmarkedAll_append.2 ⟨unmarkedAll_cut base t, unmarkedAll_cutAll base ts⟩

end

mutual

theorem namedAll_cut {t : Tree} (h : t.Named) :
    Tree.NamedAll (Labelled.trees (cut base t)) := by
  cases t with
  | text s => exact namedAll_cutText s.length s
  | comment s => exact ⟨trivial, trivial⟩
  | element tag as cs =>
    obtain ⟨hsmall, hnames, hchildren⟩ := h
    refine ⟨⟨fun b hb => ?_, ?_, namedAll_cutAll hchildren⟩, trivial⟩
    · obtain ⟨c, hc, rfl⟩ := List.mem_map.1 hb
      obtain ⟨a, ha, hcut⟩ := List.mem_filterMap.1 hc
      rw [name_cutAttribute hcut]
      exact hsmall a ha
    · rw [List.map_map]
      exact (names_cutAttributes base as).nodup hnames

theorem namedAll_cutAll {ts : List Tree} (h : Tree.NamedAll ts) :
    Tree.NamedAll (Labelled.trees (cutAll base ts)) := by
  cases ts with
  | nil => trivial
  | cons t ts =>
    rw [cutAll, Labelled.trees_append]
    exact namedAll_append.2 ⟨namedAll_cut h.1, namedAll_cutAll h.2⟩

end

/-! ### Compiling -/

/-- The markup of a template, cut at its markers. -/
@[irreducible] def cutSource (base : String) (segments : List String) : List (Labelled (List ℕ)) :=
  cutAll base (Tree.ofMarkup (source base segments))

theorem tidyAll_cutSource (base : String) (segments : List String) :
    TidyAll (cutSource base segments) := by
  rw [cutSource]
  generalize Tree.ofMarkup (source base segments) = ts
  exact tidyAll_cutAll base ts

theorem unmarkedAll_cutSource (base : String) (segments : List String) :
    Tree.UnmarkedAll base (Labelled.trees (cutSource base segments)) := by
  rw [cutSource]
  generalize Tree.ofMarkup (source base segments) = ts
  exact unmarkedAll_cutAll base ts

theorem namedAll_cutSource (base : String) (segments : List String) :
    Tree.NamedAll (Labelled.trees (cutSource base segments)) := by
  have hnamed := Tree.namedAll_ofMarkup (source base segments)
  rw [cutSource]
  generalize Tree.ofMarkup (source base segments) = ts at hnamed ⊢
  exact namedAll_cutAll hnamed

theorem allFound_eq_ok {ordinal : ℕ} {places : Places} {paths : List Path}
    (h : allFound ordinal places = .ok paths) : places = paths.map some := by
  induction places generalizing ordinal paths with
  | nil =>
    obtain rfl := Except.ok.inj h
    rfl
  | cons place places ih =>
    cases place with
    | none => cases h
    | some path =>
      rw [allFound] at h
      cases hrest : allFound (ordinal + 1) places with
      | error fault => rw [hrest] at h; cases h
      | ok rest =>
        rw [hrest] at h
        obtain rfl := Except.ok.inj h
        rw [ih hrest, List.map_cons]

/-- What compiling gives: the content is the source cut at its markers, there are as many paths as
holes between segments, and hole `i` of the cut is at the path with number `i`. -/
theorem compile_eq_ok {segments : List String} {t : Template} (h : compile base segments = .ok t) :
    t.content = Labelled.trees (cutSource base segments) ∧
      t.paths.length = holeCount segments ∧
      ((holesAt [] 0 (cutSource base segments)).map Prod.fst).Nodup ∧
      ∀ i path, (i, path) ∈ holesAt [] 0 (cutSource base segments) ↔ t.paths[i]? = some path := by
  rw [compile] at h
  split at h
  · cases h
  · next content places hscan =>
    split at h
    · cases h
    · next paths hfound =>
      obtain rfl := Except.ok.inj h
      obtain ⟨hcontent, hrecords⟩ := scanAll_eq_ok hscan
      rw [← cutSource] at hcontent hrecords
      obtain rfl := allFound_eq_ok hfound
      refine ⟨hcontent, by simpa [Path.coalesced] using hrecords.length_eq, hrecords.nodup, ?_⟩
      intro i path
      rw [Path.coalesced]
      constructor
      · intro hm
        have hrecorded := hrecords.recorded _ hm
        rw [List.getElem?_map, Option.map_eq_some_iff] at hrecorded
        obtain ⟨p, hp, heq⟩ := hrecorded
        rw [hp, Option.some.inj heq]
      · intro hp
        have hplace : (paths.map some)[i]? = some (some path) := by rw [List.getElem?_map, hp]; rfl
        -- A place that is not recorded is empty.
        have hi : i ∈ (holesAt [] 0 (cutSource base segments)).map Prod.fst := by
          by_contra hi
          have hlt : i < (List.replicate (holeCount segments) (none : Option Path)).length := by
            rw [← hrecords.length_eq]
            exact (List.getElem?_eq_some_iff.1 hplace).1
          rw [hrecords.others i hi, List.getElem?_replicate, if_pos (by simpa using hlt)] at hplace
          cases hplace
        obtain ⟨hole, hm, rfl⟩ := List.mem_map.1 hi
        have hrecorded := hrecords.recorded hole hm
        rw [hplace] at hrecorded
        rw [Option.some.inj (Option.some.inj hrecorded)]
        exact hm

end Template

end LiveMarkup
