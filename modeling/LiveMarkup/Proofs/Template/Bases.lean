import LiveMarkup.Proofs.Template.Checked
import LiveMarkup.Proofs.Template.SketchedAttributes

/-!
# Compiling with another base

A template compiles with one base if and only if it compiles with another, and then to the same
template (`Template.compile_eq_ok_iff_of_bases`).  Two things have to be excluded: that one of the
bases completes a character reference with which a segment ends, and that something that is read
from the source with the one looks like a marker of the other.  Without this the outcome can depend
on the base (`Template.not_independent_of_base`).

The trees of the source are those of sketches.  If the template compiles with one base then all of
its holes are found, and there are no more, so no hole is lost in a tag, in a comment or in a
character reference (`TreeSketch.intact_of_weight_le`).  Then the scan finds the same with the other
base (`Template.scanAll_ink`).
-/

namespace LiveMarkup

open Sketch

/-! ### Trees without the markers of a base -/

namespace Tree

mutual

/-- No marker of the base is in a text, or in the name or the value of an attribute. -/
def Lacks (base : String) : Tree → Prop
  | element _ as cs =>
    (∀ a ∈ as, Marker.Absent base a.name.toList ∧ Marker.Absent base a.value.toList) ∧
      LacksAll base cs
  | text s => Marker.Absent base s.toList
  | comment _ => True

/-- No marker of the base is in any of several trees. -/
def LacksAll (base : String) : List Tree → Prop
  | [] => True
  | t :: ts => t.Lacks base ∧ LacksAll base ts

end

mutual

/-- It can be decided whether a tree lacks the markers of a base. -/
def decidableLacks (base : String) : (t : Tree) → Decidable (t.Lacks base)
  | element _ _ cs =>
    have := decidableLacksAll base cs
    inferInstanceAs (Decidable (_ ∧ _))
  | text _ => inferInstanceAs (Decidable (Marker.Absent _ _))
  | comment _ => inferInstanceAs (Decidable True)

/-- It can be decided whether trees lack the markers of a base. -/
def decidableLacksAll (base : String) : (ts : List Tree) → Decidable (LacksAll base ts)
  | [] => inferInstanceAs (Decidable True)
  | t :: ts =>
    have := decidableLacks base t
    have := decidableLacksAll base ts
    inferInstanceAs (Decidable (_ ∧ _))

end

instance (base : String) (ts : List Tree) : Decidable (LacksAll base ts) :=
  decidableLacksAll base ts

end Tree

instance (base : String) : (t : Token) → Decidable (t.Lacks base)
  | .start _ _ _ => inferInstanceAs (Decidable (Marker.Absent _ _))
  | .stop _ => inferInstanceAs (Decidable (Marker.Absent _ _))
  | .text _ => inferInstanceAs (Decidable True)
  | .comment _ => inferInstanceAs (Decidable True)
  | .doctype => inferInstanceAs (Decidable True)

/-! ### Holes that are found -/

namespace TreeSketch

mutual

/-- The ordinals of the holes in texts and attributes. -/
def holes : TreeSketch → List ℕ
  | element _ as cs => as.flatMap AttributeSketch.holes ++ holesAll cs
  | text data => data.holes
  | comment _ => []

/-- The ordinals of the holes in the texts and attributes of several trees. -/
def holesAll : List TreeSketch → List ℕ
  | [] => []
  | t :: ts => t.holes ++ holesAll ts

end

mutual

/-- No hole is lost: tags and comments have none, and texts have no parts of markers. -/
def Intact : TreeSketch → Prop
  | element tag _ cs => tag.weight = 0 ∧ IntactAll cs
  | text data => data.weight = data.holes.length
  | comment data => data.weight = 0

/-- No hole is lost in any of several trees. -/
def IntactAll : List TreeSketch → Prop
  | [] => True
  | t :: ts => t.Intact ∧ IntactAll ts

end

theorem weightAll_attributes (as : List AttributeSketch) :
    AttributeSketch.weightAll as = (as.flatMap AttributeSketch.holes).length := by
  induction as with
  | nil => rfl
  | cons a as ih =>
    rw [AttributeSketch.weightAll_cons, ih, List.flatMap_cons, List.length_append,
      AttributeSketch.weight, weight_eq_length_holes, weight_eq_length_holes,
      AttributeSketch.holes, List.length_append]

mutual

theorem length_holes_le (t : TreeSketch) : t.holes.length ≤ t.weight := by
  cases t with
  | text data => exact data.length_holes_le_weight
  | comment data => exact Nat.zero_le _
  | element tag as cs =>
    have hle := length_holesAll_le cs
    rw [holes, List.length_append, weight, weightAll_attributes]
    omega

theorem length_holesAll_le (ts : List TreeSketch) : (holesAll ts).length ≤ weightAll ts := by
  cases ts with
  | nil => exact le_rfl
  | cons t ts =>
    rw [holesAll, List.length_append, weightAll]
    exact Nat.add_le_add (length_holes_le t) (length_holesAll_le ts)

end

mutual

theorem intact_of_weight_le {t : TreeSketch} (h : t.weight ≤ t.holes.length) : t.Intact := by
  cases t with
  | text data => exact le_antisymm h data.length_holes_le_weight
  | comment data => exact Nat.le_zero.1 h
  | element tag as cs =>
    have hle := length_holesAll_le cs
    rw [holes, List.length_append, weight, weightAll_attributes] at h
    exact ⟨by omega, intactAll_of_weightAll_le (by omega)⟩

/-- Trees that weigh no more than they have holes are intact. -/
theorem intactAll_of_weightAll_le {ts : List TreeSketch} (h : weightAll ts ≤ (holesAll ts).length) :
    IntactAll ts := by
  cases ts with
  | nil => trivial
  | cons t ts =>
    have hle := length_holes_le t
    have hles := length_holesAll_le ts
    rw [holesAll, List.length_append, weightAll] at h
    exact ⟨intact_of_weight_le (by omega), intactAll_of_weightAll_le (by omega)⟩

end

/-- Whatever the base, there is another with which nothing in the tree looks like its markers. -/
def Clean (B : Set String) (t : TreeSketch) : Prop :=
  ∀ base ∈ B, ∃ other ∈ B, (t.ink other).Lacks base

/-- Whatever the base, there is another with which nothing in the trees looks like its markers. -/
def CleanAll (B : Set String) (ts : List TreeSketch) : Prop :=
  ∀ base ∈ B, ∃ other ∈ B, Tree.LacksAll base (inkAll other ts)

variable {B : Set String} {t : TreeSketch} {ts cs : List TreeSketch}

theorem Clean.attributes {tag : Sketch Empty} {as : List AttributeSketch}
    (h : Clean B (element tag as cs)) : AttributeSketch.CleanAll B as := fun base hbase =>
  (h base hbase).imp fun _ hother => ⟨hother.1, hother.2.1⟩

theorem Clean.children {tag : Sketch Empty} {as : List AttributeSketch}
    (h : Clean B (element tag as cs)) : CleanAll B cs := fun base hbase =>
  (h base hbase).imp fun _ hother => ⟨hother.1, hother.2.2⟩

theorem Clean.data {X : Sketch Shard} (h : Clean B (text X)) : X.Clean B := fun base hbase =>
  (h base hbase).imp fun _ hother => ⟨hother.1, toList_sketchText _ X ▸ hother.2⟩

theorem CleanAll.head (h : CleanAll B (t :: ts)) : t.Clean B := fun base hbase =>
  (h base hbase).imp fun _ hother => ⟨hother.1, hother.2.1⟩

theorem CleanAll.tail (h : CleanAll B (t :: ts)) : CleanAll B ts := fun base hbase =>
  (h base hbase).imp fun _ hother => ⟨hother.1, hother.2.2⟩

end TreeSketch

namespace Template

variable {B : Set String} {base other : String}

/-! ### What is found are holes -/

theorem mem_holes_of_cutText (hB : ∀ base ∈ B, IsBase base) (hbase : base ∈ B) {X : Sketch Shard}
    (hX : X.Clean B) (fuel : ℕ) :
    ∀ i ∈ (Labelled.labelsAll (cutText base fuel (X.text base))).flatten, i ∈ X.holes := by
  induction fuel generalizing X with
  | zero => simp [cutText, Labelled.labelsAll, Labelled.labels]
  | succ fuel ih =>
    cases hfound : Marker.find? base (X.text base) with
    | none => simp [labels_cutText_of_none hfound]
    | some m =>
      obtain ⟨Y, Z, rfl, hafter⟩ := hX.exists_hole hB hbase hfound
      have hZ : Z.Clean B := Sketch.Clean.suffix (X := [.hole m.ordinal]) hX.suffix
      rw [labels_cutText hfound, hafter]
      refine List.forall_mem_cons.2 ⟨by simp, fun i hi => ?_⟩
      split_ifs at hi
      · cases hi
      · simp [ih hZ i hi]

mutual

theorem mem_holes_of_cut (hB : ∀ base ∈ B, IsBase base) (hbase : base ∈ B) {t : TreeSketch}
    (ht : t.Clean B) : ∀ i ∈ (Labelled.labelsAll (cut base (t.ink base))).flatten, i ∈ t.holes := by
  cases t with
  | text X => exact mem_holes_of_cutText hB hbase ht.data _
  | comment r => simp [TreeSketch.ink, cut, Labelled.labelsAll, Labelled.labels]
  | element tag as cs =>
    intro i hi
    rw [TreeSketch.holes, List.mem_append]
    rcases mem_labels_element hi with ⟨a, ha, m, rfl, hm⟩ | hi
    · obtain ⟨ds, hds, hclean, hperm⟩ := ht.attributes.exists_kept hB
      obtain ⟨d, hd, rfl⟩ := List.mem_map.1 ((hperm base hbase).mem_iff.1 ha)
      refine Or.inl (List.mem_flatMap.2 ⟨d, hds d hd, List.mem_append.2 ?_⟩)
      exact hm.imp ((hclean d hd).name.mem_holes hB hbase) ((hclean d hd).value.mem_holes hB hbase)
    · exact Or.inr (mem_holesAll_of_cutAll hB hbase ht.children i hi)

/-- What a cut finds with one of the bases are holes. -/
theorem mem_holesAll_of_cutAll (hB : ∀ base ∈ B, IsBase base) (hbase : base ∈ B)
    {ts : List TreeSketch} (hts : TreeSketch.CleanAll B ts) :
    ∀ i ∈ (Labelled.labelsAll (cutAll base (TreeSketch.inkAll base ts))).flatten,
      i ∈ TreeSketch.holesAll ts := by
  cases ts with
  | nil => simp [TreeSketch.inkAll, cutAll, Labelled.labelsAll]
  | cons t ts =>
    intro i hi
    rw [TreeSketch.inkAll, cutAll, Labelled.labelsAll_append, List.flatten_append] at hi
    rw [TreeSketch.holesAll, List.mem_append]
    exact (List.mem_append.1 hi).imp (mem_holes_of_cut hB hbase hts.head i)
      (mem_holesAll_of_cutAll hB hbase hts.tail i)

end

/-! ### Scanning with another base -/

theorem length_text {X : Sketch Shard} (hparts : X.weight = X.holes.length) (hbase : IsBase base)
    (hother : IsBase other) :
    (X.text base).length = (X.text other).length ∧ X.holes.length ≤ (X.text base).length := by
  simp only [Sketch.text, String.length_ofList]
  induction X with
  | nil => exact ⟨rfl, le_rfl⟩
  | cons s X ih =>
    have hle := length_holes_le_weight X
    cases s with
    | part p =>
      simp only [weight_cons, Stroke.weight_part, holes_part] at hparts
      omega
    | letter c =>
      obtain ⟨hlength, hholes⟩ := ih (by simpa using hparts)
      simp only [ink_cons, Stroke.ink, List.length_append, holes_letter]
      omega
    | hole k =>
      obtain ⟨hlength, hholes⟩ := ih (by simpa [Nat.add_comm] using hparts)
      simp only [ink_cons, Stroke.ink, List.length_append, holes_hole, Marker.toList_text,
        List.length_cons, hbase.length_eq, hother.length_eq]
      omega

/-- Texts are split alike with all bases. -/
theorem splitText_ink (hB : ∀ base ∈ B, IsBase base) (hbase : base ∈ B) (hother : other ∈ B)
    {X : Sketch Shard} (hX : X.Clean B) (hparts : X.weight = X.holes.length)
    (hsmall : ∀ k ∈ X.holes, k ≤ largest64) {fuel : ℕ} (hfuel : X.holes.length ≤ fuel)
    (inStyle : Bool) (path : Path) (index : ℕ) (places : Places) :
    splitText base inStyle path fuel index places (X.text base) =
      splitText other inStyle path fuel index places (X.text other) := by
  induction fuel generalizing X index places with
  | zero =>
    -- The fuel lasts for all holes, so only letters are left.
    obtain ⟨cs, rfl⟩ := exists_eq_letters (hparts.trans (Nat.le_zero.1 hfuel))
    simp only [splitText, text_letters]
  | succ fuel ih =>
    rw [splitText, splitText]
    rcases hX.find?_cases hB hparts hsmall with ⟨cs, hcs, hnone⟩ | ⟨cs, k, Z, rfl, hfound⟩
    · rw [hnone base hbase, hnone other hother, hcs, text_letters, text_letters]
    · have hZ : Z.Clean B := Sketch.Clean.suffix (X := [.hole k]) hX.suffix
      have hlength : Z.holes.length ≤ fuel := by simpa using hfuel
      have hparts' : Z.weight = Z.holes.length := by simpa [Nat.add_comm] using hparts
      have hrest (index : ℕ) (places : Places) := ih hZ hparts'
        (fun j hj => hsmall j (by simp [hj])) hlength index places
      have hempty : (Z.text base).isEmpty = (Z.text other).isEmpty := by
        rw [Bool.eq_iff_iff, isEmpty_text (hB base hbase), isEmpty_text (hB other hother)]
      simp only [hfound base hbase, hfound other hother, hrest, hempty]

mutual

theorem scan_ink (hB : ∀ base ∈ B, IsBase base) (hbase : base ∈ B) (hother : other ∈ B)
    {t : TreeSketch} (ht : t.Clean B) (hintact : t.Intact) (hsmall : ∀ k ∈ t.holes, k ≤ largest64)
    {inStyle : Bool} {path : Path} {index : ℕ} {places : Places} {found : List Tree × Places}
    (h : scan base inStyle path index places (t.ink base) = .ok found) :
    scan other inStyle path index places (t.ink other) = .ok found := by
  cases t with
  | comment r =>
    -- A hole in a comment would be lost.
    cases r with
    | plain data => exact h
    | torn write => cases hintact
  | text X =>
    obtain ⟨hlength, hholes⟩ := length_text hintact (hB base hbase) (hB other hother)
    rw [TreeSketch.ink, scan] at h ⊢
    rw [← hlength, ← splitText_ink hB hbase hother ht.data hintact hsmall hholes]
    exact h
  | element tag as cs =>
    obtain ⟨htag, hcs⟩ := hintact
    obtain ⟨name, rfl⟩ := exists_eq_letters htag
    obtain ⟨hattributes, hchildren⟩ := List.forall_mem_append.1 hsmall
    have hattributes : ∀ a ∈ as, ∀ k ∈ a.holes, k ≤ largest64 := fun a ha k hk =>
      hattributes k (List.mem_flatMap.2 ⟨a, ha, hk⟩)
    rw [TreeSketch.ink, scan] at h ⊢
    rw [text_letters] at h ⊢
    split at h
    · cases h
    · next rest places₁ hscan =>
      rw [scanAttributes_ink hB ht.attributes hattributes hbase hother hscan]
      dsimp only
      split at h
      · cases h
      · next trees places₂ hscanned =>
        rw [scanAll_ink hB hbase hother ht.children hcs hchildren hscanned]
        exact h

/-- Intact trees that are scanned with one base are scanned alike with another. -/
theorem scanAll_ink (hB : ∀ base ∈ B, IsBase base) (hbase : base ∈ B) (hother : other ∈ B)
    {ts : List TreeSketch} (hts : TreeSketch.CleanAll B ts) (hintact : TreeSketch.IntactAll ts)
    (hsmall : ∀ k ∈ TreeSketch.holesAll ts, k ≤ largest64)
    {inStyle : Bool} {path : Path} {index : ℕ} {places : Places} {found : List Tree × Places}
    (h : scanAll base inStyle path index places (TreeSketch.inkAll base ts) = .ok found) :
    scanAll other inStyle path index places (TreeSketch.inkAll other ts) = .ok found := by
  cases ts with
  | nil => exact h
  | cons t ts =>
    obtain ⟨hhead, htail⟩ := List.forall_mem_append.1 hsmall
    rw [TreeSketch.inkAll, scanAll] at h ⊢
    split at h
    · cases h
    · next pieces places₁ hscan =>
      rw [scan_ink hB hbase hother hts.head hintact.1 hhead hscan]
      dsimp only
      split at h
      · cases h
      · next others places₂ hscanned =>
        rw [scanAll_ink hB hbase hother hts.tail hintact.2 htail hscanned]
        exact h

end

/-! ### Compiling -/

/-- Nothing that is read from the source of a template with one base has a marker of another base in
it: no tag, no name and no value of an attribute, and no text. -/
structure Foreign (base other : String) (segments : List String) : Prop where
  tags : ∀ t ∈ Token.ofMarkup (source other segments), t.Lacks base
  trees : Tree.LacksAll base (Tree.ofMarkup (source other segments))

instance (base other : String) (segments : List String) : Decidable (Foreign base other segments) :=
  decidable_of_iff (_ ∧ _) ⟨fun h => ⟨h.1, h.2⟩, fun h => ⟨h.1, h.2⟩⟩

/-- If the template compiles then the holes of its trees are those between its segments, and none is
lost. -/
theorem intactAll_of_compile {segments : List String} {t : Template}
    (ht : compile base segments = .ok t) {ts : List TreeSketch} (hB : ∀ base ∈ B, IsBase base)
    (hbase : base ∈ B) (hclean : TreeSketch.CleanAll B ts)
    (hink : Tree.ofMarkup (source base segments) = TreeSketch.inkAll base ts)
    (hweight : TreeSketch.weightAll ts ≤ holeCount segments) :
    TreeSketch.IntactAll ts ∧ ∀ k ∈ TreeSketch.holesAll ts, k ≤ largest64 := by
  have hfound : List.range (holeCount segments) ⊆ TreeSketch.holesAll ts := by
    intro i hi
    have hmem := (mem_holes_iff ht).2 (List.mem_range.1 hi)
    rw [cutSource, hink] at hmem
    exact mem_holesAll_of_cutAll hB hbase hclean i hmem
  -- There are no more holes than segments leave, and all of these are found, so each is found once.
  have hsubperm := List.subperm_of_subset List.nodup_range hfound
  have hlength := hsubperm.length_le
  have hle := TreeSketch.length_holesAll_le ts
  rw [List.length_range] at hlength
  refine ⟨TreeSketch.intactAll_of_weightAll_le (hweight.trans hlength), fun k hk => ?_⟩
  have hperm := hsubperm.perm_of_length_le (by rw [List.length_range]; exact hle.trans hweight)
  have hlt := List.mem_range.1 (hperm.mem_iff.2 hk)
  have hcount := holeCount_le ht
  omega

theorem compile_eq_ok_of_foreign {segments : List String} {t : Template}
    (hB : ∀ base ∈ B, IsBase base) (hbase : base ∈ B) (hother : other ∈ B)
    (hfraction : EndsInFraction segments →
      (∀ base ∈ B, CompletesFraction base) ∨ ∀ base ∈ B, ¬ CompletesFraction base)
    (hforeign : ∀ base ∈ B, ∃ other ∈ B, Foreign base other segments)
    (ht : compile base segments = .ok t) : compile other segments = .ok t := by
  obtain ⟨ts, hink, hweight⟩ := exists_trees hB hfraction fun base hbase =>
    (hforeign base hbase).imp fun _ h => ⟨h.1, h.2.tags⟩
  have hclean : TreeSketch.CleanAll B ts := by
    intro base hbase
    obtain ⟨other, hother, h⟩ := hforeign base hbase
    exact ⟨other, hother, hink other hother ▸ h.trees⟩
  obtain ⟨hintact, hsmall⟩ := intactAll_of_compile ht hB hbase hclean (hink base hbase) hweight
  rw [compile, hink base hbase] at ht
  rw [compile, hink other hother]
  split at ht
  · cases ht
  · next hscan =>
    rw [scanAll_ink hB hbase hother hclean hintact hsmall hscan]
    exact ht

/-- Whether a template compiles does not depend on the base, and neither does what it compiles to,
if the two bases complete the same references and nothing that is read looks like a marker of the
other base. -/
theorem compile_eq_ok_iff_of_bases {base other : String} (hbase : IsBase base)
    (hother : IsBase other) {segments : List String}
    (hfraction : EndsInFraction segments → (CompletesFraction base ↔ CompletesFraction other))
    (hforeign : Foreign base other segments) (hforeign' : Foreign other base segments)
    (t : Template) : compile base segments = .ok t ↔ compile other segments = .ok t := by
  have hB : ∀ b ∈ ({base, other} : Set String), IsBase b := by
    rintro b (rfl | rfl)
    · exact hbase
    · exact hother
  have hmem : base ∈ ({base, other} : Set String) := Set.mem_insert base _
  have hmem' : other ∈ ({base, other} : Set String) := Set.mem_insert_of_mem base rfl
  have hfractions : EndsInFraction segments →
      (∀ b ∈ ({base, other} : Set String), CompletesFraction b) ∨
        ∀ b ∈ ({base, other} : Set String), ¬ CompletesFraction b := by
    intro hends
    by_cases hcompletes : CompletesFraction base
    · refine Or.inl ?_
      rintro b (rfl | rfl)
      · exact hcompletes
      · exact (hfraction hends).1 hcompletes
    · refine Or.inr ?_
      rintro b (rfl | rfl)
      · exact hcompletes
      · exact mt (hfraction hends).2 hcompletes
  have hforeigns : ∀ b ∈ ({base, other} : Set String),
      ∃ o ∈ ({base, other} : Set String), Foreign b o segments := by
    rintro b (rfl | rfl)
    · exact ⟨other, hmem', hforeign⟩
    · exact ⟨base, hmem, hforeign'⟩
  exact ⟨compile_eq_ok_of_foreign hB hmem hmem' hfractions hforeigns,
    compile_eq_ok_of_foreign hB hmem' hmem hfractions hforeigns⟩

/-- A list with holes at an attribute value, at an attribute name, after the beginning of the name
of a fraction, and in text. -/
def portions : List String := ["<ul id=", " aa=x ", "><li>&fr", " of ", "</ul>"]

/-- With the one base, the marker that is the name of an attribute comes before the attribute `aa`,
and with the other after it. -/
theorem compile_eq_ok_iff_of_bases_portions :
    ∃ t, compile "a0123456789abcdef" portions = .ok t ∧
      compile "afedcba9876543210" portions = .ok t := by
  have hok : (compile "a0123456789abcdef" portions).isOk = true := by decide +kernel
  cases ht : compile "a0123456789abcdef" portions with
  | error fault => rw [ht] at hok; cases hok
  | ok t =>
    exact ⟨t, rfl, (compile_eq_ok_iff_of_bases (by decide +kernel) (by decide +kernel)
      (by decide +kernel) (by decide +kernel) (by decide +kernel) t).1 ht⟩

/-- Neither of the bases occurs in a segment, and the template compiles only with the second. -/
structure Dependent (base other : String) (segments : List String) : Prop where
  isBase : IsBase base
  isBase_other : IsBase other
  nowhere : ∀ segment ∈ segments, ¬ base.toList <:+: segment.toList ∧
    ¬ other.toList <:+: segment.toList
  refused : (compile base segments).isOk = false
  compiled : (compile other segments).isOk = true

/-- A base can complete a character reference, and a character reference can complete a marker. -/
theorem not_independent_of_base :
    Dependent "ac120000000000000" "a0000000000000000" ["<p>&fr", "</p>"] ∧
      Dependent "a0000000000000000" "a1111111111111111" ["&#97;0000000000000000-0-<p>", "</p>"] :=
  ⟨⟨by decide +kernel, by decide +kernel, by decide +kernel, by decide +kernel, by decide +kernel⟩,
    by decide +kernel, by decide +kernel, by decide +kernel, by decide +kernel, by decide +kernel⟩

end Template

end LiveMarkup
