import LiveMarkup.Proofs.Forest.Addresses
import LiveMarkup.Proofs.Template.Markers
import LiveMarkup.Template.Compile

/-!
# The scan as a cut

Scanning a tree for markers does two things at once: it cuts the tree, and it writes down the paths
of the holes.  `Template.cut` is the first on its own; it labels each node and attribute with the
ordinals of the holes at it.  The addresses of these labels are the paths that the scan records,
each of them once (`Template.scanAll_eq_ok`).
-/

namespace LiveMarkup.Template

variable {base : String} {places places' : Places} {path : Path}

/-! ### Recording -/

/-- Recording `found` turns `places` into `places'`: the holes of `found` are different, free
before, and have their paths afterwards; no other place changes. -/
structure Records (places : Places) (found : List (ℕ × Path)) (places' : Places) : Prop where
  length_eq : places'.length = places.length
  nodup : (found.map Prod.fst).Nodup
  free : ∀ hole ∈ found, places[hole.1]? = some none
  recorded : ∀ hole ∈ found, places'[hole.1]? = some (some hole.2)
  others : ∀ i ∉ found.map Prod.fst, places'[i]? = places[i]?

namespace Records

variable {found found' : List (ℕ × Path)} {places'' : Places}

theorem refl (places : Places) : Records places [] places :=
  ⟨rfl, List.nodup_nil, by simp, by simp, fun _ _ => rfl⟩

theorem trans (h : Records places found places') (h' : Records places' found' places'') :
    Records places (found ++ found') places'' := by
  have hdisjoint : ∀ hole ∈ found', hole.1 ∉ found.map Prod.fst := by
    rintro hole hm hin
    obtain ⟨other, ho, heq⟩ := List.mem_map.1 hin
    have hfree := h'.free hole hm
    rw [← heq, h.recorded other ho] at hfree
    cases hfree
  refine ⟨h'.length_eq.trans h.length_eq, ?_, ?_, ?_, ?_⟩
  · rw [List.map_append, List.nodup_append]
    refine ⟨h.nodup, h'.nodup, ?_⟩
    rintro i hi j hj rfl
    obtain ⟨hole, hm, rfl⟩ := List.mem_map.1 hj
    exact hdisjoint hole hm hi
  · intro hole hm
    rcases List.mem_append.1 hm with hm | hm
    · exact h.free hole hm
    · rw [← h.others hole.1 (hdisjoint hole hm)]
      exact h'.free hole hm
  · intro hole hm
    rcases List.mem_append.1 hm with hm | hm
    · rw [h'.others hole.1 fun hin => ?_]
      · exact h.recorded hole hm
      · obtain ⟨other, ho, heq⟩ := List.mem_map.1 hin
        exact hdisjoint other ho (heq ▸ List.mem_map_of_mem hm)
    · exact h'.recorded hole hm
  · intro i hi
    rw [List.map_append, List.mem_append, not_or] at hi
    rw [h'.others i hi.2, h.others i hi.1]

theorem perm (h : Records places found places') (hp : found.Perm found') :
    Records places found' places' :=
  ⟨h.length_eq, (hp.map Prod.fst).nodup_iff.1 h.nodup, fun s hs => h.free s (hp.mem_iff.2 hs),
    fun s hs => h.recorded s (hp.mem_iff.2 hs), fun i hi => h.others i fun hin =>
      hi ((hp.map Prod.fst).mem_iff.1 hin)⟩

end Records

theorem records_of_record {i : ℕ} (h : record places i path = .ok places') :
    Records places [(i, path)] places' := by
  unfold record at h
  split at h
  · cases h
  · cases h
  · next hfree =>
    obtain rfl := Except.ok.inj h
    have hlt : i < places.length := (List.getElem?_eq_some_iff.1 hfree).1
    refine ⟨by simp, by simp, by simpa using hfree, by simp [hlt], fun j hj => ?_⟩
    have hne : i ≠ j := fun e => hj (by simp [e])
    exact List.getElem?_set_ne hne

/-- What is recorded first finds its place free. -/
theorem Records.exists_record {i : ℕ} {found : List (ℕ × Path)}
    (h : Records places ((i, path) :: found) places') :
    ∃ places₁, record places i path = .ok places₁ ∧ Records places₁ found places' := by
  have hfree : places[i]? = some none := h.free (i, path) List.mem_cons_self
  have hrecord : record places i path = .ok (places.set i (some path)) := by
    rw [record, hfree]
  obtain ⟨hi, hnodup⟩ := List.nodup_cons.1 h.nodup
  refine ⟨_, hrecord, ⟨by rw [h.length_eq, List.length_set], hnodup, fun hole hhole => ?_,
    fun hole hhole => h.recorded hole (List.mem_cons_of_mem _ hhole), fun j hj => ?_⟩⟩
  · have hne : i ≠ hole.1 := fun heq => hi (List.mem_map.2 ⟨hole, hhole, heq.symm⟩)
    rw [List.getElem?_set_ne hne]
    exact h.free hole (List.mem_cons_of_mem _ hhole)
  · by_cases hij : i = j
    · subst hij
      rw [h.recorded (i, path) List.mem_cons_self,
        List.getElem?_set_self (List.getElem?_eq_some_iff.1 hfree).1]
    · rw [List.getElem?_set_ne hij]
      exact h.others j fun hmem => (List.mem_cons.1 hmem).elim (fun e => hij e.symm) hj

theorem Records.eq_of_nil (h : Records places [] places') : places' = places :=
  List.ext_getElem? fun i => h.others i (by simp)

/-! ### Cutting -/

/-- The pieces of a text: at most `fuel` markers become empty comments with their ordinals. -/
def cutText (base : String) : ℕ → String → List (Labelled (List ℕ))
  | 0, data => [.text [] data]
  | fuel + 1, data =>
    match Marker.find? base data with
    | none => [.text [] data]
    | some m =>
      (if m.before.isEmpty then [] else [.text [] m.before]) ++ .comment [m.ordinal] "" ::
        (if m.after.isEmpty then [] else cutText base fuel m.after)

/-- The ordinals of the markers that are names of attributes. -/
def nameHoles (base : String) (as : List Attribute) : List ℕ :=
  as.filterMap fun a => (Marker.find? base a.name).map Marker.ordinal

/-- The attribute that remains of an attribute, with the ordinal of the marker that was its value.
-/
def cutAttribute (base : String) (a : Attribute) : Option (List ℕ × Attribute) :=
  match Marker.find? base a.name with
  | some _ => none
  | none =>
    match Marker.find? base a.value with
    | some m => some ([m.ordinal], ⟨a.name, ""⟩)
    | none => some ([], a)

mutual

/-- The trees that a tree becomes, labelled with the ordinals of the holes. -/
def cut (base : String) : Tree → List (Labelled (List ℕ))
  | .element tag as cs =>
    [.element (nameHoles base as) tag (as.filterMap (cutAttribute base)) (cutAll base cs)]
  | .text data => cutText base data.length data
  | .comment data => [.comment [] data]

/-- The trees that several trees become. -/
def cutAll (base : String) : List Tree → List (Labelled (List ℕ))
  | [] => []
  | t :: ts => cut base t ++ cutAll base ts

end

/-! ### The holes of a cut -/

/-- The holes at addresses below `path`, each with its path. -/
def holesOf (path : Path) (addresses : List (List ℕ × Path)) : List (ℕ × Path) :=
  addresses.flatMap fun a => a.1.map fun i => (i, path ++ a.2)

/-- The holes of siblings below `path`, the first of them at place `index`. -/
def holesAt (path : Path) (index : ℕ) (Ls : List (Labelled (List ℕ))) : List (ℕ × Path) :=
  holesOf path (Labelled.addressesAll index Ls)

theorem holesAt_append (path : Path) (index : ℕ) (Ls Ms : List (Labelled (List ℕ))) :
    holesAt path index (Ls ++ Ms) =
      holesAt path index Ls ++ holesAt path (index + Ls.length) Ms := by
  rw [holesAt, Labelled.addressesAll_append, holesOf, List.flatMap_append]
  rfl

theorem holesAt_cons (path : Path) (index : ℕ) (L : Labelled (List ℕ))
    (Ls : List (Labelled (List ℕ))) :
    holesAt path index (L :: Ls) = holesAt path index [L] ++ holesAt path (index + 1) Ls :=
  holesAt_append path index [L] Ls

theorem holesOf_cons_path (path : Path) (step : PathStep) (addresses : List (List ℕ × Path)) :
    holesOf path (addresses.map fun a => (a.1, step :: a.2)) =
      holesOf (path ++ [step]) addresses := by
  simp only [holesOf, List.flatMap_map, List.append_assoc, List.singleton_append]

theorem holesAt_singleton (path : Path) (index : ℕ) (L : Labelled (List ℕ)) :
    holesAt path index [L] = holesOf (path ++ [.child index]) L.addresses := by
  rw [holesAt, Labelled.addressesAll, Labelled.addressesAll, List.append_nil, holesOf_cons_path]

theorem holesAt_text (path : Path) (index : ℕ) (s : String) :
    holesAt path index [.text [] s] = [] := by
  rw [holesAt_singleton]
  rfl

theorem holesAt_comment (path : Path) (index : ℕ) (l : List ℕ) (s : String) :
    holesAt path index [.comment l s] = l.map (·, path ++ [.child index]) := by
  rw [holesAt_singleton]
  simp [Labelled.addresses, holesOf]

/-- The holes at the names and values of the attributes of the element at `path`. -/
def attributeHoles (base : String) (path : Path) (as : List Attribute) : List (ℕ × Path) :=
  (nameHoles base as).map (·, path) ++
    (as.filterMap (cutAttribute base)).flatMap fun a => a.1.map (·, path ++ [.attr a.2.name])

theorem holesAt_element (path : Path) (index : ℕ) (tag : String) (as : List Attribute)
    (cs : List Tree) :
    holesAt path index (cut base (.element tag as cs)) =
      attributeHoles base (path ++ [.child index]) as ++
        holesAt (path ++ [.child index]) 0 (cutAll base cs) := by
  rw [cut, holesAt_singleton, Labelled.addresses, holesOf, List.cons_append, List.flatMap_cons,
    List.flatMap_append, List.flatMap_map, attributeHoles, List.append_nil]
  exact (List.append_assoc _ _ _).symm

/-! ### The holes at attributes -/

section Attribute

variable {a : Attribute} {m : Marker}

theorem cutAttribute_of_name (hname : Marker.find? base a.name = some m) :
    cutAttribute base a = none := by
  simp only [cutAttribute, hname]

theorem cutAttribute_of_none (hname : Marker.find? base a.name = none)
    (hvalue : Marker.find? base a.value = none) : cutAttribute base a = some ([], a) := by
  simp only [cutAttribute, hname, hvalue]

theorem cutAttribute_of_value (hname : Marker.find? base a.name = none)
    (hvalue : Marker.find? base a.value = some m) :
    cutAttribute base a = some ([m.ordinal], ⟨a.name, ""⟩) := by
  simp only [cutAttribute, hname, hvalue]

theorem nameHoles_cons_of_none (hname : Marker.find? base a.name = none) (as : List Attribute) :
    nameHoles base (a :: as) = nameHoles base as :=
  List.filterMap_cons_none (by rw [hname]; rfl)

theorem attributeHoles_cons_of_name (hname : Marker.find? base a.name = some m)
    {as : List Attribute} :
    attributeHoles base path (a :: as) = (m.ordinal, path) :: attributeHoles base path as := by
  rw [attributeHoles, List.filterMap_cons_none (cutAttribute_of_name hname), nameHoles,
    List.filterMap_cons_some (by rw [hname]; rfl)]
  rfl

theorem attributeHoles_cons_of_none (hname : Marker.find? base a.name = none)
    (hvalue : Marker.find? base a.value = none) {as : List Attribute} :
    attributeHoles base path (a :: as) = attributeHoles base path as := by
  rw [attributeHoles, nameHoles_cons_of_none hname,
    List.filterMap_cons_some (cutAttribute_of_none hname hvalue)]
  rfl

/-- The hole at a value comes after the holes at the names of later attributes. -/
theorem attributeHoles_cons_of_value (hname : Marker.find? base a.name = none)
    (hvalue : Marker.find? base a.value = some m) {as : List Attribute} :
    (attributeHoles base path (a :: as)).Perm
      ((m.ordinal, path ++ [.attr a.name]) :: attributeHoles base path as) := by
  rw [attributeHoles, nameHoles_cons_of_none hname,
    List.filterMap_cons_some (cutAttribute_of_value hname hvalue), List.flatMap_cons,
    List.map_singleton, List.singleton_append]
  exact List.perm_middle

end Attribute

/-! ### The text before a marker -/

theorem trees_before (s : String) :
    Labelled.trees (if s.isEmpty then [] else [Labelled.text ([] : List ℕ) s]) =
      if s.isEmpty then [] else [Tree.text s] := by
  split_ifs <;> rfl

theorem length_before (s : String) :
    (if s.isEmpty then [] else [Tree.text s]).length =
      (if s.isEmpty then [] else [Labelled.text ([] : List ℕ) s]).length := by
  split_ifs <;> rfl

theorem holesAt_before (path : Path) (index : ℕ) (s : String) :
    holesAt path index (if s.isEmpty then [] else [.text [] s]) = [] := by
  split_ifs
  · rfl
  · exact holesAt_text path index s

/-! ### The scan -/

/-- What a scan that is not refused finds in the first of the attributes: a marker that is its name,
no marker, or a marker that is its value. -/
theorem scanAttributes_cons_eq_ok {element : String} {a : Attribute} {as as' : List Attribute}
    (h : scanAttributes base element path places (a :: as) = .ok (as', places')) :
    (∃ m places₁, Marker.find? base a.name = some m ∧ m.isWhole = true ∧
      Marker.find? base a.value = none ∧ record places m.ordinal path = .ok places₁ ∧
      scanAttributes base element path places₁ as = .ok (as', places')) ∨
    (∃ bs, Marker.find? base a.name = none ∧ Marker.find? base a.value = none ∧
      scanAttributes base element path places as = .ok (bs, places') ∧ as' = a :: bs) ∨
    ∃ m places₁ bs, Marker.find? base a.name = none ∧ Marker.find? base a.value = some m ∧
      m.isWhole = true ∧ record places m.ordinal (path ++ [.attr a.name]) = .ok places₁ ∧
      scanAttributes base element path places₁ as = .ok (bs, places') ∧
      as' = ⟨a.name, ""⟩ :: bs := by
  rw [scanAttributes] at h
  cases hname : Marker.find? base a.name with
  | some m =>
    simp only [hname] at h
    split_ifs at h with hwhole hvalue
    split at h
    · cases h
    · next places₁ hrecord =>
      exact Or.inl ⟨m, places₁, rfl, by simpa using hwhole, by simpa using hvalue, hrecord, h⟩
  | none =>
    simp only [hname] at h
    cases hvalue : Marker.find? base a.value with
    | none =>
      simp only [hvalue] at h
      split at h
      · cases h
      · next bs places₁ hscan =>
        obtain ⟨rfl, rfl⟩ := Prod.mk.inj (Except.ok.inj h)
        exact Or.inr (Or.inl ⟨bs, rfl, rfl, hscan, rfl⟩)
    | some m =>
      simp only [hvalue] at h
      by_cases hwhole : m.isWhole = true
      · cases hrecord : record places m.ordinal (path ++ [.attr a.name]) with
        | error fault =>
          rw [if_neg (by simpa using hwhole), hrecord] at h
          cases h
        | ok places₁ =>
          rw [if_neg (by simpa using hwhole), hrecord] at h
          simp only [Except.map] at h
          split at h
          · cases h
          · next bs places₂ hscan =>
            obtain ⟨rfl, rfl⟩ := Prod.mk.inj (Except.ok.inj h)
            exact Or.inr (Or.inr ⟨m, places₁, bs, rfl, rfl, hwhole, hrecord, hscan, rfl⟩)
      · rw [if_pos (by simpa using hwhole)] at h
        cases h

theorem scanAttributes_eq_ok {element : String} {as as' : List Attribute}
    (h : scanAttributes base element path places as = .ok (as', places')) :
    as' = (as.filterMap (cutAttribute base)).map Prod.snd ∧
      Records places (attributeHoles base path as) places' := by
  induction as generalizing places as' with
  | nil =>
    rw [scanAttributes] at h
    obtain ⟨rfl, rfl⟩ := Prod.mk.inj (Except.ok.inj h)
    exact ⟨rfl, .refl places⟩
  | cons a as ih =>
    rcases scanAttributes_cons_eq_ok h with ⟨m, places₁, hname, -, -, hrecord, hscan⟩ |
      ⟨bs, hname, hvalue, hscan, rfl⟩ | ⟨m, places₁, bs, hname, hvalue, -, hrecord, hscan, rfl⟩
    · obtain ⟨rfl, hrest⟩ := ih hscan
      rw [attributeHoles_cons_of_name hname, List.filterMap_cons_none (cutAttribute_of_name hname)]
      exact ⟨rfl, (records_of_record hrecord).trans hrest⟩
    · obtain ⟨rfl, hrest⟩ := ih hscan
      rw [attributeHoles_cons_of_none hname hvalue,
        List.filterMap_cons_some (cutAttribute_of_none hname hvalue)]
      exact ⟨rfl, hrest⟩
    · obtain ⟨rfl, hrest⟩ := ih hscan
      rw [List.filterMap_cons_some (cutAttribute_of_value hname hvalue)]
      exact ⟨rfl, ((records_of_record hrecord).trans hrest).perm
        (attributeHoles_cons_of_value hname hvalue).symm⟩

/-- A scan does not refuse the attribute: a marker in its name is all of the name, and then there is
none in its value; otherwise one in the value is all of the value. -/
def Accepted (base : String) (a : Attribute) : Prop :=
  (∀ m, Marker.find? base a.name = some m → m.isWhole = true ∧ Marker.find? base a.value = none) ∧
    (Marker.find? base a.name = none →
      ∀ m, Marker.find? base a.value = some m → m.isWhole = true)

theorem accepted_of_scanAttributes {element : String} {as as' : List Attribute}
    (h : scanAttributes base element path places as = .ok (as', places')) :
    ∀ a ∈ as, Accepted base a := by
  induction as generalizing places as' with
  | nil => simp
  | cons a as ih =>
    rw [List.forall_mem_cons, Accepted]
    rcases scanAttributes_cons_eq_ok h with ⟨m, places₁, hname, hwhole, hvalue, -, hscan⟩ |
      ⟨bs, hname, hvalue, hscan, -⟩ | ⟨m, places₁, bs, hname, hvalue, hwhole, -, hscan, -⟩
    · exact ⟨by simpa [hname, hvalue] using hwhole, ih hscan⟩
    · exact ⟨by simp [hname, hvalue], ih hscan⟩
    · exact ⟨by simpa [hname, hvalue] using hwhole, ih hscan⟩

/-- Attributes that are not refused one by one are scanned if their holes can be recorded. -/
theorem scanAttributes_of_records (element : String) {as : List Attribute}
    (haccepted : ∀ a ∈ as, Accepted base a)
    (hrecords : Records places (attributeHoles base path as) places') :
    scanAttributes base element path places as =
      .ok ((as.filterMap (cutAttribute base)).map Prod.snd, places') := by
  induction as generalizing places with
  | nil => rw [hrecords.eq_of_nil]; rfl
  | cons a as ih =>
    obtain ⟨⟨hnamed, hvalued⟩, has⟩ := List.forall_mem_cons.1 haccepted
    rw [scanAttributes]
    cases hname : Marker.find? base a.name with
    | some m =>
      obtain ⟨hwhole, hvalue⟩ := hnamed m hname
      rw [attributeHoles_cons_of_name hname] at hrecords
      obtain ⟨places₁, hrecord, hrest⟩ := hrecords.exists_record
      rw [List.filterMap_cons_none (cutAttribute_of_name hname), ← ih has hrest]
      simp [hwhole, hvalue, hrecord]
    | none =>
      cases hvalue : Marker.find? base a.value with
      | none =>
        rw [attributeHoles_cons_of_none hname hvalue] at hrecords
        rw [List.filterMap_cons_some (cutAttribute_of_none hname hvalue)]
        simp [ih has hrecords]
      | some m =>
        obtain ⟨places₁, hrecord, hrest⟩ :=
          (hrecords.perm (attributeHoles_cons_of_value hname hvalue)).exists_record
        rw [List.filterMap_cons_some (cutAttribute_of_value hname hvalue)]
        simp [hvalued hname m hvalue, hrecord, ih has hrest, Except.map]

theorem splitText_eq_ok {inStyle : Bool} {fuel index : ℕ} {data : String} {pieces : List Tree}
    (h : splitText base inStyle path fuel index places data = .ok (pieces, places')) :
    pieces = Labelled.trees (cutText base fuel data) ∧
      Records places (holesAt path index (cutText base fuel data)) places' := by
  induction fuel generalizing index places data pieces with
  | zero =>
    rw [splitText] at h
    obtain ⟨rfl, rfl⟩ := Prod.mk.inj (Except.ok.inj h)
    rw [cutText, holesAt_text]
    exact ⟨rfl, .refl places⟩
  | succ fuel ih =>
    rw [splitText] at h
    cases hfound : Marker.find? base data with
    | none =>
      have hcut : cutText base (fuel + 1) data = [.text [] data] := by rw [cutText, hfound]
      rw [hfound] at h
      obtain ⟨rfl, rfl⟩ := Prod.mk.inj (Except.ok.inj h)
      rw [hcut, holesAt_text]
      exact ⟨rfl, .refl places⟩
    | some m =>
      rw [hfound] at h
      rw [cutText, hfound]
      dsimp only at h ⊢
      by_cases hstyle : inStyle = true
      · rw [if_pos hstyle] at h
        cases h
      -- What stands before the marker has no holes and takes up its place.
      rw [if_neg hstyle, length_before, ← trees_before] at h
      rw [Labelled.trees_append, holesAt_append, holesAt_before, List.nil_append]
      split at h
      · cases h
      · next places₁ hrecord =>
        have hone := records_of_record hrecord
        by_cases hafter : m.after.isEmpty = true
        · rw [if_pos hafter] at h ⊢
          obtain ⟨rfl, rfl⟩ := Prod.mk.inj (Except.ok.inj h)
          rw [holesAt_comment]
          exact ⟨rfl, hone⟩
        · rw [if_neg hafter] at h ⊢
          split at h
          · cases h
          · next rest places₂ hsplit =>
            obtain ⟨rfl, rfl⟩ := Prod.mk.inj (Except.ok.inj h)
            obtain ⟨rfl, hrest⟩ := ih hsplit
            refine ⟨rfl, ?_⟩
            rw [holesAt_cons, holesAt_comment]
            exact hone.trans hrest

mutual

theorem scan_eq_ok {base : String} {path : Path} {places places' : Places} {inStyle : Bool}
    {index : ℕ} {t : Tree} {pieces : List Tree}
    (h : scan base inStyle path index places t = .ok (pieces, places')) :
    pieces = Labelled.trees (cut base t) ∧
      Records places (holesAt path index (cut base t)) places' := by
  cases t with
  | text data =>
    rw [scan] at h
    exact splitText_eq_ok h
  | comment data =>
    rw [scan] at h
    obtain ⟨rfl, rfl⟩ := Prod.mk.inj (Except.ok.inj h)
    rw [cut, holesAt_comment]
    exact ⟨rfl, .refl places⟩
  | element tag as cs =>
    rw [scan] at h
    split at h
    · cases h
    · next as' places₁ has =>
      split at h
      · cases h
      · next cs' places₂ hcs =>
        obtain ⟨rfl, rfl⟩ := Prod.mk.inj (Except.ok.inj h)
        obtain ⟨rfl, hattributes⟩ := scanAttributes_eq_ok has
        obtain ⟨rfl, hchildren⟩ := scanAll_eq_ok hcs
        rw [holesAt_element]
        exact ⟨rfl, hattributes.trans hchildren⟩

/-- A scan cuts the trees and records the paths of their holes. -/
theorem scanAll_eq_ok {base : String} {path : Path} {places places' : Places} {inStyle : Bool}
    {index : ℕ} {ts pieces : List Tree}
    (h : scanAll base inStyle path index places ts = .ok (pieces, places')) :
    pieces = Labelled.trees (cutAll base ts) ∧
      Records places (holesAt path index (cutAll base ts)) places' := by
  cases ts with
  | nil =>
    rw [scanAll] at h
    obtain ⟨rfl, rfl⟩ := Prod.mk.inj (Except.ok.inj h)
    exact ⟨rfl, .refl places⟩
  | cons t ts =>
    rw [scanAll] at h
    split at h
    · cases h
    · next first places₁ ht =>
      split at h
      · cases h
      · next others places₂ hts =>
        obtain ⟨rfl, rfl⟩ := Prod.mk.inj (Except.ok.inj h)
        obtain ⟨rfl, hfirst⟩ := scan_eq_ok ht
        rw [Labelled.trees_eq_map, List.length_map] at hts
        obtain ⟨rfl, hrest⟩ := scanAll_eq_ok hts
        rw [cutAll, holesAt_append, Labelled.trees_append]
        exact ⟨rfl, hfirst.trans hrest⟩

end

end LiveMarkup.Template
