import LiveMarkup.Proofs.Markup.Plain
import LiveMarkup.Proofs.Template.Marked

/-!
# Texts in which the base is left open

A sketch is a text with holes: inked with a base, every hole becomes its marker.  A text may also
have shards in it, parts of a marker whose beginning has been read as something else.  Where a
sketch that is inked with a base begins with a marker of that base, the sketch begins with a hole,
unless its letters spell the marker, and then it is there with every base (`Sketch.begins?_ink`).
So the first marker that is found is the first hole (`Sketch.first?_ink`), and two sketches without
shards are inked alike only if they are the same (`Sketch.eq_of_ink_eq`).
-/

namespace LiveMarkup

/-! ### Bases -/

/-- The digits of bases. -/
def hexDigits : List Char :=
  ['0', '1', '2', '3', '4', '5', '6', '7', '8', '9', 'a', 'b', 'c', 'd', 'e', 'f']

/-- The form of a base: the letter `a` and sixteen digits. -/
structure IsBase (base : String) : Prop where
  head_eq : base.toList.head? = some 'a'
  length_eq : base.toList.length = 17
  isDigit : ∀ c ∈ base.toList, c ∈ hexDigits

-- The characters of the base are gone through, and not all characters there are.
instance (base : String) : Decidable (IsBase base) :=
  have : Decidable (∀ c ∈ base.toList, c ∈ hexDigits) := List.decidableBAll _ base.toList
  decidable_of_iff (_ ∧ _ ∧ _) ⟨fun h => ⟨h.1, h.2.1, h.2.2⟩, fun h => ⟨h.1, h.2, h.3⟩⟩

theorem isNameChar_of_mem_hexDigits : ∀ c ∈ hexDigits, isNameChar c = true :=
  List.all_eq_true.1 (by decide)

theorem dash_not_mem_hexDigits : '-' ∉ hexDigits := by decide

namespace IsBase

variable {base : String} (hb : IsBase base)

include hb

theorem exists_cons : ∃ cs, base.toList = 'a' :: cs ∧ cs.length = 16 := by
  obtain ⟨cs, hcs⟩ := List.head?_eq_some_iff.1 hb.head_eq
  refine ⟨cs, hcs, ?_⟩
  have hlength := hb.length_eq
  rw [hcs, List.length_cons] at hlength
  omega

theorem dash_not_mem : '-' ∉ base.toList := fun h => dash_not_mem_hexDigits (hb.isDigit _ h)

end IsBase

theorem isNameChar_of_isDigit {c : Char} (h : c.isDigit = true) : isNameChar c = true := by
  simp [isNameChar, h]

/-- All characters of a marker may stand in a plain name. -/
theorem IsBase.isNameChar_of_mem_text {base : String} (hb : IsBase base) (k : ℕ) :
    ∀ c ∈ (Marker.text base k).toList, isNameChar c = true := by
  intro c hc
  rw [Marker.toList_text, List.mem_append, List.mem_cons, List.mem_append,
    List.mem_singleton] at hc
  rcases hc with hc | rfl | hc | rfl
  · exact isNameChar_of_mem_hexDigits c (hb.isDigit c hc)
  · decide
  · exact isNameChar_of_isDigit (Nat.isDigit_of_mem_toDigits (by decide) le_rfl hc)
  · decide

/-- No marker of the base, whatever its ordinal, begins anywhere in the text. -/
def Marker.Absent (base : String) (cs : List Char) : Prop := first? base.toList [] cs = none

instance (base : String) (cs : List Char) : Decidable (Marker.Absent base cs) :=
  inferInstanceAs (Decidable (_ = _))

theorem Marker.Absent.suffix {base : String} {u cs : List Char} (h : Absent base (u ++ cs)) :
    Absent base cs :=
  first?_eq_none_iff.2 fun v w hvw => first?_eq_none_iff.1 h (u ++ v) w (by simp [hvw])

/-! ### Sketches -/

/-- A letter of a text, the marker of a hole, or a part of one. -/
inductive Stroke (σ : Type) where
  | letter (c : Char)
  | hole (ordinal : ℕ)
  | part (p : σ)
  deriving DecidableEq

/-- A stroke that is no letter weighs one. -/
def Stroke.weight {σ : Type} : Stroke σ → ℕ
  | letter _ => 0
  | hole _ => 1
  | part _ => 1

@[simp] theorem Stroke.weight_letter {σ : Type} (c : Char) :
    (letter c : Stroke σ).weight = 0 := rfl

@[simp] theorem Stroke.weight_hole {σ : Type} (k : ℕ) : (hole k : Stroke σ).weight = 1 := rfl

@[simp] theorem Stroke.weight_part {σ : Type} (p : σ) : (part p).weight = 1 := rfl

/-- The parts of markers that a text may have.  Such a part begins with a character that is in no
marker, and nothing in it begins like a marker, whatever follows. -/
class Part (σ : Type) where
  write : String → σ → List Char
  odd : ∀ {base : String}, IsBase base → ∀ p, ∃ c cs, write base p = c :: cs ∧ isNameChar c = false
  bare : ∀ {base : String}, IsBase base → ∀ p u v rest, write base p = u ++ v → v ≠ [] →
    Marker.begins? base.toList (v ++ rest) = none

/-- Nothing is a part of a marker in a sketch without shards. -/
instance : Part Empty where
  write _ p := p.elim
  odd _ p := p.elim
  bare _ p := p.elim

/-- A text in which the base is left open. -/
abbrev Sketch (σ : Type) := List (Stroke σ)

namespace Sketch

section Holes

variable {σ : Type}

/-- A sketch of letters. -/
def letters (cs : List Char) : Sketch σ := cs.map .letter

/-- The ordinals of the holes. -/
def holes (X : Sketch σ) : List ℕ := X.filterMap fun
  | .hole k => some k
  | _ => none

/-- How many strokes are no letters. -/
def weight : Sketch σ → ℕ
  | [] => 0
  | s :: X => s.weight + weight X

@[simp] theorem weight_nil : weight ([] : Sketch σ) = 0 := rfl

@[simp] theorem weight_cons (s : Stroke σ) (X : Sketch σ) :
    weight (s :: X) = s.weight + X.weight := rfl

@[simp] theorem weight_append (X Y : Sketch σ) : (X ++ Y).weight = X.weight + Y.weight := by
  induction X with
  | nil => exact (Nat.zero_add _).symm
  | cons s X ih => rw [List.cons_append, weight_cons, weight_cons, ih, Nat.add_assoc]

@[simp] theorem weight_letters (cs : List Char) : (letters cs : Sketch σ).weight = 0 := by
  induction cs with
  | nil => rfl
  | cons c cs ih => exact (Nat.zero_add _).trans ih

@[simp] theorem holes_nil : holes ([] : Sketch σ) = [] := rfl

@[simp] theorem holes_letter (c : Char) (X : Sketch σ) : holes (.letter c :: X) = X.holes := rfl

@[simp] theorem holes_hole (k : ℕ) (X : Sketch σ) : holes (.hole k :: X) = k :: X.holes := rfl

@[simp] theorem holes_part (p : σ) (X : Sketch σ) : holes (.part p :: X) = X.holes := rfl

@[simp] theorem holes_append (X Y : Sketch σ) : (X ++ Y).holes = X.holes ++ Y.holes :=
  List.filterMap_append

@[simp] theorem holes_letters (cs : List Char) : (letters cs : Sketch σ).holes = [] := by
  induction cs with
  | nil => rfl
  | cons c cs ih => exact ih

/-- The letters that begin a sketch, and what follows them. -/
theorem exists_letters (X : Sketch σ) :
    ∃ (cs : List Char) (Y : Sketch σ), X = letters cs ++ Y ∧
      (Y = [] ∨ (∃ k Z, Y = .hole k :: Z) ∨ ∃ p Z, Y = .part p :: Z) := by
  induction X with
  | nil => exact ⟨[], [], rfl, Or.inl rfl⟩
  | cons s X ih =>
    cases s with
    | letter c =>
      obtain ⟨cs, Y, rfl, hY⟩ := ih
      exact ⟨c :: cs, Y, rfl, hY⟩
    | hole k => exact ⟨[], _, rfl, Or.inr (Or.inl ⟨k, X, rfl⟩)⟩
    | part p => exact ⟨[], _, rfl, Or.inr (Or.inr ⟨p, X, rfl⟩)⟩

/-- Every hole weighs something. -/
theorem length_holes_le_weight (X : Sketch σ) : X.holes.length ≤ X.weight := by
  induction X with
  | nil => exact le_rfl
  | cons s X ih => cases s <;> simp <;> omega

/-- What has no weight has only letters. -/
theorem exists_eq_letters {X : Sketch σ} (h : X.weight = 0) : ∃ cs, X = letters cs := by
  obtain ⟨cs, Y, rfl, rfl | ⟨k, Z, rfl⟩ | ⟨p, Z, rfl⟩⟩ := exists_letters X
  · exact ⟨cs, List.append_nil _⟩
  · simp at h
  · simp at h

/-- What stands before the first hole, and what follows it. -/
theorem holes_cases (X : Sketch σ) :
    X.holes = [] ∨
      ∃ (Y : Sketch σ) (k : ℕ) (Z : Sketch σ), X = Y ++ .hole k :: Z ∧ Y.holes = [] := by
  induction X with
  | nil => exact Or.inl rfl
  | cons s X ih =>
    cases s with
    | hole k => exact Or.inr ⟨[], k, X, rfl, rfl⟩
    | letter c =>
      rcases ih with h | ⟨Y, k, Z, rfl, hY⟩
      · exact Or.inl h
      · exact Or.inr ⟨.letter c :: Y, k, Z, rfl, hY⟩
    | part p =>
      rcases ih with h | ⟨Y, k, Z, rfl, hY⟩
      · exact Or.inl h
      · exact Or.inr ⟨.part p :: Y, k, Z, rfl, hY⟩

end Holes

end Sketch

section Ink

variable {σ : Type} [Part σ]

/-- A stroke that is inked with a base. -/
def Stroke.ink (base : String) : Stroke σ → List Char
  | letter c => [c]
  | hole k => (Marker.text base k).toList
  | part p => Part.write base p

namespace Sketch

/-- A sketch that is inked with a base. -/
def ink (base : String) (X : Sketch σ) : List Char := X.flatMap (Stroke.ink base)

/-- The text of a sketch. -/
def text (base : String) (X : Sketch σ) : String := String.ofList (X.ink base)

variable {base other : String} {X Y Z : Sketch σ} {k : ℕ} {cs before : List Char}

@[simp] theorem ink_nil : ink base ([] : Sketch σ) = [] := rfl

@[simp] theorem ink_cons (s : Stroke σ) (X : Sketch σ) :
    ink base (s :: X) = s.ink base ++ ink base X := rfl

@[simp] theorem ink_append (X Y : Sketch σ) : ink base (X ++ Y) = X.ink base ++ Y.ink base :=
  List.flatMap_append

@[simp] theorem ink_letters (cs : List Char) : ink base (letters cs : Sketch σ) = cs := by
  simp [ink, letters, List.flatMap_map, Stroke.ink]

@[simp] theorem toList_sketchText (base : String) (X : Sketch σ) :
    (X.text base).toList = X.ink base :=
  String.toList_ofList

@[simp] theorem text_letters (base : String) (cs : List Char) :
    text base (letters cs : Sketch σ) = String.ofList cs := by
  rw [text, ink_letters]

theorem ink_stroke_ne_nil (hb : IsBase base) (s : Stroke σ) : s.ink base ≠ [] := by
  cases s with
  | letter c => exact List.cons_ne_nil c []
  | hole k => exact Marker.text_ne_nil
  | part p =>
    obtain ⟨c, cs, hp, -⟩ := Part.odd hb p
    rw [Stroke.ink, hp]
    exact List.cons_ne_nil c cs

theorem ink_eq_nil_iff (hb : IsBase base) : X.ink base = [] ↔ X = [] := by
  cases X with
  | nil => exact iff_of_true rfl rfl
  | cons s X => simp [ink_stroke_ne_nil hb]

theorem isEmpty_text (hb : IsBase base) : (X.text base).isEmpty = true ↔ X = [] := by
  rw [String.isEmpty_iff, ← String.toList_eq_nil_iff, toList_sketchText, ink_eq_nil_iff hb]

/-! ### Where markers begin -/

/-- A marker that does not stand in the letters that begin a sketch takes up where they end. -/
theorem eq_nil_of_window (hb : IsBase base) {v d rest : List Char}
    (hd : ∀ c ∈ d, c.isDigit = true) (hv : v ≠ [])
    (hwindow : base.toList ++ '-' :: (d ++ ['-']) = cs ++ v)
    (hbegin : v <+: (Marker.text base k).toList ++ rest) : cs = [] := by
  obtain ⟨bs, hbase, -⟩ := hb.exists_cons
  rw [Marker.toList_text, List.append_assoc] at hbegin
  have hhead : v.head? = some 'a' := by
    obtain ⟨w, hw⟩ := hbegin
    rw [hbase] at hw
    cases v with
    | nil => exact absurd rfl hv
    | cons c v => exact congrArg some (List.cons.inj hw).1
  rcases List.append_eq_append_iff.1 hwindow with ⟨u, rfl, hu⟩ | ⟨u, hcs, hu⟩
  · -- After the base, the window has only digits and dashes.
    have hmem : 'a' ∈ '-' :: (d ++ ['-']) := by
      rw [hu]
      exact List.mem_append_right u (List.mem_of_mem_head? hhead)
    simp only [List.mem_cons, List.mem_append, List.not_mem_nil, or_false] at hmem
    rcases hmem with h | h | h
    · cases h
    · exact absurd (hd _ h) (by decide)
    · cases h
  · -- The dash after the base would stand in a base.
    by_contra hne
    have hpos := List.length_pos_of_ne_nil hne
    have hlength := congrArg List.length hcs
    rw [List.length_append] at hlength
    have hdash : u ++ ['-'] <+: base.toList := by
      have hlong : u ++ ['-'] <+: v := ⟨d ++ ['-'], by simp [hu]⟩
      refine List.prefix_of_prefix_length_le (hlong.trans hbegin) (List.prefix_append _ _) ?_
      rw [List.length_append, List.length_singleton]
      omega
    exact hb.dash_not_mem (hdash.subset (by simp))

/-- Where a sketch that is inked with a base begins with a marker of that base, the sketch begins
with a hole, unless the marker is there with another base. -/
theorem begins?_ink (hb : IsBase base) {d r : List Char}
    (hother : Marker.Absent base (X.ink other))
    (h : Marker.begins? base.toList (X.ink base) = some (d, r)) :
    ∃ (k : ℕ) (Y : Sketch σ), X = .hole k :: Y ∧ d = Nat.toDigits 10 k ∧ r = Y.ink base := by
  have hbegins := Marker.begins?_eq_some_iff.1 h
  obtain ⟨cs, Y, rfl, hY⟩ := exists_letters X
  have hink := hbegins.eq_append
  rw [ink_append, ink_letters] at hink hother
  have hwindow : base.toList ++ '-' :: (d ++ '-' :: r) =
      (base.toList ++ '-' :: (d ++ ['-'])) ++ r := by simp
  rw [hwindow] at hink
  -- Letters that spell the marker would do so with the other base, too.
  have hspelled {u : List Char} (hcs : cs = base.toList ++ '-' :: (d ++ ['-']) ++ u) : False := by
    have hmarker : Marker.Begins base.toList (cs ++ Y.ink other) d (u ++ Y.ink other) :=
      ⟨by simp [hcs], hbegins.isDigit, hbegins.ne_nil⟩
    have hnone := Marker.first?_eq_none_iff.1 hother [] (cs ++ Y.ink other) rfl
    rw [Marker.begins?_eq_some_iff.2 hmarker] at hnone
    cases hnone
  rcases List.append_eq_append_iff.1 hink.symm with ⟨u, hcs, -⟩ | ⟨v, hv, hYv⟩
  · exact (hspelled hcs).elim
  · by_cases hnil : v = []
    · exact (hspelled (u := []) (by rw [hv, hnil, List.append_nil, List.append_nil])).elim
    have hbegin : v <+: Y.ink base := ⟨r, hYv.symm⟩
    rcases hY with rfl | ⟨k, Z, rfl⟩ | ⟨p, Z, rfl⟩
    · exact absurd (List.prefix_nil.1 hbegin) hnil
    · rw [ink_cons, Stroke.ink] at hbegin
      obtain rfl := eq_nil_of_window hb hbegins.isDigit hnil hv hbegin
      obtain ⟨rfl, rfl⟩ := hbegins.unique (Marker.begins_text base k (ink base Z))
      exact ⟨k, Z, rfl, rfl, rfl⟩
    · exfalso
      obtain ⟨c, ps, hp, hodd⟩ := Part.odd hb p
      rw [ink_cons, Stroke.ink, hp] at hbegin
      obtain ⟨w, hw⟩ := hbegin
      cases v with
      | nil => exact hnil rfl
      | cons e v =>
        obtain rfl : e = c := (List.cons.inj hw).1
        have hmem : e ∈ base.toList ++ '-' :: (d ++ ['-']) := by
          rw [hv]
          simp
        have hname : isNameChar e = true := by
          simp only [List.mem_append, List.mem_cons, List.not_mem_nil, or_false] at hmem
          rcases hmem with h | rfl | h | rfl
          · exact isNameChar_of_mem_hexDigits e (hb.isDigit e h)
          · decide
          · exact isNameChar_of_isDigit (hbegins.isDigit e h)
          · decide
        rw [hname] at hodd
        cases hodd

/-! ### The first marker -/

/-- Nothing is found as long as no marker begins. -/
theorem first?_append {p : List Char}
    (h : ∀ u v, p = u ++ v → v ≠ [] → Marker.begins? base.toList (v ++ cs) = none) :
    Marker.first? base.toList before (p ++ cs) =
      Marker.first? base.toList (p.reverse ++ before) cs := by
  induction p generalizing before with
  | nil => rfl
  | cons c p ih =>
    have hnone := h [] (c :: p) rfl (List.cons_ne_nil c p)
    rw [List.cons_append] at hnone ⊢
    rw [Marker.first?, hnone, List.reverse_cons, List.append_assoc, List.singleton_append]
    exact ih fun u v huv hv => h (c :: u) v (by rw [huv, List.cons_append]) hv

/-- No marker begins before the first hole. -/
theorem begins?_before (hb : IsBase base) (hX : X.holes = [])
    (hother : Marker.Absent base ((X ++ Y).ink other)) {u v : List Char}
    (huv : X.ink base = u ++ v) (hv : v ≠ []) :
    Marker.begins? base.toList (v ++ Y.ink base) = none := by
  induction X generalizing u v with
  | nil => exact absurd (List.append_eq_nil_iff.1 huv.symm).2 hv
  | cons s X ih =>
    rw [List.cons_append] at hother
    rw [ink_cons] at huv
    have hrest : holes X = [] := by
      cases s with
      | hole k => cases hX
      | letter c => exact hX
      | part p => exact hX
    rcases List.append_eq_append_iff.1 huv with ⟨w, rfl, hw⟩ | ⟨w, hs, rfl⟩
    · exact ih hrest hother.suffix hw hv
    by_cases hw : w = []
    · rw [hw, List.nil_append] at hv ⊢
      exact ih hrest hother.suffix (u := []) rfl hv
    cases s with
    | hole k => cases hX
    | part p =>
      rw [List.append_assoc]
      exact Part.bare hb p u w _ hs hw
    | letter c =>
      obtain ⟨rfl, rfl⟩ : u = [] ∧ w = [c] := by
        rcases List.cons_eq_append_iff.1 hs with ⟨rfl, rfl⟩ | ⟨u, rfl, hnil⟩
        · exact ⟨rfl, rfl⟩
        · exact absurd (List.append_eq_nil_iff.1 hnil.symm).2 hw
      cases hbegins : Marker.begins? base.toList ([c] ++ ink base X ++ ink base Y) with
      | none => rfl
      | some found =>
        obtain ⟨d, r⟩ := found
        have hink : ink base (.letter c :: (X ++ Y)) = [c] ++ ink base X ++ ink base Y := by
          simp [Stroke.ink]
        rw [← hink] at hbegins
        obtain ⟨k, Z, heq, -, -⟩ := begins?_ink hb hother hbegins
        cases heq

/-- The first marker that is found is the first hole. -/
theorem first?_ink (hb : IsBase base) (hY : Y.holes = [])
    (hother : Marker.Absent base ((Y ++ .hole k :: Z).ink other)) :
    Marker.first? base.toList before ((Y ++ .hole k :: Z).ink base) =
      some ((Y.ink base).reverse ++ before, Nat.toDigits 10 k, Z.ink base) := by
  rw [ink_append, first?_append fun u v huv hv => begins?_before hb hY hother huv hv, ink_cons,
    Stroke.ink]
  have hbegins := Marker.begins?_eq_some_iff.2 (Marker.begins_text base k (Z.ink base))
  cases hmarker : (Marker.text base k).toList with
  | nil => exact absurd hmarker Marker.text_ne_nil
  | cons c cs =>
    rw [hmarker] at hbegins
    rw [List.cons_append] at hbegins ⊢
    rw [Marker.first?, hbegins]

/-- Nothing is found in a sketch without holes. -/
theorem absent_ink (hb : IsBase base) (hX : X.holes = [])
    (hother : Marker.Absent base (X.ink other)) : Marker.Absent base (X.ink base) := by
  rw [← List.append_nil X] at hother
  have hfirst : Marker.first? base.toList [] (ink base X ++ ink base ([] : Sketch σ)) =
      Marker.first? base.toList ((ink base X).reverse ++ []) (ink base ([] : Sketch σ)) :=
    first?_append fun u v huv hv => begins?_before hb hX hother huv hv
  rw [ink_nil, List.append_nil] at hfirst
  exact hfirst

/-- No marker is found in the text of a sketch without holes. -/
theorem find?_text_of_holes_eq_nil (hb : IsBase base) (hX : X.holes = [])
    (hother : Marker.Absent base (X.ink other)) : Marker.find? base (X.text base) = none :=
  Marker.find?_eq_none (by rw [toList_sketchText]; exact absent_ink hb hX hother)

/-- The marker that is found in the text of a sketch is its first hole. -/
theorem find?_text (hb : IsBase base) (hY : Y.holes = [])
    (hother : Marker.Absent base ((Y ++ .hole k :: Z).ink other)) :
    Marker.find? base ((Y ++ .hole k :: Z).text base) =
      if k ≤ largest64 then some ⟨Y.text base, k, Z.text base⟩ else none := by
  simp only [Marker.find?, toList_sketchText, first?_ink hb hY hother,
    Marker.decimalValue_toDigits, List.append_nil, List.reverse_reverse]
  rfl

end Sketch

end Ink

/-! ### Sketches without shards -/

theorem Sketch.ink_letters_hole (base : String) (cs : List Char) (k : ℕ) (Z : Sketch Empty) :
    ink base (letters cs ++ .hole k :: Z) =
      cs ++ (base.toList ++ '-' :: (Nat.toDigits 10 k ++ '-' :: Z.ink base)) := by
  simp [Stroke.ink, Marker.toList_text]

theorem Sketch.weight_eq_length_holes (X : Sketch Empty) : X.weight = X.holes.length := by
  induction X with
  | nil => rfl
  | cons s X ih =>
    cases s with
    | letter c => simpa using ih
    | hole k => simp [ih, Nat.add_comm]
    | part p => exact p.elim

/-- The letters that begin a sketch, and the hole after them. -/
theorem Sketch.exists_letters_hole (X : Sketch Empty) :
    ∃ (cs : List Char) (Y : Sketch Empty), X = letters cs ++ Y ∧
      (Y = [] ∨ ∃ k Z, Y = .hole k :: Z) := by
  obtain ⟨cs, Y, rfl, rfl | hole | ⟨p, -, -⟩⟩ := exists_letters X
  · exact ⟨cs, [], rfl, Or.inl rfl⟩
  · exact ⟨cs, Y, rfl, Or.inr hole⟩
  · exact p.elim

/-- Sketches that are inked alike are the same, unless the letters of one spell a marker. -/
theorem Sketch.eq_of_ink_eq {base other other' : String} (hb : IsBase base) {X Y : Sketch Empty}
    (hX : Marker.Absent base (X.ink other)) (hY : Marker.Absent base (Y.ink other'))
    (h : X.ink base = Y.ink base) : X = Y := by
  induction X generalizing Y with
  | nil => exact ((ink_eq_nil_iff hb).1 h.symm).symm
  | cons s X ih =>
    have hmarker {k : ℕ} {Z : Sketch Empty} := Marker.begins?_eq_some_iff.2
      (Marker.begins_text base k (ink base Z))
    cases s with
    | part p => exact p.elim
    | hole k =>
      have hfound : Marker.begins? base.toList (ink base Y) =
          some (Nat.toDigits 10 k, ink base X) := by
        rw [← h]
        exact hmarker
      obtain ⟨j, Z, rfl, hdigits, hink⟩ := begins?_ink hb hY hfound
      have hkj := congrArg decimalValue hdigits
      rw [Marker.decimalValue_toDigits, Marker.decimalValue_toDigits] at hkj
      rw [hkj, ih hX.suffix hY.suffix hink]
    | letter c =>
      cases Y with
      | nil => cases (ink_eq_nil_iff hb).1 h
      | cons t Y =>
        cases t with
        | part p => exact p.elim
        | hole j =>
          have hfound : Marker.begins? base.toList (ink base (.letter c :: X)) =
              some (Nat.toDigits 10 j, ink base Y) := by
            rw [h]
            exact hmarker
          obtain ⟨k, Z, heq, -, -⟩ := begins?_ink hb hX hfound
          cases heq
        | letter d =>
          obtain ⟨rfl, hink⟩ := List.cons.inj h
          rw [ih hX.suffix hY.suffix hink]

end LiveMarkup
