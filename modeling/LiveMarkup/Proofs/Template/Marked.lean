import Mathlib.Data.List.Infix
import LiveMarkup.Proofs.Template.Markers

/-!
# Marked texts

In a marked text the base of the markers stands in the markers of holes only, so what begins like a
marker is one (`Marker.Begins.exists_ordinal`).  `substituteText` replaces the markers of a text
from left to right, by the values for their holes; what is put in is not looked at again.
-/

namespace LiveMarkup

/-! ### Markers in a text -/

/-- Wherever the base stands in a text, the marker of one of the first `count` holes begins. -/
def MarkedText (base : String) (count : ℕ) (s : String) : Prop :=
  ∀ cs ∈ s.toList.tails, base.toList <+: cs → ∃ i < count, (Marker.text base i).toList <+: cs

instance (base : String) (count : ℕ) (s : String) : Decidable (MarkedText base count s) :=
  inferInstanceAs (Decidable (∀ cs ∈ s.toList.tails, _ → ∃ i < count, _))

namespace Marker

variable {base s : String} {count i : ℕ} {cs d r : List Char} {m : Marker}

/-- The hole, out of the first `count`, whose marker begins the input. -/
def ordinalAt? (base : String) (count : ℕ) (cs : List Char) : Option ℕ :=
  (List.range count).find? fun i => (text base i).toList.isPrefixOf cs

/-- Whether a text is the marker of one of the first `count` holes. -/
def isText (base : String) (count : ℕ) (s : String) : Bool :=
  (List.range count).any fun i => text base i == s

theorem decimalValue_toDigits (i : ℕ) : decimalValue (Nat.toDigits 10 i) = i :=
  Nat.ofDigitChars_ten_toDigits

theorem toList_text (base : String) (i : ℕ) :
    (text base i).toList = base.toList ++ '-' :: (Nat.toDigits 10 i ++ ['-']) := by
  simp [text]

theorem text_ne_nil : (text base i).toList ≠ [] := by
  rw [toList_text]
  simp

theorem begins_text (base : String) (i : ℕ) (r : List Char) :
    Begins base.toList ((text base i).toList ++ r) (Nat.toDigits 10 i) r := by
  refine ⟨by simp [toList_text], fun c hc => ?_, Nat.toDigits_ne_nil⟩
  exact Nat.isDigit_of_mem_toDigits (by decide) le_rfl hc

/-- A text that begins with the marker of a hole begins with no other. -/
theorem Begins.eq_text_append (h : Begins base.toList cs d r) (hi : (text base i).toList <+: cs) :
    cs = (text base i).toList ++ r ∧ decimalValue d = i := by
  obtain ⟨v, rfl⟩ := hi
  obtain ⟨rfl, rfl⟩ := h.unique (begins_text base i v)
  exact ⟨rfl, decimalValue_toDigits i⟩

theorem text_injective (base : String) {i j : ℕ} (h : text base i = text base j) : i = j := by
  have hj : (text base j).toList <+: (text base i).toList ++ [] := by
    rw [h]
    exact List.prefix_append _ _
  rw [← ((begins_text base i []).eq_text_append hj).2, decimalValue_toDigits]

theorem prefix_of_ordinalAt? (h : ordinalAt? base count cs = some i) :
    (text base i).toList <+: cs :=
  List.isPrefixOf_iff_prefix.1
    (List.find?_some (p := fun i => (text base i).toList.isPrefixOf cs) h)

theorem ordinalAt?_eq_some_iff :
    ordinalAt? base count cs = some i ↔ i < count ∧ (text base i).toList <+: cs := by
  constructor
  · intro h
    exact ⟨List.mem_range.1 (List.mem_of_find?_eq_some h), prefix_of_ordinalAt? h⟩
  · rintro ⟨hlt, hprefix⟩
    cases hfound : ordinalAt? base count cs with
    | none =>
      have hnot := List.find?_eq_none.1 hfound i (List.mem_range.2 hlt)
      exact absurd (List.isPrefixOf_iff_prefix.2 hprefix) hnot
    | some j =>
      have hj := prefix_of_ordinalAt? hfound
      obtain ⟨v, rfl⟩ := hprefix
      rw [← ((begins_text base i v).eq_text_append hj).2, decimalValue_toDigits]

theorem ordinalAt?_eq_none (h : begins? base.toList cs = none) :
    ordinalAt? base count cs = none := by
  cases hfound : ordinalAt? base count cs with
  | none => rfl
  | some j =>
    obtain ⟨v, rfl⟩ := (ordinalAt?_eq_some_iff.1 hfound).2
    rw [begins?_eq_some_iff.2 (begins_text base j v)] at h
    cases h

theorem isText_iff : isText base count s = true ↔ ∃ i < count, text base i = s := by
  simp [isText]

/-- In a marked text, what begins like a marker is the marker of a hole. -/
theorem Begins.exists_ordinal (hs : MarkedText base count s) {u : List Char}
    (hu : s.toList = u ++ cs) (h : Begins base.toList cs d r) :
    decimalValue d < count ∧ cs = (text base (decimalValue d)).toList ++ r := by
  have hbase : base.toList <+: cs := h.eq_append ▸ List.prefix_append _ _
  obtain ⟨i, hi, hprefix⟩ := hs cs ((List.mem_tails _ _).2 ⟨u, hu.symm⟩) hbase
  obtain ⟨hcs, rfl⟩ := h.eq_text_append hprefix
  exact ⟨hi, hcs⟩

/-- A marked text in which no marker is found has none. -/
theorem ordinalAt?_of_find?_eq_none (hs : MarkedText base count s) (hcount : count ≤ largest64 + 1)
    (h : find? base s = none) {u v : List Char} (huv : s.toList = u ++ v) :
    ordinalAt? base count v = none := by
  refine ordinalAt?_eq_none ?_
  have hfirst : first? base.toList [] s.toList = none := by
    cases hf : first? base.toList [] s.toList with
    | none => rfl
    | some found =>
      obtain ⟨b, d, r⟩ := found
      obtain ⟨pre, rest, hsplit, -, hbegins, -⟩ := first?_eq_some hf
      have hlt := (hbegins.exists_ordinal hs hsplit).1
      simp only [find?, hf] at h
      rw [if_pos (by omega)] at h
      cases h
  exact first?_eq_none_iff.1 hfirst u v huv

/-- In a marked text, the first marker is the one of a hole. -/
theorem Splits.of_marked {rest : List Char} (hs : MarkedText base count s)
    (h : Splits base s m rest d) :
    m.ordinal < count ∧ rest = (text base m.ordinal).toList ++ m.after.toList := by
  rw [h.ordinal_eq]
  exact h.begins.exists_ordinal hs h.eq_append

end Marker

/-! ### Substitution in a text -/

section Text

variable {base s : String} {count : ℕ} {values : ℕ → String} {m : Marker}

/-- Replaces the markers from left to right; the first `skip` characters belong to one that has been
replaced. -/
def substituteChars (base : String) (count : ℕ) (values : ℕ → String) :
    ℕ → List Char → List Char
  | _, [] => []
  | skip + 1, _ :: cs => substituteChars base count values skip cs
  | 0, c :: cs =>
    match Marker.ordinalAt? base count (c :: cs) with
    | some i =>
      (values i).toList ++ substituteChars base count values ((Marker.text base i).length - 1) cs
    | none => c :: substituteChars base count values 0 cs

/-- A text with the values for its markers. -/
def substituteText (base : String) (count : ℕ) (values : ℕ → String) (s : String) : String :=
  String.ofList (substituteChars base count values 0 s.toList)

theorem substituteChars_skip (xs cs : List Char) :
    substituteChars base count values xs.length (xs ++ cs) =
      substituteChars base count values 0 cs := by
  induction xs with
  | nil => rfl
  | cons x xs ih => rw [List.length_cons, List.cons_append, substituteChars, ih]

theorem substituteChars_append (values : ℕ → String) {xs cs : List Char}
    (h : ∀ u v, xs = u ++ v → v ≠ [] → Marker.ordinalAt? base count (v ++ cs) = none) :
    substituteChars base count values 0 (xs ++ cs) =
      xs ++ substituteChars base count values 0 cs := by
  induction xs with
  | nil => rfl
  | cons x xs ih =>
    have hnone := h [] (x :: xs) rfl (by simp)
    have htail := ih fun u v huv hv => h (x :: u) v (by rw [huv, List.cons_append]) hv
    rw [List.cons_append] at hnone ⊢
    rw [substituteChars, hnone, List.cons_append, htail]

theorem substituteChars_marker {i : ℕ} (hi : i < count) (cs : List Char) :
    substituteChars base count values 0 ((Marker.text base i).toList ++ cs) =
      (values i).toList ++ substituteChars base count values 0 cs := by
  have hfound : Marker.ordinalAt? base count ((Marker.text base i).toList ++ cs) = some i :=
    Marker.ordinalAt?_eq_some_iff.2 ⟨hi, List.prefix_append _ _⟩
  have hlength : (Marker.text base i).length = (Marker.text base i).toList.length :=
    String.length_toList.symm
  cases hmarker : (Marker.text base i).toList with
  | nil => exact absurd hmarker Marker.text_ne_nil
  | cons x xs =>
    rw [hmarker] at hfound hlength
    rw [List.cons_append] at hfound ⊢
    rw [substituteChars, hfound]
    simp only [hlength, List.length_cons, Nat.add_sub_cancel, substituteChars_skip]

/-- A text without markers stays as it is. -/
theorem substituteText_of_none (hs : MarkedText base count s) (hcount : count ≤ largest64 + 1)
    (h : Marker.find? base s = none) : substituteText base count values s = s := by
  have hnone : ∀ u v : List Char, s.toList = u ++ v → v ≠ [] →
      Marker.ordinalAt? base count (v ++ []) = none := fun u v huv _ => by
    rw [List.append_nil]
    exact Marker.ordinalAt?_of_find?_eq_none hs hcount h huv
  have hchars := substituteChars_append values hnone
  rw [List.append_nil] at hchars
  rw [substituteText, hchars]
  simp [substituteChars]

/-- The first marker of a text is replaced, and then those after it. -/
theorem substituteText_of_some (hs : MarkedText base count s) (h : Marker.find? base s = some m) :
    substituteText base count values s =
      m.before ++ (values m.ordinal ++ substituteText base count values m.after) := by
  obtain ⟨rest, d, hsplits⟩ := Marker.find?_eq_some h
  obtain ⟨hlt, hrest⟩ := hsplits.of_marked hs
  have hnone : ∀ u v : List Char, m.before.toList = u ++ v → v ≠ [] →
      Marker.ordinalAt? base count (v ++ rest) = none := fun u v huv hv =>
    Marker.ordinalAt?_eq_none (hsplits.first u v huv hv)
  have hbefore := substituteChars_append values hnone
  rw [substituteText, hsplits.eq_append, hbefore, hrest, substituteChars_marker hlt]
  simp [substituteText]

theorem MarkedText.after (hs : MarkedText base count s) (h : Marker.find? base s = some m) :
    MarkedText base count m.after := by
  obtain ⟨rest, d, hsplits⟩ := Marker.find?_eq_some h
  intro cs hcs
  refine hs cs ((List.mem_tails _ _).2 (((List.mem_tails _ _).1 hcs).trans ?_))
  rw [hsplits.eq_append, (hsplits.of_marked hs).2, ← List.append_assoc]
  exact List.suffix_append _ _

theorem MarkedText.ordinal_lt (hs : MarkedText base count s) (h : Marker.find? base s = some m) :
    m.ordinal < count := by
  obtain ⟨rest, d, hsplits⟩ := Marker.find?_eq_some h
  exact (hsplits.of_marked hs).1

/-- A marked text that is a marker as a whole is the marker of a hole. -/
theorem MarkedText.eq_text (hs : MarkedText base count s) (h : Marker.find? base s = some m)
    (hwhole : m.isWhole = true) : s = Marker.text base m.ordinal := by
  obtain ⟨rest, d, hsplits⟩ := Marker.find?_eq_some h
  obtain ⟨hbefore, hafter⟩ : m.before = "" ∧ m.after = "" := by
    simpa [Marker.isWhole] using hwhole
  have hlist := hsplits.eq_append
  rw [(hsplits.of_marked hs).2, hbefore, hafter] at hlist
  exact String.toList_inj.1 (by simpa using hlist)

end Text

end LiveMarkup
