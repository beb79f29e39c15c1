import Mathlib.Data.List.TakeWhile
import LiveMarkup.Template.Marker

/-!
# Where markers stand

`Marker.Begins` says that a text begins with a marker, and `Marker.Splits` what `Marker.find?` has
found: the first place of the text that begins with a marker.  Nothing is found in what stands
before it, and what stands after it is shorter than the text.
-/

namespace LiveMarkup.Marker

variable {base cs d r : List Char}

/-- The text `cs` begins with a marker: its digits are `d`, and `r` follows it. -/
structure Begins (base cs d r : List Char) : Prop where
  eq_append : cs = base ++ '-' :: (d ++ '-' :: r)
  isDigit : ∀ c ∈ d, c.isDigit = true
  ne_nil : d ≠ []

theorem takeWhile_digits (hd : ∀ c ∈ d, c.isDigit = true) (r : List Char) :
    (d ++ '-' :: r).takeWhile Char.isDigit = d ∧
      (d ++ '-' :: r).dropWhile Char.isDigit = '-' :: r := by
  have hdash : Char.isDigit '-' = false := by decide
  refine ⟨?_, ?_⟩
  · rw [List.takeWhile_append_of_pos hd, List.takeWhile_cons, hdash]
    simp
  · rw [List.dropWhile_append_of_pos hd, List.dropWhile_cons, hdash]
    simp

theorem begins?_eq_some_iff : begins? base cs = some (d, r) ↔ Begins base cs d r := by
  unfold begins?
  constructor
  · intro h
    split_ifs at h with hp
    obtain ⟨tail, rfl⟩ := List.isPrefixOf_iff_prefix.1 hp
    have hdrop : (base ++ ['-'] ++ tail).drop (base.length + 1) = tail :=
      List.drop_left' (by simp)
    simp only [hdrop] at h
    split at h
    · next rest heq =>
      split_ifs at h with hd
      obtain ⟨rfl, rfl⟩ : tail.takeWhile Char.isDigit = d ∧ rest = r := by simpa using h
      refine ⟨?_, fun c hc => List.mem_takeWhile_imp hc, fun he => hd (by rw [he]; rfl)⟩
      rw [← heq, List.takeWhile_append_dropWhile]
      simp
    · cases h
  · rintro ⟨rfl, hd, hne⟩
    have hp : (base ++ ['-']).isPrefixOf (base ++ '-' :: (d ++ '-' :: r)) = true :=
      List.isPrefixOf_iff_prefix.2 ⟨d ++ '-' :: r, by simp⟩
    have hdrop : (base ++ '-' :: (d ++ '-' :: r)).drop (base.length + 1) = d ++ '-' :: r := by
      simp [List.drop_append]
    obtain ⟨htake, hrest⟩ := takeWhile_digits hd r
    rw [if_pos hp]
    simp only [hdrop, htake, hrest]
    rw [if_neg (by simpa using hne)]

namespace Begins

theorem append (h : Begins base cs d r) (tail : List Char) :
    Begins base (cs ++ tail) d (r ++ tail) :=
  ⟨by simp [h.eq_append], h.isDigit, h.ne_nil⟩

theorem unique {d' r' : List Char} (h : Begins base cs d r) (h' : Begins base cs d' r') :
    d = d' ∧ r = r' := by
  have heq := (begins?_eq_some_iff.2 h).symm.trans (begins?_eq_some_iff.2 h')
  simpa using heq

theorem length_lt (h : Begins base cs d r) : r.length < cs.length := by
  rw [h.eq_append]
  simp only [List.length_append, List.length_cons]
  omega

end Begins

theorem begins?_nil : begins? base [] = none := by
  simp [begins?]

/-- Where no marker begins, none begins when the text ends earlier. -/
theorem begins?_of_append {tail : List Char} (h : begins? base (cs ++ tail) = none) :
    begins? base cs = none := by
  cases hb : begins? base cs with
  | none => rfl
  | some p =>
    obtain ⟨d, r⟩ := p
    rw [begins?_eq_some_iff.2 ((begins?_eq_some_iff.1 hb).append tail)] at h
    cases h

/-! ### The first marker -/

theorem first?_eq_none_iff {before : List Char} :
    first? base before cs = none ↔ ∀ u v, cs = u ++ v → begins? base v = none := by
  induction cs generalizing before with
  | nil =>
    refine ⟨fun _ u v h => ?_, fun _ => rfl⟩
    obtain ⟨rfl, rfl⟩ := List.append_eq_nil_iff.1 h.symm
    exact begins?_nil
  | cons c cs ih =>
    rw [first?]
    constructor
    · intro h u v huv
      split at h
      · cases h
      · next hnone =>
        rcases List.cons_eq_append_iff.1 huv with ⟨rfl, rfl⟩ | ⟨u, rfl, rfl⟩
        · exact hnone
        · exact ih.1 h u v rfl
    · intro h
      rw [h [] (c :: cs) rfl]
      exact ih.2 fun u v huv => h (c :: u) v (by rw [huv, List.cons_append])

theorem first?_eq_some {before b : List Char} (h : first? base before cs = some (b, d, r)) :
    ∃ pre rest, cs = pre ++ rest ∧ b = pre.reverse ++ before ∧ Begins base rest d r ∧
      ∀ u v, pre = u ++ v → v ≠ [] → begins? base (v ++ rest) = none := by
  induction cs generalizing before with
  | nil => cases h
  | cons c cs ih =>
    rw [first?] at h
    split at h
    · next d' r' hb =>
      obtain ⟨rfl, rfl, rfl⟩ : before = b ∧ d' = d ∧ r' = r := by simpa using h
      refine ⟨[], c :: cs, rfl, rfl, begins?_eq_some_iff.1 hb, fun u v huv hv => ?_⟩
      exact absurd (List.append_eq_nil_iff.1 huv.symm).2 hv
    · next hnone =>
      obtain ⟨pre, rest, rfl, rfl, hb, hfirst⟩ := ih h
      refine ⟨c :: pre, rest, rfl, by simp, hb, fun u v huv hv => ?_⟩
      rcases List.cons_eq_append_iff.1 huv with ⟨rfl, rfl⟩ | ⟨u, rfl, hpre⟩
      · exact hnone
      · exact hfirst u v hpre hv

/-! ### Finding markers -/

/-- The marker `m` with the digits `d` is the first one of `s`, at the beginning of `rest`. -/
structure Splits (base s : String) (m : Marker) (rest d : List Char) : Prop where
  eq_append : s.toList = m.before.toList ++ rest
  begins : Begins base.toList rest d m.after.toList
  ordinal_eq : m.ordinal = decimalValue d
  ordinal_le : m.ordinal ≤ largest64
  first (u v : List Char) :
    m.before.toList = u ++ v → v ≠ [] → begins? base.toList (v ++ rest) = none

section Find

variable {base s : String} {m : Marker}

theorem find?_eq_some (h : find? base s = some m) : ∃ rest d, Splits base s m rest d := by
  unfold find? at h
  split at h
  · cases h
  · next b d r hf =>
    split_ifs at h with hd
    obtain rfl := Option.some.inj h
    obtain ⟨pre, rest, hs, rfl, hb, hfirst⟩ := first?_eq_some hf
    refine ⟨rest, d, by simpa using hs, by simpa using hb, rfl, hd, fun u v huv => hfirst u v ?_⟩
    simpa using huv

theorem find?_eq_none (h : first? base.toList [] s.toList = none) : find? base s = none := by
  simp only [find?, h]

theorem find?_empty (base : String) : find? base "" = none := find?_eq_none rfl

/-- Nothing is found before the first marker. -/
theorem find?_before (h : find? base s = some m) : find? base m.before = none := by
  obtain ⟨rest, d, hs⟩ := find?_eq_some h
  refine find?_eq_none (first?_eq_none_iff.2 fun u v huv => ?_)
  by_cases hv : v = []
  · rw [hv]
    exact begins?_nil
  · exact begins?_of_append (hs.first u v huv hv)

theorem ordinal_le_of_find? (h : find? base s = some m) : m.ordinal ≤ largest64 := by
  obtain ⟨rest, d, hs⟩ := find?_eq_some h
  exact hs.ordinal_le

theorem length_after_lt (h : find? base s = some m) : m.after.length < s.length := by
  obtain ⟨rest, d, hs⟩ := find?_eq_some h
  have hlen := congrArg List.length hs.eq_append
  have hlt := hs.begins.length_lt
  simp only [List.length_append, String.length_toList] at hlen hlt
  omega

end Find

end LiveMarkup.Marker
