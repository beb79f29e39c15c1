import Mathlib.Data.List.Basic
import LiveMarkup.Text.Blank
import LiveMarkup.Text.Digit

/-!
# Decimal numbers

What the decimal form of a number reads back as: the number itself, if it has no more than 64 bits
(`readNatural?_toString`), also after white space around it has been trimmed, for there is none.
-/

namespace LiveMarkup

variable {n : ℕ}

theorem toList_toString (n : ℕ) : (toString n).toList = Nat.toDigits 10 n := Nat.toList_repr

theorem all_isDigit_toDigits (n : ℕ) : (Nat.toDigits 10 n).all Char.isDigit = true :=
  List.all_eq_true.2 fun _ hc => Nat.isDigit_of_mem_toDigits (by decide) (by decide) hc

theorem toDigits_eq_zero_iff (n : ℕ) : Nat.toDigits 10 n = ['0'] ↔ n = 0 := by
  refine ⟨fun h => ?_, fun h => h ▸ Nat.toDigits_zero 10⟩
  have hvalue : Nat.ofDigitChars 10 (Nat.toDigits 10 n) 0 = n :=
    Nat.ofDigitChars_toDigits (by decide) (by decide)
  rw [← hvalue, h]
  rfl

/-- The first digit of a number is a zero only if it is the only digit. -/
theorem toDigits_ne_zero_cons (n : ℕ) (c : Char) (cs : List Char) :
    Nat.toDigits 10 n ≠ '0' :: c :: cs := by
  induction n using Nat.strongRecOn generalizing c cs with
  | _ n ih =>
    intro h
    rcases Nat.lt_or_ge n 10 with hn | hn
    · have hlength := congrArg List.length h
      rw [Nat.toDigits_of_lt_base hn] at hlength
      cases hlength
    · rw [Nat.toDigits_of_base_le (by decide) hn] at h
      cases hfirst : Nat.toDigits 10 (n / 10) with
      | nil => exact Nat.toDigits_ne_nil hfirst
      | cons d ds =>
        rw [hfirst, List.cons_append] at h
        obtain ⟨rfl, hrest⟩ := List.cons.inj h
        cases ds with
        | nil =>
          have hzero := (toDigits_eq_zero_iff (n / 10)).1 hfirst
          omega
        | cons e ds => exact ih (n / 10) (by omega) e ds hfirst

theorem ofDecimalDigits?_toDigits (hn : n ≤ largest64) :
    ofDecimalDigits? (Nat.toDigits 10 n) = some n := by
  have hvalue : decimalValue (Nat.toDigits 10 n) = n :=
    Nat.ofDigitChars_toDigits (by decide) (by decide)
  have hnil : (Nat.toDigits 10 n).isEmpty = false :=
    List.isEmpty_eq_false_iff.2 Nat.toDigits_ne_nil
  simp [ofDecimalDigits?, hvalue, hnil, all_isDigit_toDigits, hn]

/-- A number of 64 bits reads back from its decimal form. -/
theorem readNatural?_toString (hn : n ≤ largest64) : readNatural? (toString n) = some n := by
  unfold readNatural?
  rw [toList_toString]
  split
  · next digits h =>
    have hplus : '+' ∈ Nat.toDigits 10 n := h ▸ List.mem_cons_self
    exact absurd (Nat.isDigit_of_mem_toDigits (by decide) (by decide) hplus) (by decide)
  · exact ofDecimalDigits?_toDigits hn

theorem isBlank_eq_false_of_isDigit {c : Char} (hc : c.isDigit = true) :
    Text.isBlank c = false := by
  have hblanks : (Text.blanks.all fun b => !b.isDigit) = true := by decide
  rw [Text.isBlank, ← Bool.not_eq_true, List.contains_iff_mem]
  intro hmem
  have hnot := List.all_eq_true.1 hblanks c hmem
  rw [hc] at hnot
  cases hnot

/-- There is nothing to trim around a decimal form. -/
theorem trim_toString (n : ℕ) : Text.trim (toString n) = toString n := by
  have hdrop : ∀ cs : List Char, (∀ c ∈ cs, c.isDigit = true) →
      cs.dropWhile Text.isBlank = cs := by
    intro cs hcs
    cases cs with
    | nil => rfl
    | cons c cs =>
      rw [List.dropWhile_cons, isBlank_eq_false_of_isDigit (hcs c List.mem_cons_self)]
      rfl
  have hdigits : ∀ c ∈ (toString n).toList, c.isDigit = true := by
    rw [toList_toString]
    exact List.all_eq_true.1 (all_isDigit_toDigits n)
  rw [Text.trim, hdrop _ hdigits, hdrop _ fun c hc => hdigits c (List.mem_reverse.1 hc),
    List.reverse_reverse, String.ofList_toList]

end LiveMarkup
