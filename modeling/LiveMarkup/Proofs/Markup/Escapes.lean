import Mathlib.Data.String.Basic
import LiveMarkup.Markup.Token
import LiveMarkup.Markup.Written

/-!
# Reading escaped text

Written text and written attribute values use four character references.  The reader takes each of
them back to the character it was written for, whatever follows (`Reference.read?_escape`), because
no longer name begins like one of them.  So escaped text and escaped values are read as they were
(`ReadState.run_escapeText`, `ReadState.run_escapeValue`).
-/

namespace LiveMarkup

/-! ### The four references -/

namespace Reference

/-- No other name begins with the word. -/
def Final (word : List Char) (names : List (String × String)) : Prop :=
  ∀ entry ∈ names, word.isPrefixOf entry.1.toList = true → entry.1.toList = word

instance (word : List Char) (names : List (String × String)) : Decidable (Final word names) :=
  inferInstanceAs (Decidable (∀ _ ∈ _, _))

/-- A list that begins a word followed by something either begins the word or goes beyond it. -/
theorem isPrefixOf_append {name word : List Char} (rest : List Char)
    (h : word.isPrefixOf name = true → name = word) :
    name.isPrefixOf (word ++ rest) = name.isPrefixOf word := by
  rw [Bool.eq_iff_iff, List.isPrefixOf_iff_prefix, List.isPrefixOf_iff_prefix]
  constructor
  · intro hname
    rcases List.prefix_or_prefix_of_prefix hname (List.prefix_append word rest) with hle | hge
    · exact hle
    · exact (h (List.isPrefixOf_iff_prefix.2 hge)).symm ▸ List.prefix_refl word
  · exact fun hname => hname.trans (List.prefix_append word rest)

/-- What follows a final word does not matter to the search for the longest name. -/
theorem longest_append {word : List Char} (rest : List Char) {names : List (String × String)}
    (h : Final word names) (best : Option (String × String)) :
    longest (word ++ rest) best names = longest word best names := by
  induction names generalizing best with
  | nil => rfl
  | cons entry names ih =>
    have hrest : Final word names := fun other hmem => h other (List.mem_cons_of_mem _ hmem)
    simp only [longest, isPrefixOf_append rest (h entry List.mem_cons_self), ih hrest]

theorem read?_of_ne {c : Char} (hc : c ≠ '#') (inValue : Bool) (cs : List Char) :
    read? inValue (c :: cs) = readName? inValue (c :: cs) := by
  unfold read?
  split
  · next heq => exact absurd (List.cons.inj heq).1 hc
  · next heq => exact absurd (List.cons.inj heq).1 hc
  · next heq => exact absurd (List.cons.inj heq).1 hc
  · rfl

/-- A final name that ends with a semicolon is read whatever follows. -/
theorem read?_append {name text : String} {c : Char} {cs : List Char}
    (hname : name.toList = c :: cs) (hc : c ≠ '#') (hfinal : Final name.toList (namesAt c))
    (hlongest : longest name.toList none (namesAt c) = some (name, text))
    (hlast : name.toList.getLast? = some ';') (inValue : Bool) (rest : List Char) :
    read? inValue (name.toList ++ rest) = some ⟨text, name.length⟩ := by
  have hfound : longestName? (name.toList ++ rest) = some (name, text) := by
    rw [← hlongest, ← longest_append rest hfinal none, hname]
    rfl
  have hread : read? inValue (name.toList ++ rest) = readName? inValue (name.toList ++ rest) := by
    rw [hname]
    exact read?_of_ne hc inValue (cs ++ rest)
  rw [hread, readName?, hfound]
  simp [hlast]

/-- The characters that are escaped, with the names they are written by. -/
def escapes : List (Char × String) := [('&', "amp;"), ('<', "lt;"), ('>', "gt;"), ('"', "quot;")]

/-- The name that a character is written by is read as that character. -/
theorem read?_escape {c : Char} {name : String} (h : (c, name) ∈ escapes) (inValue : Bool)
    (rest : List Char) :
    read? inValue (name.toList ++ rest) = some ⟨c.toString, name.length⟩ := by
  simp only [escapes, List.mem_cons, Prod.mk.injEq, List.not_mem_nil, or_false] at h
  rcases h with ⟨rfl, rfl⟩ | ⟨rfl, rfl⟩ | ⟨rfl, rfl⟩ | ⟨rfl, rfl⟩
  · exact read?_append (c := 'a') rfl (by decide) (by decide +kernel) (by decide +kernel)
      (by decide) inValue rest
  · exact read?_append (c := 'l') rfl (by decide) (by decide +kernel) (by decide +kernel)
      (by decide) inValue rest
  · exact read?_append (c := 'g') rfl (by decide) (by decide +kernel) (by decide +kernel)
      (by decide) inValue rest
  · exact read?_append (c := 'q') rfl (by decide) (by decide +kernel) (by decide +kernel)
      (by decide) inValue rest

end Reference

/-! ### Escaped characters -/

theorem escapeTextChar_cases (c : Char) :
    (∃ name, (c, name) ∈ Reference.escapes ∧ (escapeTextChar c).toList = '&' :: name.toList) ∨
      c ≠ '&' ∧ c ≠ '<' ∧ escapeTextChar c = c.toString := by
  unfold escapeTextChar
  split
  · exact Or.inl ⟨"amp;", by decide, rfl⟩
  · exact Or.inl ⟨"lt;", by decide, rfl⟩
  · exact Or.inl ⟨"gt;", by decide, rfl⟩
  · next hamp hlt _ => exact Or.inr ⟨hamp, hlt, rfl⟩

theorem escapeValueChar_cases (c : Char) :
    (∃ name, (c, name) ∈ Reference.escapes ∧ (escapeValueChar c).toList = '&' :: name.toList) ∨
      c ≠ '&' ∧ c ≠ '"' ∧ escapeValueChar c = c.toString := by
  unfold escapeValueChar
  split
  · exact Or.inl ⟨"quot;", by decide, rfl⟩
  · next hquot =>
    rcases escapeTextChar_cases c with hname | ⟨hamp, -, heq⟩
    · exact Or.inl hname
    · exact Or.inr ⟨hamp, hquot, heq⟩

theorem toList_escapeText (s : String) :
    (escapeText s).toList = s.toList.flatMap fun c => (escapeTextChar c).toList := by
  rw [escapeText, String.toList_join, List.flatMap_map]

theorem toList_escapeValue (s : String) :
    (escapeValue s).toList = s.toList.flatMap fun c => (escapeValueChar c).toList := by
  rw [escapeValue, String.toList_join, List.flatMap_map]

/-! ### Reading them back -/

namespace ReadState

theorem run_cons (state : ReadState) (c : Char) (cs : List Char) :
    run state 0 (c :: cs) =
      (state.step c cs).tokens ++ run (state.step c cs).state (state.step c cs).skip cs := rfl

/-- Characters that are already taken are passed over. -/
theorem run_skip (state : ReadState) (taken rest : List Char) :
    run state taken.length (taken ++ rest) = run state 0 rest := by
  induction taken with
  | nil => rfl
  | cons c taken ih => exact ih

theorem run_escapeTextChar (c : Char) (rest : List Char) :
    run content 0 ((escapeTextChar c).toList ++ rest) =
      .text c.toString :: run content 0 rest := by
  rcases escapeTextChar_cases c with ⟨name, hmem, heq⟩ | ⟨hamp, hlt, heq⟩
  · have hstep : step content '&' (name.toList ++ rest) =
        ⟨content, name.length, [.text c.toString]⟩ := by
      simp [step, contentStep, Reference.read?_escape hmem false rest]
    rw [heq, List.cons_append, run_cons, hstep, ← String.length_toList, run_skip]
    rfl
  · have hstep : step content c rest = ⟨content, 0, [.text c.toString]⟩ := by
      simp [step, contentStep, hamp, hlt]
    rw [heq, Char.toString_eq_singleton, String.toList_singleton, List.singleton_append, run_cons,
      hstep]
    rfl

/-- Escaped text is read as the characters that it was written for. -/
theorem run_escapeText (s : String) (rest : List Char) :
    run content 0 ((escapeText s).toList ++ rest) =
      (s.toList.map fun c => Token.text c.toString) ++ run content 0 rest := by
  rw [toList_escapeText]
  induction s.toList with
  | nil => rfl
  | cons c cs ih =>
    rw [List.flatMap_cons, List.append_assoc, run_escapeTextChar, ih]
    rfl

theorem run_escapeValueChar (tag : OpenTag) (name read : String) {c : Char} (hc : c ≠ '\x00')
    (rest : List Char) :
    run (value tag name (some '"') read) 0 ((escapeValueChar c).toList ++ rest) =
      run (value tag name (some '"') (read.push c)) 0 rest := by
  rcases escapeValueChar_cases c with ⟨escape, hmem, heq⟩ | ⟨hamp, hquot, heq⟩
  · have hstep : step (value tag name (some '"') read) '&' (escape.toList ++ rest) =
        ⟨value tag name (some '"') (read ++ c.toString), escape.length, []⟩ := by
      simp [step, valueStep, valueCharStep, Reference.read?_escape hmem true rest]
    rw [heq, List.cons_append, run_cons, hstep, ← String.length_toList, run_skip,
      Char.toString_eq_singleton, String.append_singleton]
    rfl
  · have hstep : step (value tag name (some '"') read) c rest =
        .go (value tag name (some '"') (read.push c)) := by
      simp [step, valueStep, valueCharStep, hamp, hquot, withoutNull, hc]
    rw [heq, Char.toString_eq_singleton, String.toList_singleton, List.singleton_append, run_cons,
      hstep]
    rfl

/-- An escaped value is read up to its quote as what it was written for. -/
theorem run_escapeValue (tag : OpenTag) (name : String) {s : String} (hs : '\x00' ∉ s.toList)
    (rest : List Char) :
    run (value tag name (some '"') "") 0 ((escapeValue s).toList ++ '"' :: rest) =
      run (afterValue (tag.put name s)) 0 rest := by
  have hread : ∀ (cs : List Char) (read : String), '\x00' ∉ cs →
      run (value tag name (some '"') read) 0
          ((cs.flatMap fun c => (escapeValueChar c).toList) ++ '"' :: rest) =
        run (afterValue (tag.put name (read ++ String.ofList cs))) 0 rest := by
    intro cs
    induction cs with
    | nil =>
      intro read _
      simp [run_cons, step, valueStep, ReadStep.go]
    | cons c cs ih =>
      intro read hcs
      rw [List.mem_cons, not_or] at hcs
      rw [List.flatMap_cons, List.append_assoc, run_escapeValueChar tag name read (Ne.symm hcs.1),
        ih _ hcs.2, String.ofList_cons, ← String.append_assoc, String.append_singleton]
  rw [toList_escapeValue, hread s.toList "" hs, String.ofList_toList, String.empty_append]

end ReadState

end LiveMarkup
