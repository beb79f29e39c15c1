import Mathlib.Data.List.Basic
import LiveMarkup.Cards.Wallet
import LiveMarkup.Proofs.Cards.Entries
import LiveMarkup.Proofs.Text.Decimals

/-!
# Reading written records

What is written as a record is read as it was.  A string reads back whatever its characters are,
because each of them is written in a form that stands for this character alone
(`Json.readCodes?_escaped`); a number reads back where the field ends with it; and so the fields of
an object read back in their order (`Json.read?_writtenObject`).  A card is such an object
(`Card.ofRecord?_record`).  So a card that is saved and loaded is the same card, and neither saving
nor deleting it touches the text under any other key (`Wallet.load_save`).
-/

namespace LiveMarkup

namespace Json

variable {c : Char} {cs rest : List Char} {s name written : String} {value : Json} {fuel n : ℕ}

/-! ### Strings -/

theorem hexCode?_control (hn : n < 0x20) :
    hexCode? '0' '0' (Nat.digitChar (n / 16)) (Nat.digitChar (n % 16)) = some n := by
  revert n
  decide

theorem readCodes?_escape {e d : Char} (he : e ≠ 'u') (hd : escaped? e = some d)
    (cs : List Char) :
    readCodes? ('\\' :: e :: cs) =
      (readCodes? cs).map fun (codes, rest) => (d.toNat :: codes, rest) := by
  rw [readCodes?, hd]
  · cases readCodes? cs <;> rfl
  · exact fun _ _ _ _ _ heq => absurd heq he

/-- A character is read off its written form. -/
theorem readCodes?_escapedChar (c : Char) (cs : List Char) :
    readCodes? ((escapedChar c).toList ++ cs) =
      (readCodes? cs).map fun (codes, rest) => (c.toNat :: codes, rest) := by
  unfold escapedChar
  split
  case h_8 =>
    next hquote hback _ _ _ _ _ =>
    split_ifs with hcontrol
    · have hlist : ("\\u00" ++ (Nat.digitChar (c.toNat / 16)).toString ++
          (Nat.digitChar (c.toNat % 16)).toString).toList ++ cs =
          '\\' :: 'u' :: '0' :: '0' :: Nat.digitChar (c.toNat / 16) ::
            Nat.digitChar (c.toNat % 16) :: cs := by
        simp [Char.toString]
      rw [hlist, readCodes?, hexCode?_control hcontrol]
      cases readCodes? cs <;> rfl
    · have hlist : c.toString.toList ++ cs = c :: cs := by simp [Char.toString]
      have hreadable : ¬(c.toNat < 0x20 ∨ c = '\\') := fun h => h.elim hcontrol hback
      rw [hlist, readCodes?, if_neg hreadable]
      · cases readCodes? cs <;> rfl
      · exact hquote
      · exact fun _ _ _ _ _ heq _ => hback heq
      · exact fun _ _ heq _ => hback heq
  all_goals exact readCodes?_escape (by decide) rfl cs

/-- The characters of a string are read up to the closing quote. -/
theorem readCodes?_escaped (cs rest : List Char) :
    readCodes? (cs.flatMap (fun c => (escapedChar c).toList) ++ '"' :: rest) =
      some (cs.map Char.toNat, rest) := by
  induction cs with
  | nil => rfl
  | cons c cs ih =>
    rw [List.flatMap_cons, List.append_assoc, readCodes?_escapedChar, ih]
    rfl

theorem pairUp?_map_toNat (cs : List Char) : pairUp? (cs.map Char.toNat) = some cs := by
  induction cs with
  | nil => rfl
  | cons c cs ih =>
    -- No character is a surrogate.
    have hvalid : c.toNat < 0xd800 ∨ 0xdfff < c.toNat := c.valid.imp_right And.left
    have hleading : isLeading c.toNat = false := by
      simp only [isLeading, Bool.and_eq_false_iff, decide_eq_false_iff_not]
      omega
    have htrailing : isTrailing c.toNat = false := by
      simp only [isTrailing, Bool.and_eq_false_iff, decide_eq_false_iff_not]
      omega
    rw [List.map_cons, pairUp?.eq_def]
    simp [hleading, htrailing, ih]

theorem textOf?_map_toNat (s : String) : textOf? (s.toList.map Char.toNat) = some s := by
  rw [textOf?, pairUp?_map_toNat, Option.map_some, String.ofList_toList]

theorem toList_quoted (s : String) :
    (quoted s).toList = '"' :: s.toList.flatMap (fun c => (escapedChar c).toList) ++ ['"'] := by
  simp [quoted, List.flatMap_map]

/-! ### Values -/

/-- Whether input goes on where a field ends. -/
def Ends (rest : List Char) : Prop := ∀ c ∈ rest.head?, c = ',' ∨ c = '\x7d'

/-- Whether a text is the written form of a value: the value is read off it where a field ends. -/
def IsWritten (written : String) (value : Json) : Prop :=
  ∀ fuel rest, Ends rest → readValue? (fuel + 1) (written.toList ++ rest) = some (value, rest)

theorem skipSpace_cons (hc : isSpace c = false) (cs : List Char) :
    skipSpace (c :: cs) = c :: cs := by
  rw [skipSpace, List.dropWhile_cons, hc]
  rfl

theorem isWritten_quoted (s : String) : IsWritten (quoted s) (string (some s)) := by
  intro fuel rest _
  rw [toList_quoted, List.append_assoc, List.singleton_append, List.cons_append, readValue?,
    skipSpace_cons (by decide)]
  simp only [readCodes?_escaped, textOf?_map_toNat, Option.map_some]

theorem readDigits?_toDigits (hrest : Ends rest) (n : ℕ) :
    readDigits? (Nat.toDigits 10 n ++ rest) = some (Nat.toDigits 10 n, rest) := by
  have hdigits : ∀ c ∈ Nat.toDigits 10 n, c.isDigit = true :=
    List.all_eq_true.1 (all_isDigit_toDigits n)
  have hstop : rest.takeWhile Char.isDigit = [] ∧ rest.dropWhile Char.isDigit = rest := by
    cases rest with
    | nil => exact ⟨rfl, rfl⟩
    | cons c rest =>
      have hc : c.isDigit = false := by
        rcases hrest c rfl with rfl | rfl <;> decide
      simp [hc]
  simp only [readDigits?, List.takeWhile_append_of_pos hdigits,
    List.dropWhile_append_of_pos hdigits, hstop.1, hstop.2, List.append_nil]
  rw [if_neg (by simp)]

theorem readNumber?_toDigits (hrest : Ends rest) (n : ℕ) :
    readNumber? (Nat.toDigits 10 n ++ rest) = some (Nat.toDigits 10 n, rest) := by
  have hwhole : readWhole? (Nat.toDigits 10 n ++ rest) = some (Nat.toDigits 10 n, rest) := by
    unfold readWhole?
    rw [readDigits?_toDigits hrest]
    split
    · next heq =>
      exact absurd (congrArg Prod.fst (Option.some.inj heq)) (toDigits_ne_zero_cons _ _ _)
    · rfl
  have hfraction : readFraction? rest = some ([], rest) := by
    unfold readFraction?
    split
    · exact absurd (hrest '.' rfl) (by decide)
    · rfl
  have hexponent : readExponent? rest = some ([], rest) := by
    cases rest with
    | nil => rfl
    | cons c rest =>
      have hc : ¬(c = 'e' ∨ c = 'E') := by
        rcases hrest c rfl with rfl | rfl <;> decide
      exact if_neg hc
  unfold readNumber?
  cases hdigits : Nat.toDigits 10 n with
  | nil => exact absurd hdigits Nat.toDigits_ne_nil
  | cons d ds =>
    have hd : d.isDigit = true :=
      List.all_eq_true.1 (all_isDigit_toDigits n) d (hdigits ▸ List.mem_cons_self)
    rw [hdigits] at hwhole
    rw [List.cons_append] at hwhole ⊢
    split
    next sign cs heq =>
    split at heq
    · next hminus =>
      exact absurd hd (by rw [(List.cons.inj hminus).1]; decide)
    · obtain ⟨rfl, rfl⟩ := Prod.mk.inj heq
      simp [hwhole, hfraction, hexponent]

theorem isWritten_toString (n : ℕ) : IsWritten (toString n) (number (Nat.toDigits 10 n)) := by
  intro fuel rest hrest
  rw [toList_toString]
  cases hdigits : Nat.toDigits 10 n with
  | nil => exact absurd hdigits Nat.toDigits_ne_nil
  | cons d ds =>
    have hd : d.isDigit = true :=
      List.all_eq_true.1 (all_isDigit_toDigits n) d (hdigits ▸ List.mem_cons_self)
    have hspace : isSpace d = false := by
      rw [← Bool.not_eq_true]
      intro h
      simp only [isSpace, Bool.or_eq_true, beq_iff_eq] at h
      rcases h with ((rfl | rfl) | rfl) | rfl <;> cases hd
    have hnumber := readNumber?_toDigits hrest n
    rw [hdigits, List.cons_append] at hnumber
    rw [List.cons_append, readValue?, skipSpace_cons hspace]
    split
    case h_7 => rw [hnumber]; rfl
    all_goals
      next heq =>
      rw [(List.cons.inj heq).1] at hd
      cases hd

/-! ### Objects -/

/-- The characters of a written field. -/
def fieldChars (field : String × String × Json) : List Char :=
  (quoted field.1 ++ ":" ++ field.2.1).toList

theorem readField?_fieldChars {field : String × String × Json}
    (hfield : IsWritten field.2.1 field.2.2) (hrest : Ends rest) (fuel : ℕ) :
    readField? (readValue? (fuel + 1)) (fieldChars field ++ rest) =
      some ((some field.1, field.2.2), rest) := by
  have hlist : fieldChars field ++ rest =
      '"' :: (field.1.toList.flatMap (fun c => (escapedChar c).toList) ++
        '"' :: ':' :: (field.2.1.toList ++ rest)) := by
    simp [fieldChars, toList_quoted]
  rw [hlist, readField?, skipSpace_cons (by decide)]
  simp only [readCodes?_escaped, skipSpace_cons (show isSpace ':' = false by decide),
    hfield fuel rest hrest, textOf?_map_toNat, Option.map_some]

/-- The characters of the fields of an object after the first, and of what comes after it. -/
def laterChars (fields : List (String × String × Json)) (rest : List Char) : List Char :=
  fields.flatMap (fun field => ',' :: fieldChars field) ++ '\x7d' :: rest

theorem ends_laterChars (fields : List (String × String × Json)) (rest : List Char) :
    Ends (laterChars fields rest) := by
  cases fields with
  | nil => exact fun c hc => Or.inr (Option.some.inj hc).symm
  | cons f fs => exact fun c hc => Or.inl (Option.some.inj hc).symm

theorem laterChars_cons (field : String × String × Json) (fields : List (String × String × Json))
    (rest : List Char) :
    laterChars (field :: fields) rest = ',' :: (fieldChars field ++ laterChars fields rest) := by
  rw [laterChars, List.flatMap_cons, List.append_assoc]
  rfl

theorem readFields?_laterChars {fields : List (String × String × Json)}
    (hfields : ∀ field ∈ fields, IsWritten field.2.1 field.2.2) (fuel : ℕ) {k : ℕ}
    (hk : fields.length < k) (rest : List Char) :
    readFields? (readValue? (fuel + 1)) k (laterChars fields rest) =
      some (fields.map fun field => (some field.1, field.2.2), rest) := by
  induction fields generalizing k with
  | nil =>
    obtain ⟨k, rfl⟩ := Nat.exists_eq_succ_of_ne_zero (Nat.ne_of_gt hk)
    rw [laterChars, List.flatMap_nil, List.nil_append, readFields?, skipSpace_cons (by decide)]
    rfl
  | cons field fields ih =>
    obtain ⟨k, rfl⟩ := Nat.exists_eq_succ_of_ne_zero (Nat.ne_of_gt (Nat.zero_lt_of_lt hk))
    have hrest := ih (fun f hf => hfields f (List.mem_cons_of_mem _ hf)) (Nat.lt_of_succ_lt_succ hk)
    rw [laterChars_cons, readFields?, skipSpace_cons (by decide)]
    simp only [readField?_fieldChars (hfields field List.mem_cons_self)
      (ends_laterChars fields rest) fuel, hrest]
    rfl

theorem intercalate_comma (x : List Char) (xs : List (List Char)) :
    [','].intercalate (x :: xs) = x ++ xs.flatMap (',' :: ·) := by
  induction xs generalizing x with
  | nil => simp
  | cons y xs ih =>
    rw [List.intercalate_cons_cons, ih, List.flatMap_cons]
    simp

theorem toList_writtenObject (field : String × String × Json)
    (fields : List (String × String × Json)) :
    (writtenObject ((field :: fields).map fun f => (f.1, f.2.1))).toList =
      '\x7b' :: (fieldChars field ++ laterChars fields []) := by
  have hjoined := intercalate_comma (fieldChars field) (fields.map fieldChars)
  rw [List.flatMap_map] at hjoined
  simp only [writtenObject, String.toList_append, String.toList_intercalate, List.map_map,
    laterChars]
  rw [← List.append_assoc (fieldChars field), ← hjoined]
  rfl

theorem length_lt_laterChars (fields : List (String × String × Json)) (rest : List Char) :
    fields.length < (laterChars fields rest).length := by
  induction fields with
  | nil => simp [laterChars]
  | cons field fields ih =>
    rw [laterChars_cons, List.length_cons, List.length_cons, List.length_append]
    omega

/-- An object is read with its fields in order, the values of which are as they were written. -/
theorem read?_writtenObject (field : String × String × Json)
    {fields : List (String × String × Json)} (hfield : IsWritten field.2.1 field.2.2)
    (hfields : ∀ f ∈ fields, IsWritten f.2.1 f.2.2) :
    read? (writtenObject ((field :: fields).map fun f => (f.1, f.2.1))) =
      some (object ((field :: fields).map fun f => (some f.1, f.2.2))) := by
  have hlist := toList_writtenObject field fields
  obtain ⟨cs, hcs⟩ : ∃ cs, fieldChars field ++ laterChars fields [] = '"' :: cs := by
    simp [fieldChars, toList_quoted]
  -- The input is longer than it has fields.
  obtain ⟨fuel, hfuel, hlater⟩ : ∃ fuel,
      (writtenObject ((field :: fields).map fun f => (f.1, f.2.1))).length = fuel + 1 ∧
        fields.length < fuel + 1 := by
    have hlength := length_lt_laterChars fields []
    refine ⟨(fieldChars field ++ laterChars fields []).length, ?_, ?_⟩
    · rw [← String.length_toList, hlist, List.length_cons]
    · rw [List.length_append]
      omega
  have hfirst := readField?_fieldChars hfield (ends_laterChars fields []) fuel
  have hothers := readFields?_laterChars hfields fuel hlater []
  rw [hcs] at hfirst hlist
  have hvalue : readValue? (fuel + 2) ('\x7b' :: '"' :: cs) =
      some (object ((field :: fields).map fun f => (some f.1, f.2.2)), []) := by
    rw [readValue?, skipSpace_cons (by decide)]
    simp [skipSpace_cons (show isSpace '"' = false by decide), hfirst, hothers]
  rw [read?, hlist, hfuel, hvalue]
  rfl

end Json

namespace Card

/-- A card reads back from its record. -/
theorem ofRecord?_record {c : Card} (hc : c.color ≤ largest64) : ofRecord? c.record = some c := by
  have hfields : ∀ f ∈ [("format", Json.quoted c.format, Json.string (some c.format)),
      ("rawValue", Json.quoted c.rawValue, .string (some c.rawValue)),
      ("name", Json.quoted c.name, .string (some c.name)),
      ("color", toString c.color, .number (Nat.toDigits 10 c.color))],
      Json.IsWritten f.2.1 f.2.2 := by
    simp only [List.forall_mem_cons, List.not_mem_nil, false_implies, implies_true, and_true]
    exact ⟨Json.isWritten_quoted _, Json.isWritten_quoted _, Json.isWritten_quoted _,
      Json.isWritten_toString _⟩
  have hread := Json.read?_writtenObject ("id", Json.quoted c.id, .string (some c.id))
    (Json.isWritten_quoted c.id) hfields
  have hcolor := ofDecimalDigits?_toDigits hc
  rw [ofRecord?, record]
  refine (congrArg (·.bind ofJson?) hread).trans ?_
  simp [ofJson?, ofFields?, Json.namesHaveText, Json.field?, Json.optionalField?, Json.fieldsNamed,
    Json.text?, Json.natural?, hcolor]

/-- A number is no record of a card. -/
theorem ofRecord?_toString (n : ℕ) : ofRecord? (toString n) = none := by
  have hvalue := Json.isWritten_toString n (toString n).length [] fun c hc => by cases hc
  rw [List.append_nil] at hvalue
  rw [ofRecord?, Json.read?, hvalue]
  rfl

end Card

/-! ### Saved cards -/

/-- The record of a card is an object with its fields in order: texts are quoted, and the colour is
written in decimal digits. -/
theorem Card.record_eq (c : Card) :
    c.record = "\x7b\"id\":" ++ Json.quoted c.id ++ ",\"format\":" ++ Json.quoted c.format ++
      ",\"rawValue\":" ++ Json.quoted c.rawValue ++ ",\"name\":" ++ Json.quoted c.name ++
      ",\"color\":" ++ toString c.color ++ "\x7d" := by
  have hid : Json.quoted "id" = "\"id\"" := by decide
  have hformat : Json.quoted "format" = "\"format\"" := by decide
  have hraw : Json.quoted "rawValue" = "\"rawValue\"" := by decide
  have hname : Json.quoted "name" = "\"name\"" := by decide
  have hcolor : Json.quoted "color" = "\"color\"" := by decide
  simp only [record, writtenObject, List.map_cons, List.map_nil, hid, hformat, hraw, hname, hcolor]
  rw [← String.toList_inj]
  simp

namespace Wallet

variable {s : Store} {c : Card} {key : String}

theorem get?_save (s : Store) (c : Card) (key : String) :
    (save s c).get? key = if key = c.id then some c.record else s.get? key :=
  Store.get?_set s c.id key c.record

theorem get?_delete (s : Store) (id key : String) :
    (delete s id).get? key = if key = id then none else s.get? key :=
  Store.get?_erase s id key

/-- Saving a card writes its record under its identifier and nothing else, and loading gives the
card back.  Deleting it then leaves nothing under the identifier, and everything else as it was. -/
theorem load_save (s : Store) (hcolor : c.color ≤ largest64) :
    (save s c).get? c.id =
        some ("\x7b\"id\":" ++ Json.quoted c.id ++ ",\"format\":" ++ Json.quoted c.format ++
          ",\"rawValue\":" ++ Json.quoted c.rawValue ++ ",\"name\":" ++ Json.quoted c.name ++
          ",\"color\":" ++ toString c.color ++ "\x7d") ∧
      load (save s c) c.id = .ok c ∧
      (∀ key, key ≠ c.id → (save s c).get? key = s.get? key) ∧
      load (delete (save s c) c.id) c.id = .error (.notFound c.id) ∧
      ∀ key, key ≠ c.id → (delete (save s c) c.id).get? key = s.get? key := by
  have hsaved : (save s c).get? c.id = some c.record := by rw [get?_save, if_pos rfl]
  have hother : ∀ key, key ≠ c.id → (save s c).get? key = s.get? key :=
    fun key hkey => by rw [get?_save, if_neg hkey]
  have hdeleted : (delete (save s c) c.id).get? c.id = none := by rw [get?_delete, if_pos rfl]
  refine ⟨by rw [hsaved, Card.record_eq], ?_, hother, ?_, fun key hkey => ?_⟩
  · rw [load, hsaved]
    simp only [Card.ofRecord?_record hcolor]
  · rw [load, hdeleted]
  · rw [get?_delete, if_neg hkey, hother key hkey]

/-- A card with quotes, backslashes, controls and letters of all planes, and the largest colour. -/
def awkwardCard : Card :=
  ⟨"card.\"1\"", "qr_code", "C:\\\u0000\u001f\n", "Späti \u2028😀", 18446744073709551615⟩

theorem load_save_awkwardCard :
    awkwardCard.color ≤ largest64 ∧
      load (save ((Store.empty.set "card.1" "no record").set counterKey "1") awkwardCard)
        "card.\"1\"" = .ok awkwardCard :=
  have hcolor : awkwardCard.color ≤ largest64 := by decide
  ⟨hcolor, (load_save _ hcolor).2.1⟩

end Wallet

end LiveMarkup
