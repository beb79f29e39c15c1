import LiveMarkup.Proofs.Markup.References
import LiveMarkup.Proofs.Template.Sketches

/-!
# References that a base completes

A character reference can begin right before a marker and reach into it.  A hexadecimal code takes
up the whole base, as all of its characters are digits.  Only two names are completed by a base:
`par` by every one, since `para` is a name, and `fr` by those that begin with `ac12`, `ac14` or
`ac34`.  In all other cases the base does not matter to the reference that is read
(`Reference.read?_before`).
-/

namespace LiveMarkup

/-- How the bases begin that complete the name of a fraction. -/
def fractionEnds : List (List Char) := ["ac12".toList, "ac14".toList, "ac34".toList]

/-- The base completes the name of a fraction that begins with `fr`. -/
def CompletesFraction (base : String) : Prop :=
  ∃ word ∈ fractionEnds, word.isPrefixOf base.toList = true

instance (base : String) : Decidable (CompletesFraction base) :=
  inferInstanceAs (Decidable (∃ word ∈ fractionEnds, word.isPrefixOf base.toList = true))

namespace Reference

variable {base : String} {cs rest : List Char}

/-! ### Codes -/

theorem leadingDigits_append {β : ℕ} (cs rest : List Char) :
    leadingDigits β (cs ++ rest) =
      if (leadingDigits β cs).length = cs.length then leadingDigits β cs ++ leadingDigits β rest
      else leadingDigits β cs := by
  induction cs with
  | nil => rfl
  | cons c cs ih =>
    cases hdigit : digitIn? β c with
    | none => simp [leadingDigits, hdigit]
    | some d =>
      simp only [List.cons_append, leadingDigits, hdigit, ih, List.length_cons,
        Nat.add_right_cancel_iff]
      split_ifs <;> rfl

theorem length_leadingDigits_le {β : ℕ} (cs : List Char) :
    (leadingDigits β cs).length ≤ cs.length := by
  induction cs with
  | nil => exact le_rfl
  | cons c cs ih =>
    rw [leadingDigits]
    split <;> simp [ih]

/-- A code ends where no digit and no semicolon follows. -/
theorem readCode?_append {β : ℕ} (skipped : ℕ) {c : Char}
    (hc : digitIn? β c = none) (hsemicolon : c ≠ ';') (cs rest : List Char) :
    readCode? β skipped (cs ++ c :: rest) = readCode? β skipped cs := by
  have hlength := length_leadingDigits_le (β := β) cs
  have hdigits : leadingDigits β (cs ++ c :: rest) = leadingDigits β cs := by
    rw [leadingDigits_append, leadingDigits, hc]
    split_ifs <;> simp
  have hhead : ((cs ++ c :: rest).drop (leadingDigits β cs).length).head? = some ';' ↔
      (cs.drop (leadingDigits β cs).length).head? = some ';' := by
    rw [List.drop_append_of_le_length hlength]
    cases cs.drop (leadingDigits β cs).length <;> simp [hsemicolon]
  simp only [readCode?, hdigits]
  split
  · rfl
  · simp only [hhead]

/-- A code that ends among the characters does not depend on what follows them. -/
theorem readCode?_append_of_lt {β : ℕ} (skipped : ℕ) (hlt : (leadingDigits β cs).length < cs.length)
    (rest : List Char) : readCode? β skipped (cs ++ rest) = readCode? β skipped cs := by
  have hdigits : leadingDigits β (cs ++ rest) = leadingDigits β cs := by
    rw [leadingDigits_append, if_neg hlt.ne]
  have hhead : ((cs ++ rest).drop (leadingDigits β cs).length).head? =
      (cs.drop (leadingDigits β cs).length).head? := by
    rw [List.drop_append_of_le_length hlt.le]
    cases hdrop : cs.drop (leadingDigits β cs).length with
    | nil => exact absurd (List.drop_eq_nil_iff.1 hdrop) (by omega)
    | cons => rfl
  simp only [readCode?, hdigits]
  split
  · rfl
  · simp only [hhead]

theorem length_of_readCode? {β skipped : ℕ} {r : Reference}
    (h : readCode? β skipped cs = some r) : r.length ≤ skipped + cs.length := by
  have hlength := length_leadingDigits_le (β := β) cs
  unfold readCode? at h
  split at h
  · cases h
  · obtain rfl := Option.some.inj h
    dsimp only
    split_ifs with hsemicolon
    · have hlt : (leadingDigits β cs).length < cs.length := by
        by_contra hge
        rw [List.drop_eq_nil_of_le (Nat.le_of_not_lt hge)] at hsemicolon
        cases hsemicolon
      omega
    · omega

theorem isSome_digitIn?_of_mem_hexDigits :
    ∀ c ∈ hexDigits, (digitIn? 16 c).isSome = true := List.all_eq_true.1 (by decide)

theorem length_leadingDigits_of_hex (hcs : ∀ c ∈ cs, c ∈ hexDigits) :
    (leadingDigits 16 cs).length = cs.length := by
  induction cs with
  | nil => rfl
  | cons c cs ih =>
    obtain ⟨d, hd⟩ := Option.isSome_iff_exists.1
      (isSome_digitIn?_of_mem_hexDigits c (hcs c List.mem_cons_self))
    simp [leadingDigits, hd, ih fun e he => hcs e (List.mem_cons_of_mem c he)]

theorem le_foldl_digits (values : List ℕ) (n : ℕ) :
    n * 16 ^ values.length ≤ values.foldl (fun n d => n * 16 + d) n := by
  induction values generalizing n with
  | nil => simp
  | cons d values ih =>
    refine le_trans ?_ (ih (n * 16 + d))
    rw [List.length_cons, pow_succ', ← mul_assoc]
    exact Nat.mul_le_mul_right _ (Nat.le_add_right _ d)

/-- A hexadecimal code before a base takes it up, and is no code of a character then. -/
theorem readCode?_base (hb : IsBase base) (skipped : ℕ)
    (hcs : (leadingDigits 16 cs).length = cs.length) (rest : List Char) :
    readCode? 16 skipped (cs ++ (base.toList ++ '-' :: rest)) =
      some ⟨('\ufffd').toString, skipped + cs.length + 17⟩ := by
  obtain ⟨bs, hbase, hlength⟩ := hb.exists_cons
  have hbs : (leadingDigits 16 bs).length = 16 := by
    rw [length_leadingDigits_of_hex fun c hc => hb.isDigit c (hbase ▸ List.mem_cons_of_mem _ hc),
      hlength]
  have hdigits : leadingDigits 16 (cs ++ (base.toList ++ '-' :: rest)) =
      leadingDigits 16 cs ++ 10 :: leadingDigits 16 bs := by
    have ha : digitIn? 16 'a' = some 10 := by decide
    have hdash : digitIn? 16 '-' = none := by decide
    rw [leadingDigits_append, if_pos hcs, hbase, List.cons_append, leadingDigits, ha,
      leadingDigits_append, if_pos (hbs.trans hlength.symm), leadingDigits, hdash, List.append_nil]
  have hcode : 16 ^ 16 ≤ ofDigitValues 16 (leadingDigits 16 cs ++ 10 :: leadingDigits 16 bs) := by
    rw [ofDigitValues, List.foldl_append, List.foldl_cons]
    refine le_trans ?_ (le_foldl_digits _ _)
    rw [hbs]
    exact Nat.le_mul_of_pos_left _ (by omega)
  have hlong : (leadingDigits 16 cs ++ 10 :: leadingDigits 16 bs).length = cs.length + 17 := by
    rw [List.length_append, List.length_cons, hcs, hbs]
  have hhead : ((cs ++ (base.toList ++ '-' :: rest)).drop (cs.length + 17)).head? = some '-' := by
    rw [← List.append_assoc, List.drop_append_of_le_length (by simp [hb.length_eq]),
      List.drop_eq_nil_of_le (by simp [hb.length_eq])]
    rfl
  have hchar : charOfCode (ofDigitValues 16 (leadingDigits 16 cs ++ 10 :: leadingDigits 16 bs)) =
      '\ufffd' := by
    rw [charOfCode, if_pos]
    right
    unfold Nat.isValidChar
    omega
  unfold readCode?
  rw [hdigits]
  split
  · next hnil => simp at hnil
  · dsimp only
    rw [hchar, hlong, hhead]
    simp [Nat.add_assoc]

/-! ### Names -/

/-- The known names that a base can complete, each with what the base has of it. -/
def completions : List (List Char × List Char) :=
  ("para".toList, ['a']) :: fractionEnds.map fun word => ("fr".toList ++ word, word)

/-- A part of a base from its beginning on. -/
def BeginsBase (word : List Char) : Prop := word.head? = some 'a' ∧ ∀ c ∈ word, c ∈ hexDigits

instance (word : List Char) : Decidable (BeginsBase word) :=
  have : Decidable (∀ c ∈ word, c ∈ hexDigits) := List.decidableBAll _ word
  inferInstanceAs (Decidable (_ ∧ _))

/-- A name without dashes that ends with a semicolon or does not end like the beginning of a base,
except for those that a base can complete. -/
def Incomplete (entry : String × String) : Prop :=
  0x2d ∉ bytes entry.1 ∧ ((bytes entry.1).getLast? = some 0x3b ∨
    ∀ word ∈ entry.1.toList.tails, BeginsBase word → (entry.1.toList, word) ∈ completions)

instance (entry : String × String) : Decidable (Incomplete entry) :=
  inferInstanceAs (Decidable (_ ∧ (_ ∨ _)))

theorem incomplete_of_mem_tables : ∀ names ∈ tables, ∀ entry ∈ names, Incomplete entry := by
  decide +kernel

theorem incomplete_of_mem_namesAt {c : Char} {entry : String × String} (h : entry ∈ namesAt c) :
    Incomplete entry := by
  rcases namesAt_cases c with hnil | hmem
  · rw [hnil] at h
    exact absurd h List.not_mem_nil
  · exact incomplete_of_mem_tables _ hmem entry h

theorem any_getLast?_utf8EncodeChar : ∀ c ∈ hexDigits,
    (String.utf8EncodeChar c).getLast?.any (· != 0x3b) = true := List.all_eq_true.1 (by decide)

/-- A name that ends in a base is one of those that a base can complete. -/
theorem mem_completions (hb : IsBase base) {c : Char} {entry : String × String}
    (hentry : entry ∈ namesAt c) {word : List Char} (hname : entry.1.toList = cs ++ word)
    (hne : word ≠ []) (hbegin : word <+: base.toList ++ '-' :: rest) :
    (entry.1.toList, word) ∈ completions ∧ word <+: base.toList := by
  obtain ⟨hdash, hlast⟩ := incomplete_of_mem_namesAt hentry
  have hbase : word <+: base.toList := by
    rcases List.prefix_or_prefix_of_prefix hbegin
      (⟨rest, by simp⟩ : base.toList ++ ['-'] <+: base.toList ++ '-' :: rest) with hle | hge
    · rcases List.prefix_concat_iff.1 hle with rfl | hle
      · exact absurd (bytes_eq entry.1 ▸ List.mem_flatMap.2 ⟨'-', by simp [hname], by decide⟩) hdash
      · exact hle
    · exact absurd (bytes_eq entry.1 ▸ List.mem_flatMap.2
        ⟨'-', hname ▸ List.mem_append_right cs (hge.subset (by simp)), by decide⟩) hdash
  refine ⟨?_, hbase⟩
  rcases hlast with hlast | hwords
  · exfalso
    obtain ⟨init, last, rfl⟩ := List.eq_nil_or_concat word |>.resolve_left hne
    obtain ⟨byte, hbyte, hsemicolon⟩ := (Option.any_eq_true _ _).1 (any_getLast?_utf8EncodeChar last
      (hb.isDigit last (hbase.subset (by simp))))
    rw [bytes_eq, hname, List.concat_eq_append, ← List.append_assoc, List.flatMap_append,
      List.flatMap_singleton, List.getLast?_append, hbyte, Option.some_or] at hlast
    rw [Option.some.inj hlast] at hsemicolon
    cases hsemicolon
  · refine hwords word ((List.mem_tails _ _).2 ⟨cs, hname.symm⟩) ⟨?_, fun d hd => ?_⟩
    · obtain ⟨tail, htail⟩ := hbase
      obtain ⟨bs, hbs, -⟩ := hb.exists_cons
      cases word with
      | nil => exact absurd rfl hne
      | cons d word =>
        rw [hbs] at htail
        exact congrArg some (List.cons.inj htail).1
    · exact hb.isDigit d (hbase.subset hd)

/-- What is read of the names that begin with the characters when a base follows: they themselves
with what the base completes. -/
def completed (base : String) (cs : List Char) : List Char :=
  if cs = "par".toList then "para".toList
  else if cs = "fr".toList ∧ CompletesFraction base then "fr".toList ++ base.toList.take 4
  else cs

theorem completed_of_fraction {word : List Char} (hword : word ∈ fractionEnds)
    (hbegin : word <+: base.toList) : completed base "fr".toList = "fr".toList ++ word := by
  have hcompletes : CompletesFraction base := ⟨word, hword, List.isPrefixOf_iff_prefix.2 hbegin⟩
  have hlength : ∀ word ∈ fractionEnds, word.length = 4 := by decide
  rw [completed, if_neg (by decide), if_pos ⟨rfl, hcompletes⟩, ← hlength word hword,
    ← List.prefix_iff_eq_take.1 hbegin]

theorem completed_prefix (hb : IsBase base) (cs rest : List Char) :
    cs <+: completed base cs ∧ completed base cs <+: cs ++ (base.toList ++ rest) := by
  unfold completed
  split_ifs with hpar hfr
  · obtain ⟨bs, hbase, -⟩ := hb.exists_cons
    rw [hpar, hbase]
    exact ⟨⟨['a'], rfl⟩, ⟨bs ++ rest, rfl⟩⟩
  · rw [hfr.1]
    refine ⟨List.prefix_append _ _, (List.prefix_append_right_inj _).2 ?_⟩
    exact (List.take_prefix 4 _).trans (List.prefix_append _ _)
  · exact ⟨List.prefix_rfl, List.prefix_append _ _⟩

/-- A known name begins what stands before a base and the base itself exactly if it begins what can
be completed. -/
theorem isPrefixOf_completed (hb : IsBase base) {c : Char} {entry : String × String}
    (hentry : entry ∈ namesAt c) (cs rest : List Char) :
    entry.1.toList.isPrefixOf (cs ++ (base.toList ++ '-' :: rest)) =
      entry.1.toList.isPrefixOf (completed base cs) := by
  obtain ⟨hle, hge⟩ := completed_prefix hb cs ('-' :: rest)
  rw [Bool.eq_iff_iff, List.isPrefixOf_iff_prefix, List.isPrefixOf_iff_prefix]
  refine ⟨fun hname => ?_, fun hname => hname.trans hge⟩
  rcases List.prefix_or_prefix_of_prefix hname (List.prefix_append cs _) with h | ⟨word, hword⟩
  · exact h.trans hle
  by_cases hne : word = []
  · rw [← hword, hne, List.append_nil]
    exact hle
  have hbegin : word <+: base.toList ++ '-' :: rest := by
    rwa [← hword, List.prefix_append_right_inj] at hname
  obtain ⟨hmem, hbase⟩ := mem_completions hb hentry hword.symm hne hbegin
  rcases List.mem_cons.1 hmem with heq | hmem
  · obtain ⟨hname', rfl⟩ := Prod.mk.inj heq
    rw [hname'] at hword ⊢
    rw [show cs = "par".toList from List.append_cancel_right (hword.trans (by decide))]
    exact List.prefix_rfl
  · obtain ⟨end', hend, heq⟩ := List.mem_map.1 hmem
    obtain ⟨hname', rfl⟩ := Prod.mk.inj heq
    rw [← hname'] at hword ⊢
    rw [List.append_cancel_right hword, completed_of_fraction hend hbase]

theorem longest_congr {names : List (String × String)} {cs cs' : List Char}
    (h : ∀ entry ∈ names, entry.1.toList.isPrefixOf cs = entry.1.toList.isPrefixOf cs')
    (best : Option (String × String)) : longest cs best names = longest cs' best names := by
  induction names generalizing best with
  | nil => rfl
  | cons entry names ih =>
    have hrest := ih fun other hmem => h other (List.mem_cons_of_mem entry hmem)
    simp only [longest, h entry List.mem_cons_self, hrest]

/-- The longest known name before a base is that of what can be completed. -/
theorem longestName?_completed (hb : IsBase base) (cs rest : List Char) :
    longestName? (cs ++ (base.toList ++ '-' :: rest)) =
      longest (completed base cs) none (namesAt (cs.headD 'a')) := by
  obtain ⟨bs, hbase, -⟩ := hb.exists_cons
  have hhead : ∃ tail, cs ++ (base.toList ++ '-' :: rest) = cs.headD 'a' :: tail := by
    cases cs with
    | nil => exact ⟨bs ++ '-' :: rest, by rw [hbase]; rfl⟩
    | cons c cs => exact ⟨_, rfl⟩
  obtain ⟨tail, htail⟩ := hhead
  have hlongest := longest_congr
    (fun entry hentry => isPrefixOf_completed hb (c := cs.headD 'a') hentry cs rest) none
  rw [← hlongest, htail]
  rfl

theorem continuesWord_of_mem_hexDigits :
    ∀ c ∈ hexDigits, continuesWord (some c) = true := List.all_eq_true.1 (by decide)

/-- What is read before a base, where the base completes nothing: the name, unless it is left alone
since the word goes on. -/
def readBefore? (inValue : Bool) (cs : List Char) : Option Reference :=
  match longest cs none (namesAt (cs.headD 'a')) with
  | none => none
  | some (name, text) =>
    let next := (cs.drop name.length).headD 'a'
    if inValue && name.toList.getLast? != some ';' && continuesWord (some next) then none
    else some ⟨text, name.length⟩

theorem readName?_of_completed_eq (hb : IsBase base) (hcs : completed base cs = cs) (inValue : Bool)
    (rest : List Char) :
    readName? inValue (cs ++ (base.toList ++ '-' :: rest)) = readBefore? inValue cs := by
  rw [readName?, longestName?_completed hb, hcs, readBefore?]
  cases hlongest : longest cs none (namesAt (cs.headD 'a')) with
  | none => rfl
  | some entry =>
    obtain ⟨name, text⟩ := entry
    have hbegin : name.toList <+: cs :=
      (longest_cases hlongest).resolve_left (by simp) |>.2
    have hnext : ((cs ++ (base.toList ++ '-' :: rest)).drop name.length).head? =
        some ((cs.drop name.length).headD 'a') := by
      obtain ⟨bs, hbase, -⟩ := hb.exists_cons
      rw [← String.length_toList, List.drop_append_of_le_length hbegin.length_le, hbase]
      cases cs.drop name.toList.length <;> rfl
    simp only [hnext]

theorem length_of_readBefore? {inValue : Bool} {r : Reference}
    (h : readBefore? inValue cs = some r) : r.length ≤ cs.length := by
  unfold readBefore? at h
  split at h
  · cases h
  · next name text hlongest =>
    have hbegin : name.toList <+: cs :=
      (longest_cases hlongest).resolve_left (by simp) |>.2
    dsimp only at h
    split_ifs at h
    obtain rfl := Option.some.inj h
    rw [← String.length_toList]
    exact hbegin.length_le

theorem length_of_read? {r : Reference} {inValue : Bool} (h : read? inValue cs = some r) :
    r.length ≤ cs.length := by
  unfold read? at h
  split at h
  · exact (length_of_readCode? h).trans_eq (Nat.add_comm 2 _)
  · exact (length_of_readCode? h).trans_eq (Nat.add_comm 2 _)
  · exact (length_of_readCode? h).trans_eq (Nat.add_comm 1 _)
  · unfold readName? at h
    split at h
    · cases h
    · next name text hfound =>
      have hbegin := (longestName?_spec hfound).2
      dsimp only at h
      split_ifs at h
      obtain rfl := Option.some.inj h
      rw [← String.length_toList]
      exact hbegin.length_le

/-- A name that a base completes is known, stands for one character, and has no semicolon. -/
theorem exists_completed (hcs : completed base cs ≠ cs) : ∃ name c,
    longest (completed base cs) none (namesAt (cs.headD 'a')) = some (name, Char.toString c) ∧
      isNameChar c = false ∧ name.toList = completed base cs ∧
      name.toList.getLast? ≠ some ';' ∧
      name.length = cs.length + if cs = "par".toList then 1 else 4 := by
  by_cases hpar : cs = "par".toList
  · obtain rfl := hpar
    rw [show completed base "par".toList = "para".toList from if_pos rfl]
    exact ⟨"para", '¶', by decide +kernel⟩
  by_cases hfr : cs = "fr".toList ∧ CompletesFraction base
  · obtain ⟨rfl, word, hword, hbegin⟩ := hfr
    rw [completed_of_fraction hword (List.isPrefixOf_iff_prefix.1 hbegin)]
    simp only [fractionEnds, List.mem_cons, List.not_mem_nil, or_false] at hword
    rcases hword with rfl | rfl | rfl
    · exact ⟨"frac12", '½', by decide +kernel⟩
    · exact ⟨"frac14", '¼', by decide +kernel⟩
    · exact ⟨"frac34", '¾', by decide +kernel⟩
  · exact absurd (by rw [completed, if_neg hpar, if_neg hfr]) hcs

/-! ### References before a base -/

/-- How a reference is read that begins with the characters before a base: the base does not matter
to it, or it takes the first characters of the base as well, and stands for a character that is in
no marker.  In a value this is a code and takes all of the base. -/
inductive ReadsBefore (B : Set String) (inValue : Bool) (cs : List Char) : Prop where
  | apart (r? : Option Reference) (length_le : ∀ r ∈ r?, r.length ≤ cs.length)
    (read_eq : ∀ base ∈ B, ∀ rest, read? inValue (cs ++ (base.toList ++ '-' :: rest)) = r?)
  | into (taken : ℕ) (pos : 0 < taken) (taken_le : taken ≤ 17)
    (read_eq : ∀ base ∈ B, ∃ c, isNameChar c = false ∧ ∀ rest,
      read? inValue (cs ++ (base.toList ++ '-' :: rest)) =
        some ⟨Char.toString c, cs.length + taken⟩)
    (value : inValue = true → taken = 17 ∧ ∀ base ∈ B, ∀ rest,
      read? inValue (cs ++ (base.toList ++ '-' :: rest)) =
        some ⟨('\ufffd').toString, cs.length + 17⟩)

variable {B : Set String} (hB : ∀ base ∈ B, IsBase base) {inValue : Bool}

include hB

theorem readsBefore_name
    (hfr : cs = "fr".toList → (∀ base ∈ B, CompletesFraction base) ∨
      ∀ base ∈ B, ¬ CompletesFraction base)
    (hname : ∀ base ∈ B, ∀ rest, read? inValue (cs ++ (base.toList ++ '-' :: rest)) =
      readName? inValue (cs ++ (base.toList ++ '-' :: rest))) :
    ReadsBefore B inValue cs := by
  -- Either all bases complete a name or none does.
  have hall : (∀ base ∈ B, completed base cs = cs) ∨ ∀ base ∈ B, completed base cs ≠ cs := by
    by_cases hpar : cs = "par".toList
    · refine Or.inr fun base _ => ?_
      rw [completed, if_pos hpar, hpar]
      decide
    by_cases hcs : cs = "fr".toList
    · refine (hfr hcs).symm.imp (fun hnone base hbase => ?_) fun hall base hbase => ?_
      · rw [completed, if_neg hpar, if_neg fun h => hnone base hbase h.2]
      · obtain ⟨word, hword, hbegin⟩ := hall base hbase
        have hlonger : ∀ word ∈ fractionEnds, "fr".toList ++ word ≠ "fr".toList := by decide
        rw [hcs, completed_of_fraction hword (List.isPrefixOf_iff_prefix.1 hbegin)]
        exact hlonger word hword
    · exact Or.inl fun base _ => by rw [completed, if_neg hpar, if_neg fun h => hcs h.1]
  rcases hall with hsame | hlonger
  · refine .apart (readBefore? inValue cs) (fun r => length_of_readBefore?)
      fun base hbase rest => ?_
    rw [hname base hbase, readName?_of_completed_eq (hB base hbase) (hsame base hbase)]
  have hle : (if cs = "par".toList then 1 else 4) ≤ 4 := by split_ifs <;> omega
  cases inValue with
  | false =>
    refine .into (if cs = "par".toList then 1 else 4) (by split_ifs <;> omega) (by omega)
      (fun base hbase => ?_) (fun h => absurd h (by decide))
    obtain ⟨name, c, hlongest, hc, -, -, hlength⟩ := exists_completed (hlonger base hbase)
    refine ⟨c, hc, fun rest => ?_⟩
    rw [hname base hbase, readName?, longestName?_completed (hB base hbase), hlongest, ← hlength]
    rfl
  | true =>
    refine .apart none (by simp) fun base hbase rest => ?_
    obtain ⟨name, c, hlongest, -, -, hsemicolon, hlength⟩ := exists_completed (hlonger base hbase)
    have hnext : ∃ d ∈ hexDigits,
        ((cs ++ (base.toList ++ '-' :: rest)).drop name.length).head? = some d := by
      rw [hlength, ← List.drop_drop, List.drop_left,
        List.drop_append_of_le_length (by rw [(hB base hbase).length_eq]; omega)]
      cases hdrop : base.toList.drop (if cs = "par".toList then 1 else 4) with
      | nil =>
        have hlong := List.drop_eq_nil_iff.1 hdrop
        rw [(hB base hbase).length_eq] at hlong
        omega
      | cons d ds =>
        have hd : d ∈ base.toList := List.mem_of_mem_drop (hdrop ▸ List.mem_cons_self)
        exact ⟨d, (hB base hbase).isDigit d hd, rfl⟩
    obtain ⟨d, hd, hnext⟩ := hnext
    rw [hname base hbase, readName?, longestName?_completed (hB base hbase), hlongest]
    simp only [hnext, continuesWord_of_mem_hexDigits d hd]
    rw [if_pos (by simpa using hsemicolon)]

/-- A decimal code does not reach into a base. -/
theorem readsBefore_decimal (ds : List Char)
    (hcode : ∀ base ∈ B, ∀ rest, read? inValue (cs ++ (base.toList ++ '-' :: rest)) =
      readCode? 10 1 (ds ++ (base.toList ++ '-' :: rest)))
    (hlength : cs.length = 1 + ds.length) : ReadsBefore B inValue cs := by
  refine .apart (readCode? 10 1 ds) (fun r hr => hlength ▸ length_of_readCode? hr)
    fun base hbase rest => ?_
  obtain ⟨bs, hbs, -⟩ := (hB base hbase).exists_cons
  rw [hcode base hbase, hbs, List.cons_append, readCode?_append 1 (by decide) (by decide)]

/-- A hexadecimal code takes up a base if there is nothing between them. -/
theorem readsBefore_hex (ds : List Char)
    (hcode : ∀ base ∈ B, ∀ rest, read? inValue (cs ++ (base.toList ++ '-' :: rest)) =
      readCode? 16 2 (ds ++ (base.toList ++ '-' :: rest)))
    (hlength : cs.length = 2 + ds.length) : ReadsBefore B inValue cs := by
  by_cases hds : (leadingDigits 16 ds).length = ds.length
  · have hread (base : String) (hbase : base ∈ B) (rest : List Char) :
        read? inValue (cs ++ (base.toList ++ '-' :: rest)) =
          some ⟨('\ufffd').toString, cs.length + 17⟩ := by
      rw [hcode base hbase, readCode?_base (hB base hbase) 2 hds, hlength]
    exact .into 17 (by omega) le_rfl (fun base hbase => ⟨'\ufffd', by decide, hread base hbase⟩)
      fun _ => ⟨rfl, hread⟩
  · have hlt := lt_of_le_of_ne (length_leadingDigits_le ds) hds
    refine .apart (readCode? 16 2 ds) (fun r hr => hlength ▸ length_of_readCode? hr)
      fun base hbase rest => ?_
    rw [hcode base hbase, readCode?_append_of_lt 2 hlt]

/-- A reference before a base is read without it, or takes a part of it, with all bases alike. -/
theorem readsBefore (inValue : Bool) (cs : List Char)
    (hfr : cs = "fr".toList → (∀ base ∈ B, CompletesFraction base) ∨
      ∀ base ∈ B, ¬ CompletesFraction base) : ReadsBefore B inValue cs := by
  cases cs with
  | nil =>
    refine readsBefore_name hB hfr fun base hbase rest => ?_
    obtain ⟨bs, hbs, -⟩ := (hB base hbase).exists_cons
    rw [hbs]
    exact read?_of_ne (by decide) inValue _
  | cons c cs =>
    by_cases hc : c = '#'
    · subst hc
      cases cs with
      | nil =>
        refine readsBefore_decimal hB [] (fun base hbase rest => ?_) rfl
        obtain ⟨bs, hbs, -⟩ := (hB base hbase).exists_cons
        rw [hbs]
        rfl
      | cons d ds =>
        by_cases hx : d = 'x'
        · subst hx
          exact readsBefore_hex hB ds (fun _ _ _ => rfl) (by simp; omega)
        by_cases hX : d = 'X'
        · subst hX
          exact readsBefore_hex hB ds (fun _ _ _ => rfl) (by simp; omega)
        exact readsBefore_decimal hB (d :: ds) (fun base _ rest => by simp [read?, hx, hX])
          (by simp; omega)
    · exact readsBefore_name hB hfr fun base _ rest => read?_of_ne hc inValue _

end Reference

end LiveMarkup
