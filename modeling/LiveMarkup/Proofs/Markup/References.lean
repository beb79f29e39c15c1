import LiveMarkup.Proofs.Markup.Escapes
import LiveMarkup.Proofs.Text.ByteOrder

/-!
# What a character reference takes

A character reference that is read never reaches over a `<` (`Reference.not_mem_take_of_read?`), and
the text it stands for is no longer than what it takes (`Reference.length_text_le_of_read?`).  What
stands behind a `<` does not matter to it (`Reference.read?_append_lt`): no known name and no code
has this character.
-/

namespace LiveMarkup

namespace Reference

/-! ### Known names -/

/-- The bytes begin with a small one, another follows, and none is that of `<`. -/
def PlainBytes : List UInt8 → Prop
  | a :: b :: rest => a < 0x80 ∧ 0x3c ∉ a :: b :: rest
  | _ => False

instance : (bs : List UInt8) → Decidable (PlainBytes bs)
  | [] | [_] => isFalse id
  | a :: b :: rest => inferInstanceAs (Decidable (a < 0x80 ∧ 0x3c ∉ a :: b :: rest))

/-- A name of at least two characters without `<`, for a text of at most two characters.  The name
is looked at byte by byte. -/
def Modest (entry : String × String) : Prop :=
  PlainBytes (bytes entry.1) ∧ entry.2.toList.length ≤ 2

/-- The byte starts the code of a character. -/
def StartsCode (b : UInt8) : Bool := b < 0x80 || 0xc0 ≤ b

theorem startsCode_ofNat {n : ℕ} (hn : n < 256) (h : n < 128 ∨ 192 ≤ n) :
    StartsCode (UInt8.ofNat n) := by
  rw [StartsCode, Bool.or_eq_true, decide_eq_true_eq, decide_eq_true_eq, UInt8.lt_iff_toNat_lt,
    UInt8.le_iff_toNat_le, UInt8.toNat_ofNat_of_lt' hn]
  exact h

theorem exists_startsCode_mem_utf8EncodeChar (c : Char) :
    ∃ b ∈ String.utf8EncodeChar c, StartsCode b := by
  unfold String.utf8EncodeChar
  dsimp only
  split_ifs <;> exact ⟨_, List.mem_cons_self, startsCode_ofNat (by omega) (by omega)⟩

/-- A text has no more characters than bytes that start the code of one. -/
theorem length_toList_le_countP_startsCode (s : String) :
    s.toList.length ≤ (bytes s).countP StartsCode := by
  rw [bytes_eq]
  induction s.toList with
  | nil => exact Nat.le_refl 0
  | cons c cs ih =>
    have hc := List.countP_pos_iff.2 (exists_startsCode_mem_utf8EncodeChar c)
    rw [List.flatMap_cons, List.countP_append, List.length_cons]
    omega

/-- All lists of known names. -/
def tables : List (List (String × String)) :=
  [upperA, upperB, upperC, upperD, upperE, upperF, upperG, upperH, upperI, upperJ, upperK, upperL,
    upperM, upperN, upperO, upperP, upperQ, upperR, upperS, upperT, upperU, upperV, upperW, upperX,
    upperY, upperZ, lowerA, lowerB, lowerC, lowerD, lowerE, lowerF, lowerG, lowerH, lowerI, lowerJ,
    lowerK, lowerL, lowerM, lowerN, lowerO, lowerP, lowerQ, lowerR, lowerS, lowerT, lowerU, lowerV,
    lowerW, lowerX, lowerY, lowerZ]

-- On the bytes the tables are gone through several times faster than on the characters.
theorem bytes_of_mem_tables : ∀ names ∈ tables, ∀ entry ∈ names,
    PlainBytes (bytes entry.1) ∧ (bytes entry.2).countP StartsCode ≤ 2 := by
  decide +kernel

theorem modest_of_mem_tables {names : List (String × String)} (hnames : names ∈ tables)
    {entry : String × String} (hentry : entry ∈ names) : Modest entry := by
  obtain ⟨hname, htext⟩ := bytes_of_mem_tables names hnames entry hentry
  exact ⟨hname, (length_toList_le_countP_startsCode entry.2).trans htext⟩

theorem namesAt_cases (c : Char) : namesAt c = [] ∨ namesAt c ∈ tables := by
  unfold namesAt
  split <;> simp [tables]

theorem not_mem_of_plainBytes {s : String} (h : PlainBytes (bytes s)) : '<' ∉ s.toList := by
  intro hmem
  have hbyte : (0x3c : UInt8) ∈ bytes s := by
    rw [bytes_eq, List.mem_flatMap]
    exact ⟨'<', hmem, by decide⟩
  cases hbytes : bytes s with
  | nil => rw [hbytes] at h; exact h
  | cons a bs =>
    cases bs with
    | nil => rw [hbytes] at h; exact h
    | cons b bs =>
      rw [hbytes] at h hbyte
      exact h.2 hbyte

/-- The code of a character that begins with a small byte has no other byte. -/
theorem eq_nil_of_utf8EncodeChar {c : Char} {a : UInt8} {bs : List UInt8}
    (h : String.utf8EncodeChar c = a :: bs) (ha : a < 0x80) : bs = [] := by
  simp only [String.utf8EncodeChar] at h
  split_ifs at h
  · exact (List.cons.inj h).2.symm
  all_goals
    obtain ⟨rfl, -⟩ := List.cons.inj h
    rw [UInt8.lt_iff_toNat_lt, UInt8.toNat_ofNat_of_lt' (by simp [UInt8.size]; omega)] at ha
    simp at ha
    omega

theorem two_le_length_of_plainBytes {s : String} (h : PlainBytes (bytes s)) :
    2 ≤ s.toList.length := by
  rw [bytes_eq] at h
  match hs : s.toList with
  | [] => rw [hs] at h; exact h.elim
  | [c] =>
    rw [hs, List.flatMap_singleton] at h
    match hc : String.utf8EncodeChar c with
    | [] => rw [hc] at h; exact h.elim
    | [_] => rw [hc] at h; exact h.elim
    | a :: b :: bs =>
      rw [hc] at h
      exact absurd (eq_nil_of_utf8EncodeChar hc h.1) (List.cons_ne_nil b bs)
  | _ :: _ :: cs => simp

theorem modest_of_mem_namesAt {c : Char} {entry : String × String} (h : entry ∈ namesAt c) :
    Modest entry := by
  rcases namesAt_cases c with hnil | hmem
  · rw [hnil] at h
    exact absurd h List.not_mem_nil
  · exact modest_of_mem_tables hmem h

/-! ### What is taken -/

variable {cs : List Char}

/-- A word does not reach over a character that it does not have. -/
theorem isPrefixOf_append_cons {word : List Char} {x : Char} (hword : x ∉ word)
    (cs rest : List Char) : word.isPrefixOf (cs ++ x :: rest) = word.isPrefixOf cs := by
  induction cs generalizing word with
  | nil =>
    cases word with
    | nil => rfl
    | cons c word =>
      rw [List.mem_cons, not_or] at hword
      simp [List.isPrefixOf, Ne.symm hword.1]
  | cons d cs ih =>
    cases word with
    | nil => rfl
    | cons c word =>
      rw [List.mem_cons, not_or] at hword
      simp [List.isPrefixOf, ih hword.2]

/-- What is found among the names begins the input. -/
theorem longest_cases {best : Option (String × String)} {names : List (String × String)}
    {entry : String × String} (h : longest cs best names = some entry) :
    best = some entry ∨ entry ∈ names ∧ entry.1.toList <+: cs := by
  induction names generalizing best with
  | nil => exact Or.inl h
  | cons other names ih =>
    simp only [longest] at h
    split_ifs at h with hlonger
    · rw [Bool.and_eq_true, List.isPrefixOf_iff_prefix] at hlonger
      rcases ih h with heq | ⟨hmem, hprefix⟩
      · obtain rfl := Option.some.inj heq
        exact Or.inr ⟨List.mem_cons_self, hlonger.2⟩
      · exact Or.inr ⟨List.mem_cons_of_mem other hmem, hprefix⟩
    · rcases ih h with heq | ⟨hmem, hprefix⟩
      · exact Or.inl heq
      · exact Or.inr ⟨List.mem_cons_of_mem other hmem, hprefix⟩

theorem longest_append_lt {names : List (String × String)}
    (hnames : ∀ entry ∈ names, '<' ∉ entry.1.toList) (best : Option (String × String))
    (cs rest : List Char) :
    longest (cs ++ '<' :: rest) best names = longest cs best names := by
  induction names generalizing best with
  | nil => rfl
  | cons entry names ih =>
    have hrest := ih fun other hmem => hnames other (List.mem_cons_of_mem entry hmem)
    simp only [longest, isPrefixOf_append_cons (hnames entry List.mem_cons_self), hrest]

theorem longestName?_append_lt (cs rest : List Char) :
    longestName? (cs ++ '<' :: rest) = longestName? cs := by
  cases cs with
  | nil => rfl
  | cons c cs =>
    exact longest_append_lt
      (fun entry hmem => not_mem_of_plainBytes (modest_of_mem_namesAt hmem).1) none (c :: cs) rest

theorem longestName?_spec {entry : String × String} (h : longestName? cs = some entry) :
    Modest entry ∧ entry.1.toList <+: cs := by
  cases cs with
  | nil => cases h
  | cons c cs =>
    rcases longest_cases h with hbest | ⟨hmem, hprefix⟩
    · cases hbest
    · exact ⟨modest_of_mem_namesAt hmem, hprefix⟩

/-- The digits that begin a list are no more than its characters, and `<` is none of them. -/
theorem leadingDigits_spec {base : Nat} (hbase : digitIn? base '<' = none) (cs : List Char) :
    '<' ∉ cs.take (leadingDigits base cs).length ∧ (leadingDigits base cs).length ≤ cs.length := by
  induction cs with
  | nil => simp [leadingDigits]
  | cons c cs ih =>
    cases hdigit : digitIn? base c with
    | none => simp [leadingDigits, hdigit]
    | some d =>
      have hc : '<' ≠ c := by
        rintro rfl
        rw [hbase] at hdigit
        cases hdigit
      simp [leadingDigits, hdigit, hc, ih.1, ih.2]

theorem leadingDigits_append_lt {base : Nat} (hbase : digitIn? base '<' = none)
    (cs rest : List Char) : leadingDigits base (cs ++ '<' :: rest) = leadingDigits base cs := by
  induction cs with
  | nil => simp [leadingDigits, hbase]
  | cons c cs ih => simp only [List.cons_append, leadingDigits, ih]

theorem readCode?_append_lt {base : Nat} (hbase : digitIn? base '<' = none) (skipped : Nat)
    (cs rest : List Char) :
    readCode? base skipped (cs ++ '<' :: rest) = readCode? base skipped cs := by
  have hlength := (leadingDigits_spec hbase cs).2
  have hhead : ((cs ++ '<' :: rest).drop (leadingDigits base cs).length).head? = some ';' ↔
      (cs.drop (leadingDigits base cs).length).head? = some ';' := by
    rw [List.drop_append_of_le_length hlength]
    cases cs.drop (leadingDigits base cs).length <;> simp
  simp only [readCode?, leadingDigits_append_lt hbase]
  split
  · rfl
  · simp only [hhead]

/-- A code takes more than is skipped, none of it a `<`, and stands for one character. -/
theorem readCode?_spec {base skipped : Nat} (hbase : digitIn? base '<' = none) {r : Reference}
    (h : readCode? base skipped cs = some r) :
    ∃ n, r.length = skipped + n ∧ '<' ∉ cs.take n ∧ r.text.toList.length ≤ n := by
  unfold readCode? at h
  split at h
  · cases h
  · next digits hne =>
    obtain rfl := Option.some.inj h
    have hpositive : 0 < (leadingDigits base cs).length :=
      List.length_pos_of_ne_nil fun hnil => hne hnil
    have hdigits := (leadingDigits_spec hbase cs).1
    refine ⟨_, Nat.add_assoc _ _ _, ?_, ?_⟩
    · rw [List.take_add, List.mem_append, not_or]
      refine ⟨hdigits, ?_⟩
      split_ifs with hsemicolon
      · obtain ⟨rest, hrest⟩ := List.head?_eq_some_iff.1 hsemicolon
        simp [hrest]
      · simp
    · show ((charOfCode _).toString).toList.length ≤ _
      rw [Char.toString_eq_singleton, String.toList_singleton, List.length_singleton]
      omega

theorem readName?_spec {inValue : Bool} {r : Reference} (h : readName? inValue cs = some r) :
    '<' ∉ cs.take r.length ∧ r.text.toList.length ≤ r.length := by
  unfold readName? at h
  split at h
  · cases h
  · next name text hfound =>
    obtain ⟨⟨hname, htext⟩, hprefix⟩ := longestName?_spec hfound
    dsimp only at h
    split_ifs at h
    obtain rfl := Option.some.inj h
    have htake : cs.take name.length = name.toList := by
      rw [← String.length_toList]
      exact (List.prefix_iff_eq_take.1 hprefix).symm
    refine ⟨?_, ?_⟩
    · rw [htake]
      exact not_mem_of_plainBytes hname
    · rw [← String.length_toList]
      exact htext.trans (two_le_length_of_plainBytes hname)

/-- A reference does not reach over a `<`, and its text is no longer than what it takes. -/
theorem read?_spec {inValue : Bool} {r : Reference} (h : read? inValue cs = some r) :
    '<' ∉ cs.take r.length ∧ r.text.toList.length ≤ r.length := by
  have hcode {base skipped : Nat} (hbase : digitIn? base '<' = none) (before : List Char)
      (hbefore : before.length = skipped) (hplain : '<' ∉ before) {cs : List Char}
      (h : readCode? base skipped cs = some r) :
      '<' ∉ (before ++ cs).take r.length ∧ r.text.toList.length ≤ r.length := by
    obtain ⟨n, hlength, htake, htext⟩ := readCode?_spec hbase h
    rw [hlength, ← hbefore, List.take_length_add_append, List.mem_append, not_or]
    exact ⟨⟨hplain, htake⟩, by omega⟩
  unfold read? at h
  split at h
  · exact hcode (by decide) ['#', 'x'] rfl (by decide) h
  · exact hcode (by decide) ['#', 'X'] rfl (by decide) h
  · exact hcode (by decide) ['#'] rfl (by decide) h
  · exact readName?_spec h

/-- What stands behind a `<` does not matter to the reference that is read before it. -/
theorem read?_append_lt (cs rest : List Char) :
    read? false (cs ++ '<' :: rest) = read? false cs := by
  have hname (cs : List Char) : readName? false (cs ++ '<' :: rest) = readName? false cs := by
    simp [readName?, longestName?_append_lt]
  have hcode (skipped : Nat) (cs : List Char) :
      readCode? 10 skipped (cs ++ '<' :: rest) = readCode? 10 skipped cs :=
    readCode?_append_lt (by decide) skipped cs rest
  cases cs with
  | nil => exact hname []
  | cons c cs =>
    by_cases hc : c = '#'
    · subst hc
      cases cs with
      | nil => exact hcode 1 []
      | cons d cs =>
        by_cases hx : d = 'x'
        · subst hx
          exact readCode?_append_lt (by decide) 2 cs rest
        by_cases hX : d = 'X'
        · subst hX
          exact readCode?_append_lt (by decide) 2 cs rest
        simpa [read?, hx, hX] using hcode 1 (d :: cs)
    · rw [List.cons_append, read?_of_ne hc, read?_of_ne hc]
      exact hname (c :: cs)

end Reference

end LiveMarkup
