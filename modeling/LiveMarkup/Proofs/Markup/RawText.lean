import LiveMarkup.Proofs.Markup.Parsed
import LiveMarkup.Proofs.Markup.References

/-!
# Text that is written as it is

The text of a raw element is written without escaping, and the reader splits it like any other
markup.  It is read back as it was exactly if it is literal (`Literal`): no `<` in it begins markup
and no `&` a character reference (`Tree.ofMarkup_raw`, `Forest.snapshot_parse_raw`).

A literal text is read letter by letter (`ReadState.run_literal`).  That no other text is read back
follows from how much text the reader can complete: never more characters than it takes
(`ReadState.weigh_run_le`), and fewer as soon as a tag, a comment or a reference begins.
-/

namespace LiveMarkup

/-! ### Literal text -/

/-- The characters that begin a tag or a comment right after `<`. -/
def OpensMarkup (c : Char) : Prop := c.isAlpha = true ∨ c = '!' ∨ c = '/' ∨ c = '?'

instance (c : Char) : Decidable (OpensMarkup c) := inferInstanceAs (Decidable (_ ∨ _))

/-- No `<` begins markup, and no `&` begins a character reference. -/
def Literal : List Char → Prop
  | [] => True
  | c :: cs =>
    (c = '<' → ∀ d ∈ cs.head?, ¬ OpensMarkup d) ∧
      (c = '&' → Reference.read? false cs = none) ∧ Literal cs

/-- It can be decided whether text is literal. -/
def decidableLiteral : (cs : List Char) → Decidable (Literal cs)
  | [] => inferInstanceAs (Decidable True)
  | _ :: cs =>
    -- named, since a decision over all characters also applies
    have : Decidable (∀ d ∈ cs.head?, ¬ OpensMarkup d) := Option.decidableForallMem _
    have := decidableLiteral cs
    inferInstanceAs (Decidable (_ ∧ _ ∧ _))

instance (cs : List Char) : Decidable (Literal cs) := decidableLiteral cs

/-- The end tag of an element. -/
def endTag (tag : String) : List Char := '<' :: '/' :: (tag.toList ++ ['>'])

/-! ### How much text there is -/

/-- How many characters of text a token has. -/
def Token.weight : Token → Nat
  | text data => data.toList.length
  | _ => 0

/-- How many characters of text there are among tokens. -/
def weigh (ts : List Token) : Nat := (ts.map Token.weight).sum

@[simp] theorem weigh_nil : weigh [] = 0 := rfl

@[simp] theorem weigh_cons (t : Token) (ts : List Token) : weigh (t :: ts) = t.weight + weigh ts :=
  rfl

@[simp] theorem weigh_append (ts us : List Token) : weigh (ts ++ us) = weigh ts + weigh us := by
  simp [weigh]

theorem weight_letter (c : Char) : (Token.text c.toString).weight = 1 := by
  rw [Token.weight, Char.toString_eq_singleton, String.toList_singleton, List.length_singleton]

theorem weigh_joinText (t : Token) (ts : List Token) :
    weigh (Token.joinText t ts) = t.weight + weigh ts := by
  unfold Token.joinText
  split
  · simp [Token.weight, Nat.add_assoc]
  · rfl

theorem weigh_joinTexts (ts : List Token) : weigh (Token.joinTexts ts) = weigh ts := by
  induction ts with
  | nil => rfl
  | cons t ts ih => rw [Token.joinTexts, weigh_joinText, ih, weigh_cons]

/-- The text of tokens is as long as they weigh. -/
theorem length_join_words (ts : List Token) :
    (String.join (ts.filterMap Token.word?)).toList.length = weigh ts := by
  induction ts with
  | nil => rfl
  | cons t ts ih =>
    cases t with
    | text data =>
      have hword : (Token.text data :: ts).filterMap Token.word? =
          data :: ts.filterMap Token.word? := rfl
      rw [hword, String.join_cons, String.toList_append, List.length_append, ih, weigh_cons,
        Token.weight]
    | start | stop | comment | doctype => exact ih.trans (Nat.zero_add (weigh ts)).symm

/-! ### What a step completes -/

namespace ReadState

open ReadStep

/-- A state in the middle of a tag or a comment. -/
def Inside : ReadState → Prop
  | content | opened | closing => False
  | _ => True

/-- How much text may be completed although its characters have been taken. -/
def pending : ReadState → Nat
  | opened => 1
  | _ => 0

end ReadState

/-- No text is completed, only `>` leads outside, and no `<` is taken with the character. -/
structure ReadStep.Silent (c : Char) (rest : List Char) (next : ReadStep) : Prop where
  weigh : weigh next.tokens = 0
  state : next.state.Inside ∨ c = '>' ∧ next.state = .content
  skip : '<' ∉ rest.take next.skip

namespace ReadState

open ReadStep

variable {c : Char} {rest : List Char} {tag : OpenTag} {state : ReadState}

theorem silent_go (h : state.Inside) : (go state).Silent c rest :=
  ⟨rfl, Or.inl h, List.not_mem_nil⟩

theorem silent_done {t : Token} (ht : t.weight = 0) (hc : c = '>') : (done t).Silent c rest :=
  ⟨by simp [done, ht], Or.inr ⟨hc, rfl⟩, List.not_mem_nil⟩

theorem weight_token (tag : OpenTag) (selfClosing : Bool) : (tag.token selfClosing).weight = 0 := by
  unfold OpenTag.token
  split_ifs <;> rfl

theorem silent_token (selfClosing : Bool) (hc : c = '>') :
    (done (tag.token selfClosing)).Silent c rest :=
  silent_done (weight_token tag selfClosing) hc

theorem silent_closingStep (c : Char) : (closingStep c).Silent c rest := by
  unfold closingStep
  split_ifs with _ hc
  · exact silent_go trivial
  · exact ⟨rfl, Or.inr ⟨hc, rfl⟩, List.not_mem_nil⟩
  · exact silent_go trivial

theorem silent_tagNameStep (tag : OpenTag) (c : Char) : (tagNameStep tag c).Silent c rest := by
  unfold tagNameStep
  split_ifs <;> first | exact silent_go trivial | exact silent_token false ‹_›

theorem silent_beforeNameStep (tag : OpenTag) (c : Char) :
    (beforeNameStep tag c).Silent c rest := by
  unfold beforeNameStep
  split_ifs <;> first | exact silent_go trivial | exact silent_token false ‹_›

theorem silent_nameStep (tag : OpenTag) (name : String) (c : Char) :
    (nameStep tag name c).Silent c rest := by
  unfold nameStep
  split_ifs <;> first | exact silent_go trivial | exact silent_token false ‹_›

theorem silent_afterNameStep (tag : OpenTag) (name : String) (c : Char) :
    (afterNameStep tag name c).Silent c rest := by
  unfold afterNameStep
  split_ifs <;> first | exact silent_go trivial | exact silent_token false ‹_›

theorem silent_valueCharStep (tag : OpenTag) (name : String) (quote : Option Char) (value : String)
    (c : Char) (rest : List Char) : (valueCharStep tag name quote value c rest).Silent c rest := by
  unfold valueCharStep
  split_ifs
  · cases hread : Reference.read? true rest with
    | none => exact silent_go trivial
    | some r => exact ⟨rfl, Or.inl trivial, (Reference.read?_spec hread).1⟩
  · exact silent_go trivial

theorem silent_beforeValueStep (tag : OpenTag) (name : String) (c : Char) (rest : List Char) :
    (beforeValueStep tag name c rest).Silent c rest := by
  unfold beforeValueStep
  split_ifs with _ _ hc
  · exact silent_go trivial
  · exact silent_go trivial
  · exact silent_token false hc
  · exact silent_valueCharStep tag name none "" c rest

theorem silent_valueStep (tag : OpenTag) (name : String) (quote : Option Char) (value : String)
    (c : Char) (rest : List Char) : (valueStep tag name quote value c rest).Silent c rest := by
  cases quote with
  | some q =>
    simp only [valueStep]
    split_ifs
    · exact silent_go trivial
    · exact silent_valueCharStep tag name (some q) value c rest
  | none =>
    simp only [valueStep]
    split_ifs with _ hc
    · exact silent_go trivial
    · exact silent_token false hc
    · exact silent_valueCharStep tag name none value c rest

theorem silent_slashStep (tag : OpenTag) (c : Char) : (slashStep tag c).Silent c rest := by
  unfold slashStep
  split_ifs with hc
  · exact silent_token true hc
  · exact silent_beforeNameStep tag c

theorem silent_remarkStep (data : String) (c : Char) : (remarkStep data c).Silent c rest := by
  unfold remarkStep
  split_ifs with hc
  · exact silent_done rfl hc
  · exact silent_go trivial

theorem silent_commentStep (place : CommentPlace) (data : String) (c : Char) :
    (commentStep place data c).Silent c rest := by
  cases place <;> simp only [commentStep] <;> split_ifs <;>
    first | exact silent_go trivial | exact silent_done rfl ‹_›

/-- Nothing but what stands between tags is text. -/
theorem silent_step (hcontent : state ≠ content) (hopened : state ≠ opened) (c : Char)
    (rest : List Char) : (state.step c rest).Silent c rest := by
  cases state with
  | content => exact absurd rfl hcontent
  | opened => exact absurd rfl hopened
  | closing => exact silent_closingStep c
  | tagName tag => exact silent_tagNameStep tag c
  | beforeName tag => exact silent_beforeNameStep tag c
  | name tag n => exact silent_nameStep tag n c
  | afterName tag n => exact silent_afterNameStep tag n c
  | beforeValue tag n => exact silent_beforeValueStep tag n c rest
  | value tag n quote v => exact silent_valueStep tag n quote v c rest
  | afterValue tag => exact silent_beforeNameStep tag c
  | slash tag => exact silent_slashStep tag c
  | remark data => exact silent_remarkStep data c
  | comment place data => exact silent_commentStep place data c
  | doctype =>
    simp only [step]
    split_ifs with hc
    · exact silent_done rfl hc
    · exact silent_go trivial

theorem pending_of_silent {next : ReadStep} (h : next.Silent c rest) : next.state.pending = 0 := by
  rcases h.state with hinside | ⟨-, hcontent⟩
  · cases hnext : next.state with
    | opened => rw [hnext] at hinside; exact hinside.elim
    | _ => rfl
  · rw [hcontent]
    rfl

theorem not_mem_take_of_beginsWord {word cs : List Char} (h : beginsWord word cs = true)
    (hword : '<' ∉ word) : '<' ∉ cs.take word.length := by
  intro hmem
  have htake : (cs.map Char.toLower).take word.length = word :=
    (List.prefix_iff_eq_take.1 (List.isPrefixOf_iff_prefix.1 h)).symm
  apply hword
  rw [← htake, ← List.map_take]
  exact List.mem_map.2 ⟨'<', hmem, rfl⟩

theorem silent_declarationStep (rest : List Char) : (declarationStep rest).Silent '!' rest := by
  unfold declarationStep
  split_ifs with hdashes hdoctype
  · have htake : rest.take 2 = ['-', '-'] :=
      (List.prefix_iff_eq_take.1 (List.isPrefixOf_iff_prefix.1 hdashes)).symm
    exact ⟨rfl, Or.inl trivial, by simp [htake]⟩
  · exact ⟨rfl, Or.inl trivial, not_mem_take_of_beginsWord hdoctype (by decide)⟩
  · exact silent_go trivial

/-- After `<`, a character that opens no markup is read as if the `<` were a letter. -/
theorem openedStep_of_not_opensMarkup (h : ¬ OpensMarkup c) :
    openedStep c rest = { contentStep c rest with
      tokens := .text "<" :: (contentStep c rest).tokens } := by
  simp only [OpensMarkup, not_or] at h
  simp [openedStep, h]

/-- After `<`, a character that opens markup completes no text. -/
theorem openedStep_of_opensMarkup (h : OpensMarkup c) (rest : List Char) :
    weigh (openedStep c rest).tokens = 0 ∧ (openedStep c rest).state.pending = 0 ∧
      '<' ∉ rest.take (openedStep c rest).skip := by
  rcases h with halpha | rfl | rfl | rfl
  · have hbang : c ≠ '!' := by rintro rfl; exact absurd halpha (by decide)
    have hslash : c ≠ '/' := by rintro rfl; exact absurd halpha (by decide)
    have hmark : c ≠ '?' := by rintro rfl; exact absurd halpha (by decide)
    simp [openedStep, halpha, hbang, hslash, hmark, go, pending]
  · have hsilent := silent_declarationStep rest
    exact ⟨hsilent.weigh, pending_of_silent hsilent, hsilent.skip⟩
  · exact ⟨rfl, rfl, List.not_mem_nil⟩
  · exact ⟨rfl, rfl, List.not_mem_nil⟩

/-- Between tags, a step completes no more text than it takes characters. -/
theorem contentStep_spec (c : Char) (rest : List Char) :
    weigh (contentStep c rest).tokens + (contentStep c rest).state.pending ≤
        1 + (contentStep c rest).skip ∧
      '<' ∉ rest.take (contentStep c rest).skip := by
  unfold contentStep
  split_ifs
  · exact ⟨Nat.le_refl 1, List.not_mem_nil⟩
  · cases hread : Reference.read? false rest with
    | none => exact ⟨Nat.le_refl 1, List.not_mem_nil⟩
    | some r =>
      obtain ⟨htaken, htext⟩ := Reference.read?_spec hread
      refine ⟨?_, htaken⟩
      show r.text.toList.length + 0 + 0 ≤ 1 + r.length
      omega
  · refine ⟨?_, List.not_mem_nil⟩
    rw [weigh_cons, weight_letter]
    exact Nat.le_refl 1

/-- No step completes more text than it takes characters, or takes a `<` with another character. -/
theorem step_spec (state : ReadState) (c : Char) (rest : List Char) :
    weigh (state.step c rest).tokens + (state.step c rest).state.pending ≤
        state.pending + 1 + (state.step c rest).skip ∧
      '<' ∉ rest.take (state.step c rest).skip := by
  by_cases hcontent : state = content
  · subst hcontent
    obtain ⟨hweigh, hskip⟩ := contentStep_spec c rest
    have hpending : content.pending = 0 := rfl
    rw [hpending, Nat.zero_add]
    exact ⟨hweigh, hskip⟩
  by_cases hopened : state = opened
  · subst hopened
    by_cases hc : OpensMarkup c
    · obtain ⟨hweigh, hpending, hskip⟩ := openedStep_of_opensMarkup hc rest
      refine ⟨?_, hskip⟩
      show weigh (openedStep c rest).tokens + (openedStep c rest).state.pending ≤ _
      omega
    · obtain ⟨hweigh, hskip⟩ := contentStep_spec c rest
      have hone : (Token.text "<").weight = 1 := weight_letter '<'
      simp only [step, openedStep_of_not_opensMarkup hc, weigh_cons, hone]
      exact ⟨by show 1 + _ + _ ≤ 1 + 1 + _; omega, hskip⟩
  have hsilent := silent_step hcontent hopened c rest
  refine ⟨?_, hsilent.skip⟩
  rw [hsilent.weigh, pending_of_silent hsilent]
  exact Nat.zero_le _

/-! ### How much text a run completes -/

theorem weigh_finish (h : state.Inside ∨ state = content) : weigh state.finish = 0 := by
  cases state with
  | opened | closing => simp [Inside] at h
  | _ => rfl

theorem ne_of_inside (h : state.Inside) : state ≠ content ∧ state ≠ opened := by
  constructor
  · rintro rfl
    exact h
  · rintro rfl
    exact h

/-- What begins inside a tag or a comment completes no text up to the first `>`. -/
theorem weigh_run_inside (h : state.Inside) (skip : Nat) {cs : List Char} (hcs : '>' ∉ cs) :
    weigh (run state skip (cs ++ ['>'])) = 0 := by
  induction cs generalizing state skip with
  | nil =>
    cases skip with
    | succ skip => exact weigh_finish (Or.inl h)
    | zero =>
      obtain ⟨hcontent, hopened⟩ := ne_of_inside h
      have hsilent := silent_step hcontent hopened '>' []
      rw [List.nil_append, run_cons, weigh_append, hsilent.weigh, run, Nat.zero_add]
      exact weigh_finish (hsilent.state.imp_right And.right)
  | cons c cs ih =>
    rw [List.mem_cons, not_or] at hcs
    cases skip with
    | succ skip => exact ih h skip hcs.2
    | zero =>
      obtain ⟨hcontent, hopened⟩ := ne_of_inside h
      have hsilent := silent_step hcontent hopened c (cs ++ ['>'])
      rw [List.cons_append, run_cons, weigh_append, hsilent.weigh, Nat.zero_add]
      rcases hsilent.state with hinside | ⟨rfl, -⟩
      · exact ih hinside _ hcs.2
      · exact absurd rfl hcs.1

/-- A `<` that opens no markup is a letter of its own. -/
theorem run_opened (h : ¬ OpensMarkup c) (rest : List Char) :
    run opened 0 (c :: rest) = .text "<" :: run content 0 (c :: rest) := by
  rw [run_cons, run_cons]
  simp only [step, openedStep_of_not_opensMarkup h, List.cons_append]

variable {name : String}

/-- The end tag of a plain name. -/
theorem run_endTag_nil (hname : isPlainName name = true) :
    run content 0 (endTag name) = [.stop name] := by
  exact run_endTag hname

theorem not_mem_of_isPlainName_gt (hname : isPlainName name = true) : '>' ∉ name.toList := by
  obtain ⟨c, cs, hlist, hlower, hcs⟩ := isPlainName_iff.1 hname
  rw [hlist, List.mem_cons, not_or]
  refine ⟨?_, fun hin => ?_⟩
  · exact (ne_of_isNameChar (isNameChar_of_isLower hlower) '>' (by decide)).symm
  · exact ne_of_isNameChar (hcs _ hin) '>' (by decide) rfl

/-- An end tag completes no text but a `<` that stands right before it. -/
theorem weigh_run_endTag_le (hname : isPlainName name = true) (state : ReadState) :
    weigh (run state 0 (endTag name)) ≤ state.pending := by
  by_cases hcontent : state = content
  · subst hcontent
    rw [run_endTag_nil hname]
    exact Nat.le_refl 0
  by_cases hopened : state = opened
  · subst hopened
    have hrun : run opened 0 (endTag name) = [.text "<", .stop name] := by
      rw [endTag, run_opened (by decide), ← endTag, run_endTag_nil hname]
    rw [hrun]
    exact Nat.le_refl 1
  have hend : '>' ∉ '/' :: name.toList := by
    simpa using not_mem_of_isPlainName_gt hname
  have hsilent := silent_step hcontent hopened '<' ('/' :: name.toList ++ ['>'])
  have hinside := hsilent.state.resolve_right fun h => absurd h.1 (by decide)
  have hrun : run state 0 (endTag name) =
      (state.step '<' ('/' :: name.toList ++ ['>'])).tokens ++
        run (state.step '<' ('/' :: name.toList ++ ['>'])).state
          (state.step '<' ('/' :: name.toList ++ ['>'])).skip ('/' :: name.toList ++ ['>']) := rfl
  rw [hrun, weigh_append, hsilent.weigh, weigh_run_inside hinside _ hend]
  exact Nat.zero_le _

/-- What takes no `<` ends before the first one. -/
theorem le_length_of_not_mem_take {n : ℕ} {cs rest : List Char}
    (h : '<' ∉ (cs ++ '<' :: rest).take n) : n ≤ cs.length := by
  by_contra hlt
  apply h
  obtain ⟨k, rfl⟩ : ∃ k, n = cs.length + (k + 1) := ⟨n - cs.length - 1, by omega⟩
  rw [List.take_length_add_append, List.take_succ_cons]
  exact List.mem_append_right cs List.mem_cons_self

/-- Before an end tag, no more text is completed than there are characters. -/
theorem weigh_run_le (hname : isPlainName name = true) (state : ReadState) {skip : ℕ}
    {cs : List Char} (hskip : skip ≤ cs.length) :
    weigh (run state skip (cs ++ endTag name)) ≤ state.pending + (cs.length - skip) := by
  induction cs generalizing state skip with
  | nil =>
    obtain rfl : skip = 0 := Nat.le_zero.1 hskip
    exact weigh_run_endTag_le hname state
  | cons c cs ih =>
    rw [List.length_cons] at hskip
    cases skip with
    | succ skip =>
      have hrest := ih state (Nat.le_of_succ_le_succ hskip)
      rw [List.length_cons, Nat.add_sub_add_right]
      exact hrest
    | zero =>
      obtain ⟨hweigh, htaken⟩ := step_spec state c (cs ++ endTag name)
      have hrest := ih (state.step c (cs ++ endTag name)).state (le_length_of_not_mem_take htaken)
      have hle := le_length_of_not_mem_take htaken
      rw [List.cons_append, run_cons, weigh_append, List.length_cons]
      omega

/-! ### Literal text is read letter by letter -/

theorem opensMarkup_head_append {cs : List Char} (h : ∀ d ∈ cs.head?, ¬ OpensMarkup d)
    (name : String) : ∀ d ∈ (cs ++ endTag name).head?, ¬ OpensMarkup d := by
  cases cs with
  | nil =>
    intro d hd
    obtain rfl : '<' = d := Option.some.inj hd
    decide
  | cons c cs => exact h

/-- Literal text before an end tag is read letter by letter. -/
theorem run_literal (hname : isPlainName name = true) {cs : List Char} (h : Literal cs) :
    run content 0 (cs ++ endTag name) =
      (cs.map fun c => Token.text c.toString) ++ [.stop name] := by
  induction cs with
  | nil => exact run_endTag_nil hname
  | cons c cs ih =>
    obtain ⟨hopen, hreference, hrest⟩ := h
    rw [List.cons_append, List.map_cons, List.cons_append, ← ih hrest]
    by_cases hlt : c = '<'
    · subst hlt
      have hnext := opensMarkup_head_append (hopen rfl) name
      rw [run_go opened rfl]
      obtain ⟨d, ds, hds⟩ : ∃ d ds, cs ++ endTag name = d :: ds :=
        List.exists_cons_of_ne_nil (by simp [endTag])
      rw [hds] at hnext ⊢
      exact run_opened (hnext d rfl) ds
    by_cases hamp : c = '&'
    · subst hamp
      have hnone : Reference.read? false (cs ++ endTag name) = none :=
        (Reference.read?_append_lt cs _).trans (hreference rfl)
      rw [run_cons]
      simp [step, contentStep, hnone]
    · rw [run_cons]
      simp [step, contentStep, hlt, hamp]

/-! ### Other text is not read back -/

/-- Only literal text gives as many characters of text as it has. -/
theorem literal_of_le_weigh_run (hname : isPlainName name = true) {cs : List Char}
    (h : cs.length ≤ weigh (run content 0 (cs ++ endTag name))) : Literal cs := by
  induction cs with
  | nil => trivial
  | cons c cs ih =>
    rw [List.cons_append, List.length_cons] at h
    by_cases hlt : c = '<'
    · subst hlt
      rw [run_go opened rfl] at h
      -- After the `<` there is markup or not, whether or not there are more characters.
      have hopen : ∀ d ∈ cs.head?, ¬ OpensMarkup d := by
        intro d hd hopens
        obtain ⟨ds, rfl⟩ := List.head?_eq_some_iff.1 hd
        obtain ⟨hweigh, hpending, htaken⟩ := openedStep_of_opensMarkup hopens (ds ++ endTag name)
        have hle := weigh_run_le hname (openedStep d (ds ++ endTag name)).state
          (le_length_of_not_mem_take htaken)
        have hrun : weigh (run opened 0 (d :: ds ++ endTag name)) =
            weigh (openedStep d (ds ++ endTag name)).tokens +
              weigh (run (openedStep d (ds ++ endTag name)).state
                (openedStep d (ds ++ endTag name)).skip (ds ++ endTag name)) := weigh_append _ _
        rw [hrun, List.length_cons] at h
        omega
      have hnext := opensMarkup_head_append hopen name
      obtain ⟨d, ds, hds⟩ : ∃ d ds, cs ++ endTag name = d :: ds :=
        List.exists_cons_of_ne_nil (by simp [endTag])
      refine ⟨fun _ => hopen, fun heq => absurd heq (by decide), ih ?_⟩
      have hone : (Token.text "<").weight = 1 := weight_letter '<'
      rw [hds] at hnext h ⊢
      rw [run_opened (hnext d rfl), weigh_cons, hone] at h
      omega
    by_cases hamp : c = '&'
    · subst hamp
      cases hread : Reference.read? false (cs ++ endTag name) with
      | some r =>
        obtain ⟨htaken, htext⟩ := Reference.read?_spec hread
        have hle := weigh_run_le hname content (le_length_of_not_mem_take htaken)
        have hlength := le_length_of_not_mem_take htaken
        have hrun : weigh (run content 0 ('&' :: (cs ++ endTag name))) =
            r.text.toList.length + weigh (run content r.length (cs ++ endTag name)) := by
          rw [run_cons]
          simp [step, contentStep, hread, Token.weight]
        rw [hrun] at h
        simp only [pending] at hle
        omega
      | none =>
        have hrun : weigh (run content 0 ('&' :: (cs ++ endTag name))) =
            1 + weigh (run content 0 (cs ++ endTag name)) := by
          rw [run_cons]
          simp [step, contentStep, hread, Token.weight]
        rw [hrun] at h
        exact ⟨fun heq => absurd heq (by decide),
          fun _ => (Reference.read?_append_lt cs _).symm.trans hread, ih (by omega)⟩
    · have hrun : weigh (run content 0 (c :: (cs ++ endTag name))) =
          1 + weigh (run content 0 (cs ++ endTag name)) := by
        rw [run_cons, weigh_append]
        simp [step, contentStep, hlt, hamp, Token.weight]
      rw [hrun] at h
      exact ⟨fun heq => absurd heq hlt, fun heq => absurd heq hamp, ih (by omega)⟩

end ReadState

/-! ### Raw elements -/

namespace Tree

variable {tag s : String}

theorem raw_cases (htag : isRawTag tag = true) : tag = "script" ∨ tag = "style" := by
  simpa [isRawTag, rawTags] using htag

/-- A raw element with one text, as it is written. -/
theorem toList_written_raw (htag : isRawTag tag = true) (s : String) :
    ((element tag [] [text s]).written false).toList =
      '<' :: (tag.toList ++ '>' :: (s.toList ++ endTag tag)) := by
  have hvoid : isVoidTag tag = false := by
    rcases raw_cases htag with rfl | rfl <;> decide
  simp [written, writtenAll, writtenAttributes, htag, hvoid, endTag]

/-- The tokens of a raw element with one text. -/
theorem run_written_raw (htag : isRawTag tag = true) (hr : '\r' ∉ s.toList) :
    ReadState.run .content 0 (unifyNewlines ((element tag [] [text s]).written false).toList) =
      .start tag [] false :: ReadState.run .content 0 (s.toList ++ endTag tag) := by
  have hname : isPlainName tag = true := by
    rcases raw_cases htag with rfl | rfl <;> decide
  have hreturn : '\r' ∉ '<' :: (tag.toList ++ '>' :: (s.toList ++ endTag tag)) := by
    simp [endTag, hr, not_mem_of_isPlainName hname]
  have hplain : ∀ a ∈ ([] : List Attribute), a.Plain := by simp
  rw [toList_written_raw htag, unifyNewlines_eq_self hreturn]
  exact ReadState.run_startTag hname hplain List.Pairwise.nil

/-- A raw element with one text is read back from its written form exactly if the text is
literal. -/
theorem ofMarkup_raw (htag : isRawTag tag = true) (hs : s ≠ "") (hr : '\r' ∉ s.toList) :
    ofMarkup ((element tag [] [text s]).written false) = [element tag [] [text s]] ↔
      Literal s.toList := by
  have hname : isPlainName tag = true := by
    rcases raw_cases htag with rfl | rfl <;> decide
  constructor
  · intro hread
    apply ReadState.literal_of_le_weigh_run hname
    have htext : innerTexts [element tag [] [text s]] = s := by
      simp [innerTexts, innerText]
    rw [← hread, innerTexts_ofMarkup] at htext
    have hlength := length_join_words (Token.ofMarkup ((element tag [] [text s]).written false))
    have hstart : (Token.start tag [] false).weight = 0 := rfl
    rw [htext, Token.ofMarkup, weigh_joinTexts, run_written_raw htag hr, weigh_cons, hstart,
      Nat.zero_add] at hlength
    exact hlength.le
  · intro hliteral
    have htokens : Token.ofMarkup ((element tag [] [text s]).written false) =
        [.start tag [] false, .text s, .stop tag] := by
      have hjoined := Token.joinTexts_letters hs [.stop tag]
      rw [letters] at hjoined
      rw [Token.ofMarkup, run_written_raw htag hr, ReadState.run_literal hname hliteral,
        Token.joinTexts, hjoined]
      rfl
    have hempty : s.isEmpty = false := by simpa using hs
    rw [ofMarkup, htokens]
    rcases raw_cases htag with rfl | rfl <;>
      simp [ofTokens, Nest.empty, Nest.take, Nest.closeBefore, selfEndingTags, isVoidTag, voidTags,
        Nest.openElement, Nest.add, List.findIdx?_cons, Nest.close, Nest.trees, OpenElement.tree,
        joinedAll, joined, joinText, hempty]

end Tree

namespace Forest

/-- What a raw element with one text is written as is parsed to a fragment with just this element
exactly if the text is literal. -/
theorem snapshot_parse_raw {f : Forest} (hf : f.Sound) {e : NodeId} {tag s : String}
    (htag : isRawTag tag = true) (hs : s ≠ "") (hr : '\r' ∉ s.toList)
    (he : f.snapshot e = .tree (.element tag [] [.text s])) :
    ∃ g, f.parse (f.snapshot e).outer = .ok (f.size, g) ∧
      (g.snapshot f.size = .fragment [.element tag [] [.text s]] ↔ Literal s.toList) := by
  obtain ⟨g, hparse, -, -, hsnapshot⟩ := exists_parse hf (f.snapshot e).outer
  refine ⟨g, hparse, ?_⟩
  rw [hsnapshot, he, Snapshot.outer, Snapshot.fragment.injEq]
  exact Tree.ofMarkup_raw htag hs hr

/-- A forest with a fragment that holds one raw element with one text. -/
def rawForest (tag s : String) : Forest :=
  (Forest.empty.plantFragment [.element tag [] [.text s]]).2

theorem sound_rawForest (tag s : String) : (rawForest tag s).Sound :=
  Sound.empty.plantFragment ⟨⟨by simp, List.nodup_nil, trivial, trivial⟩, trivial⟩

theorem snapshot_rawForest (tag s : String) :
    (rawForest tag s).snapshot 1 = .tree (.element tag [] [.text s]) := by
  rfl

/-- A text with characters that could begin markup or a reference, but do not. -/
def comparison : String := "if (a < b && c > 1) x &= 1 <"

/-- The comparison is read back from the script that holds it. -/
theorem snapshot_parse_raw_comparison :
    (rawForest "script" comparison).Sound ∧ isRawTag "script" = true ∧ comparison ≠ "" ∧
      '\r' ∉ comparison.toList ∧ Literal comparison.toList ∧
      (rawForest "script" comparison).snapshot 1 =
        .tree (.element "script" [] [.text comparison]) ∧
      ∃ g, (rawForest "script" comparison).parse
          ((rawForest "script" comparison).snapshot 1).outer = .ok (3, g) ∧
        g.snapshot 3 = .fragment [.element "script" [] [.text comparison]] := by
  have hsound := sound_rawForest "script" comparison
  have hne : comparison ≠ "" := by decide
  have hreturn : '\r' ∉ comparison.toList := by decide
  have hliteral : Literal comparison.toList := by decide +kernel
  have hsnapshot := snapshot_rawForest "script" comparison
  obtain ⟨g, hparse, hread⟩ :=
    snapshot_parse_raw hsound (by decide) hne hreturn hsnapshot
  exact ⟨hsound, by decide, hne, hreturn, hliteral, hsnapshot, g, hparse, hread.2 hliteral⟩

/-- A text of a raw element need not be read back although no end tag stands in it. -/
theorem exists_raw_not_read_back :
    ¬ ∀ (f : Forest) (e : NodeId) (tag s : String), f.Sound → isRawTag tag = true → s ≠ "" →
      ¬ ['<', '/'] <:+: s.toList → '\r' ∉ s.toList → '\x00' ∉ s.toList →
      f.snapshot e = .tree (.element tag [] [.text s]) →
      ∃ g, f.parse (f.snapshot e).outer = .ok (f.size, g) ∧
        g.snapshot f.size = .fragment [.element tag [] [.text s]] := by
  intro hall
  have hsnapshot := snapshot_rawForest "style" "<b>"
  have hsound := sound_rawForest "style" "<b>"
  obtain ⟨g, hparse, hread⟩ := hall (rawForest "style" "<b>") 1 "style" "<b>" hsound (by decide)
    (by decide) (by decide) (by decide) (by decide) hsnapshot
  obtain ⟨g', hparse', -, -, hread'⟩ :=
    exists_parse hsound ((rawForest "style" "<b>").snapshot 1).outer
  rw [hparse] at hparse'
  obtain ⟨-, rfl⟩ := Prod.mk.inj (Except.ok.inj hparse')
  rw [hread, hsnapshot, Snapshot.outer, Snapshot.fragment.injEq] at hread'
  have hliteral := (Tree.ofMarkup_raw (by decide) (by decide) (by decide)).1 hread'.symm
  exact absurd hliteral (by decide)

end Forest

end LiveMarkup
