import LiveMarkup.Markup.Nesting
import LiveMarkup.Proofs.Markup.Escapes

/-!
# Reading plain markup

A tree is plain (`Tree.Plain`) if nothing in it is lost or changed when it is written and read:
names have only small letters, digits and dashes, attributes stand in the order of their names,
texts do not touch each other, and so on.  The reader takes the written form of plain trees apart
into the tokens it was put together from (`ReadState.run_writtenAll`). -/

namespace LiveMarkup

/-! ### Names -/

/-- Whether a character may stand in a plain name. -/
def isNameChar (c : Char) : Bool := c.isLower || c.isDigit || c == '-'

/-- Whether a name begins with a small letter and has only small letters, digits and dashes. -/
def isPlainName (s : String) : Bool :=
  match s.toList with
  | [] => false
  | c :: cs => c.isLower && cs.all isNameChar

theorem toLower_of_isNameChar {c : Char} (h : isNameChar c = true) : c.toLower = c := by
  by_cases hc : c = '-'
  · subst hc
    decide
  · have hsmall : (c.isLower || c.isDigit) = true := by simpa [isNameChar, hc] using h
    unfold Char.isLower Char.isDigit at hsmall
    unfold Char.toLower
    grind

theorem ne_of_isNameChar {c : Char} (h : isNameChar c = true) (d : Char)
    (hd : isNameChar d = false) : c ≠ d := by
  rintro rfl
  rw [h] at hd
  cases hd

/-- A character of a plain name is read as it is. -/
theorem nameChar_of_isNameChar {c : Char} (h : isNameChar c = true) : nameChar c = c := by
  rw [nameChar, toLower_of_isNameChar h, withoutNull, if_neg (ne_of_isNameChar h _ (by decide))]

theorem isTagSpace_of_isNameChar {c : Char} (h : isNameChar c = true) : isTagSpace c = false := by
  simp [isTagSpace, ne_of_isNameChar h '\t' (by decide), ne_of_isNameChar h '\n' (by decide),
    ne_of_isNameChar h '\x0c' (by decide), ne_of_isNameChar h ' ' (by decide)]

theorem isPlainName_iff {s : String} : isPlainName s = true ↔
    ∃ c cs, s.toList = c :: cs ∧ c.isLower = true ∧ ∀ d ∈ cs, isNameChar d = true := by
  unfold isPlainName
  cases s.toList <;> simp

theorem isNameChar_of_isLower {c : Char} (h : c.isLower = true) : isNameChar c = true := by
  simp [isNameChar, h]

/-! ### Plain trees -/

/-- An attribute with a plain name and a value that is read as it is written. -/
def Attribute.Plain (a : Attribute) : Prop :=
  isPlainName a.name = true ∧ '\x00' ∉ a.value.toList ∧ '\r' ∉ a.value.toList

instance (a : Attribute) : Decidable a.Plain := inferInstanceAs (Decidable (_ ∧ _ ∧ _))

namespace Tree

/-- Whether a tree is a text. -/
def isText : Tree → Bool
  | text _ => true
  | _ => false

/-- The tag of an element. -/
def tag? : Tree → Option String
  | element tag _ _ => some tag
  | _ => none

mutual

/-- Nothing in the tree is lost or changed when it is written and read. -/
def Plain : Tree → Prop
  | element tag attributes children =>
    isPlainName tag = true ∧ isRawTag tag = false ∧
      (∀ a ∈ attributes, a.Plain) ∧ attributes.Pairwise (·.name < ·.name) ∧
      (isVoidTag tag = true → children = []) ∧
      (tag ∈ selfEndingTags → ∀ c ∈ children, c.tag? ≠ some tag) ∧ PlainAll children
  | text data => data ≠ "" ∧ '\r' ∉ data.toList
  | comment data => '>' ∉ data.toList ∧ '\x00' ∉ data.toList ∧ '\r' ∉ data.toList

/-- The trees are plain, and no text stands right after another. -/
def PlainAll : List Tree → Prop
  | [] => True
  | t :: ts => t.Plain ∧ (t.isText = true → ∀ u ∈ ts.head?, u.isText = false) ∧ PlainAll ts

end

mutual

/-- It can be decided whether a tree is plain. -/
def decidablePlain : (t : Tree) → Decidable t.Plain
  | element _ _ children =>
    have := decidablePlainAll children
    inferInstanceAs (Decidable (_ ∧ _ ∧ _ ∧ _ ∧ _ ∧ _ ∧ _))
  | text _ => inferInstanceAs (Decidable (_ ∧ _))
  | comment _ => inferInstanceAs (Decidable (_ ∧ _ ∧ _))

/-- It can be decided whether trees are plain. -/
def decidablePlainAll : (ts : List Tree) → Decidable (PlainAll ts)
  | [] => inferInstanceAs (Decidable True)
  | t :: ts =>
    have := decidablePlain t
    have := decidablePlainAll ts
    inferInstanceAs (Decidable (_ ∧ _ ∧ _))

end

instance (ts : List Tree) : Decidable (PlainAll ts) := decidablePlainAll ts

end Tree

/-! ### Reading tags -/

namespace ReadState

open ReadStep

variable {tag : OpenTag} {rest : List Char}

/-- A step that completes no token and takes no further character. -/
theorem run_go {state : ReadState} (next : ReadState) {c : Char} (h : state.step c rest = go next) :
    run state 0 (c :: rest) = run next 0 rest := by
  rw [run_cons, h]
  rfl

/-- A step that completes a token. -/
theorem run_done {state : ReadState} {token : Token} {c : Char}
    (h : state.step c rest = done token) :
    run state 0 (c :: rest) = token :: run content 0 rest := by
  rw [run_cons, h]
  rfl

/-- The rest of the name of a tag. -/
theorem run_tagName (cs : List Char) (hcs : ∀ c ∈ cs, isNameChar c = true) :
    run (tagName tag) 0 (cs ++ rest) =
      run (tagName { tag with name := tag.name ++ String.ofList cs }) 0 rest := by
  induction cs generalizing tag with
  | nil => simp
  | cons c cs ih =>
    have hc := hcs c List.mem_cons_self
    have hstep : step (tagName tag) c (cs ++ rest) =
        go (tagName { tag with name := tag.name.push c }) := by
      simp [step, tagNameStep, isTagSpace_of_isNameChar hc, nameChar_of_isNameChar hc,
        ne_of_isNameChar hc '/' (by decide), ne_of_isNameChar hc '>' (by decide)]
    rw [List.cons_append, run_go _ hstep, ih fun d hd => hcs d (List.mem_cons_of_mem c hd),
      String.ofList_cons, ← String.append_assoc, String.append_singleton]

/-- The rest of the name of an attribute. -/
theorem run_name (read : String) (cs : List Char) (hcs : ∀ c ∈ cs, isNameChar c = true) :
    run (name tag read) 0 (cs ++ rest) = run (name tag (read ++ String.ofList cs)) 0 rest := by
  induction cs generalizing read with
  | nil => simp
  | cons c cs ih =>
    have hc := hcs c List.mem_cons_self
    have hstep : step (name tag read) c (cs ++ rest) = go (name tag (read.push c)) := by
      simp [step, nameStep, isTagSpace_of_isNameChar hc, nameChar_of_isNameChar hc,
        ne_of_isNameChar hc '/' (by decide), ne_of_isNameChar hc '>' (by decide),
        ne_of_isNameChar hc '=' (by decide)]
    rw [List.cons_append, run_go _ hstep, ih _ fun d hd => hcs d (List.mem_cons_of_mem c hd),
      String.ofList_cons, ← String.append_assoc, String.append_singleton]

theorem isAlpha_of_isLower {c : Char} (h : c.isLower = true) : c.isAlpha = true := by
  have halpha : c.isAlpha = (c.isUpper || c.isLower) := rfl
  rw [halpha, h, Bool.or_true]

/-- The beginning of a start tag. -/
theorem run_openTag {s : String} (hs : isPlainName s = true) :
    run content 0 ('<' :: (s.toList ++ rest)) = run (tagName ⟨false, s, []⟩) 0 rest := by
  obtain ⟨c, cs, hlist, hlower, hcs⟩ := isPlainName_iff.1 hs
  have hc := isNameChar_of_isLower hlower
  have hopened : step opened c (cs ++ rest) = go (tagName ⟨false, c.toString, []⟩) := by
    simp [step, openedStep, ne_of_isNameChar hc '!' (by decide),
      ne_of_isNameChar hc '/' (by decide), ne_of_isNameChar hc '?' (by decide),
      isAlpha_of_isLower hlower, nameChar_of_isNameChar hc]
  have hname : c.toString ++ String.ofList cs = s := by
    rw [Char.toString_eq_singleton, ← String.ofList_cons, ← hlist, String.ofList_toList]
  rw [hlist, List.cons_append, run_go opened rfl, run_go _ hopened, run_tagName cs hcs,
    hname]

/-- The beginning of an end tag. -/
theorem run_closeTag {s : String} (hs : isPlainName s = true) :
    run content 0 ('<' :: '/' :: (s.toList ++ rest)) = run (tagName ⟨true, s, []⟩) 0 rest := by
  obtain ⟨c, cs, hlist, hlower, hcs⟩ := isPlainName_iff.1 hs
  have hc := isNameChar_of_isLower hlower
  have hclosing : step closing c (cs ++ rest) = go (tagName ⟨true, c.toString, []⟩) := by
    simp [step, closingStep, isAlpha_of_isLower hlower, nameChar_of_isNameChar hc]
  have hname : c.toString ++ String.ofList cs = s := by
    rw [Char.toString_eq_singleton, ← String.ofList_cons, ← hlist, String.ofList_toList]
  rw [hlist, List.cons_append, run_go opened rfl, run_go closing rfl,
    run_go _ hclosing, run_tagName cs hcs, hname]

/-- A written attribute, read from the place where an attribute may begin. -/
theorem run_written {a : Attribute} (ha : a.Plain) :
    run (beforeName tag) 0 (a.written.toList ++ rest) =
      run (afterValue (tag.put a.name a.value)) 0 rest := by
  obtain ⟨hname, hnull, -⟩ := ha
  obtain ⟨c, cs, hlist, hlower, hcs⟩ := isPlainName_iff.1 hname
  have hc := isNameChar_of_isLower hlower
  have hfirst {more : List Char} : step (beforeName tag) c more = go (name tag c.toString) := by
    simp [step, beforeNameStep, isTagSpace_of_isNameChar hc, nameChar_of_isNameChar hc,
      ne_of_isNameChar hc '/' (by decide), ne_of_isNameChar hc '>' (by decide)]
  have hread : c.toString ++ String.ofList cs = a.name := by
    rw [Char.toString_eq_singleton, ← String.ofList_cons, ← hlist, String.ofList_toList]
  have hwritten : a.written.toList ++ rest =
      c :: (cs ++ '=' :: '"' :: ((escapeValue a.value).toList ++ '"' :: rest)) := by
    simp [Attribute.written, hlist]
  rw [hwritten, run_go _ hfirst, run_name _ cs hcs, hread,
    run_go (beforeValue tag a.name) rfl,
    run_go (value tag a.name (some '"') "") rfl, run_escapeValue tag a.name hnull]

/-- An attribute goes last if its name comes after all others. -/
theorem insertByName_of_lt {a : Attribute} {as : List Attribute} (h : ∀ b ∈ as, b.name < a.name) :
    insertByName a as = as ++ [a] := by
  induction as with
  | nil => rfl
  | cons b bs ih =>
    have hb : b.name < a.name := h b List.mem_cons_self
    rw [insertByName, if_neg hb.ne', if_neg (lt_asymm hb),
      ih fun c hc => h c (List.mem_cons_of_mem b hc), List.cons_append]

/-- The attributes of a start tag, up to its end. -/
theorem run_writtenAttributes {as : List Attribute} {tag : OpenTag} {state : ReadState}
    (hstate : state = tagName tag ∨ state = afterValue tag) (has : ∀ a ∈ as, a.Plain)
    (hsorted : (tag.attributes ++ as).Pairwise (·.name < ·.name)) :
    run state 0 ((writtenAttributes as).toList ++ '>' :: rest) =
      { tag with attributes := tag.attributes ++ as }.token false :: run content 0 rest := by
  induction as generalizing tag state with
  | nil =>
    rw [List.append_nil]
    rcases hstate with rfl | rfl
    · exact run_done rfl
    · exact run_done rfl
  | cons a as ih =>
    have hput : tag.put a.name a.value = { tag with attributes := tag.attributes ++ [a] } := by
      rw [OpenTag.put, insertByName_of_lt fun b hb => ?_]
      exact (List.pairwise_append.1 hsorted).2.2 b hb a List.mem_cons_self
    have hspace {more : List Char} : run state 0 (' ' :: more) = run (beforeName tag) 0 more := by
      rcases hstate with rfl | rfl
      · exact run_go _ rfl
      · exact run_go _ rfl
    have hlist : (writtenAttributes (a :: as)).toList ++ '>' :: rest =
        ' ' :: (a.written.toList ++ ((writtenAttributes as).toList ++ '>' :: rest)) := by
      simp [writtenAttributes]
    rw [hlist, hspace, run_written (has a List.mem_cons_self),
      ih (Or.inr rfl) fun b hb => has b (List.mem_cons_of_mem a hb)]
    · simp [hput]
    · simpa [hput] using hsorted

/-- A start tag. -/
theorem run_startTag {s : String} {as : List Attribute} (hs : isPlainName s = true)
    (has : ∀ a ∈ as, a.Plain) (hsorted : as.Pairwise (·.name < ·.name)) :
    run content 0 ('<' :: (s.toList ++ ((writtenAttributes as).toList ++ '>' :: rest))) =
      .start s as false :: run content 0 rest := by
  rw [run_openTag hs, run_writtenAttributes (Or.inl rfl) has (by simpa using hsorted)]
  simp [OpenTag.token]

/-- An end tag. -/
theorem run_endTag {s : String} (hs : isPlainName s = true) :
    run content 0 ('<' :: '/' :: (s.toList ++ '>' :: rest)) = .stop s :: run content 0 rest := by
  rw [run_closeTag hs]
  exact run_done rfl

/-! ### Reading comments -/

end ReadState

/-- The dashes and exclamation marks that have been read and may belong to the end of the
comment. -/
def CommentPlace.pending : CommentPlace → String
  | start => ""
  | startDash => "-"
  | body => ""
  | dash => "-"
  | dashes => "--"
  | bang => "--!"

namespace ReadState

open ReadStep

variable {rest : List Char}

/-- A character that cannot end the comment is taken into what has been read of it, the pending
characters included. -/
theorem commentStep_eq (place : CommentPlace) (data : String) {c : Char} (hend : c ≠ '>')
    (hnull : c ≠ '\x00') : ∃ place' data', commentStep place data c = go (comment place' data') ∧
      data' ++ place'.pending = (data ++ place.pending).push c := by
  have hbody (pending : String) : (data ++ pending).push (withoutNull c) ++
      CommentPlace.body.pending = (data ++ pending).push c := by
    rw [withoutNull, if_neg hnull, CommentPlace.pending, String.append_empty]
  have hread {s t : String} (h : s.toList = t.toList) : s = t := String.toList_inj.1 h
  cases place with
  | start =>
    by_cases hdash : c = '-'
    · exact ⟨.startDash, data, by simp [commentStep, hdash],
        hread (by simp [CommentPlace.pending, hdash])⟩
    · exact ⟨_, _, by simp [commentStep, hdash, hend], hbody ""⟩
  | startDash =>
    by_cases hdash : c = '-'
    · exact ⟨.dashes, data, by simp [commentStep, hdash],
        hread (by simp [CommentPlace.pending, hdash])⟩
    · exact ⟨_, _, by simp [commentStep, hdash, hend], hbody "-"⟩
  | body =>
    by_cases hdash : c = '-'
    · exact ⟨.dash, data, by simp [commentStep, hdash],
        hread (by simp [CommentPlace.pending, hdash])⟩
    · exact ⟨_, _, by simp [commentStep, hdash], hbody ""⟩
  | dash =>
    by_cases hdash : c = '-'
    · exact ⟨.dashes, data, by simp [commentStep, hdash],
        hread (by simp [CommentPlace.pending, hdash])⟩
    · exact ⟨_, _, by simp [commentStep, hdash], hbody "-"⟩
  | dashes =>
    by_cases hdash : c = '-'
    · exact ⟨.dashes, data.push '-', by simp [commentStep, hdash],
        hread (by simp [CommentPlace.pending, hdash])⟩
    · by_cases hbang : c = '!'
      · exact ⟨.bang, data, by simp [commentStep, hbang],
          hread (by simp [CommentPlace.pending, hbang])⟩
      · exact ⟨_, _, by simp [commentStep, hdash, hbang, hend], hbody "--"⟩
  | bang =>
    by_cases hdash : c = '-'
    · exact ⟨.dash, data ++ "--!", by simp [commentStep, hdash],
        hread (by simp [CommentPlace.pending, hdash])⟩
    · exact ⟨_, _, by simp [commentStep, hdash, hend], hbody "--!"⟩

/-- The end of a comment completes all that has been read of it, the pending characters included. -/
theorem run_commentEnd (place : CommentPlace) (data : String) :
    run (comment place data) 0 ('-' :: '-' :: '>' :: rest) =
      .comment (data ++ place.pending) :: run content 0 rest := by
  have hdash : data ++ "-" = data.push '-' := String.toList_inj.1 (by simp)
  have hdashes : data ++ "--" = (data.push '-').push '-' := String.toList_inj.1 (by simp)
  cases place with
  | start =>
    rw [run_go (comment .startDash data) rfl, run_go (comment .dashes data) rfl, run_done rfl,
      CommentPlace.pending, String.append_empty]
  | startDash =>
    rw [run_go (comment .dashes data) rfl, run_go (comment .dashes (data.push '-')) rfl,
      run_done rfl, CommentPlace.pending, hdash]
  | body =>
    rw [run_go (comment .dash data) rfl, run_go (comment .dashes data) rfl, run_done rfl,
      CommentPlace.pending, String.append_empty]
  | dash =>
    rw [run_go (comment .dashes data) rfl, run_go (comment .dashes (data.push '-')) rfl,
      run_done rfl, CommentPlace.pending, hdash]
  | dashes =>
    rw [run_go (comment .dashes (data.push '-')) rfl,
      run_go (comment .dashes ((data.push '-').push '-')) rfl, run_done rfl,
      CommentPlace.pending, hdashes]
  | bang =>
    rw [run_go (comment .dash (data ++ "--!")) rfl,
      run_go (comment .dashes (data ++ "--!")) rfl, run_done rfl, CommentPlace.pending]

/-- A comment is read up to its end, whatever dashes and exclamation marks are in it. -/
theorem run_commentData {cs : List Char} (hend : '>' ∉ cs) (hnull : '\x00' ∉ cs)
    (place : CommentPlace) (data : String) :
    run (comment place data) 0 (cs ++ '-' :: '-' :: '>' :: rest) =
      .comment (data ++ place.pending ++ String.ofList cs) :: run content 0 rest := by
  induction cs generalizing place data with
  | nil => simpa using run_commentEnd place data
  | cons c cs ih =>
    rw [List.mem_cons, not_or] at hend hnull
    obtain ⟨place', data', hstep, hread⟩ :=
      commentStep_eq place data (Ne.symm hend.1) (Ne.symm hnull.1)
    have hfirst : step (comment place data) c (cs ++ '-' :: '-' :: '>' :: rest) =
        go (comment place' data') := hstep
    rw [List.cons_append, run_go _ hfirst, ih hend.2 hnull.2, hread, String.ofList_cons,
      ← String.append_assoc, String.append_singleton]

/-- A written comment. -/
theorem run_writtenComment {s : String} (hend : '>' ∉ s.toList) (hnull : '\x00' ∉ s.toList) :
    run content 0 ('<' :: '!' :: '-' :: '-' :: (s.toList ++ '-' :: '-' :: '>' :: rest)) =
      .comment s :: run content 0 rest := by
  have hbegin : run opened 0 ('!' :: '-' :: '-' :: (s.toList ++ '-' :: '-' :: '>' :: rest)) =
      run (comment .start "") 0 (s.toList ++ '-' :: '-' :: '>' :: rest) := rfl
  rw [run_go opened rfl, hbegin, run_commentData hend hnull]
  simp [CommentPlace.pending]

end ReadState

/-! ### Reading trees -/

namespace Tree

mutual

/-- The tokens that a tree is written as, where `texts` gives those of a text. -/
def tokens (texts : String → List Token) : Tree → List Token
  | element tag attributes children =>
    .start tag attributes false ::
      if isVoidTag tag then [] else tokensAll texts children ++ [.stop tag]
  | text data => texts data
  | comment data => [.comment data]

/-- The tokens that siblings are written as. -/
def tokensAll (texts : String → List Token) : List Tree → List Token
  | [] => []
  | t :: ts => t.tokens texts ++ tokensAll texts ts

end

/-- The characters of a text, each a token of its own. -/
def letters (s : String) : List Token := s.toList.map fun c => .text c.toString

end Tree

namespace ReadState

open Tree

mutual

/-- The written form of a plain tree is read as its tokens, each character of a text by itself. -/
theorem run_writtenTree (t : Tree) (ht : t.Plain) (rest : List Char) :
    run content 0 ((t.written false).toList ++ rest) =
      t.tokens letters ++ run content 0 rest := by
  cases t with
  | text data =>
    rw [Tree.written, if_neg (by simp), run_escapeText]
    rfl
  | comment data =>
    obtain ⟨hend, hnull, -⟩ := ht
    have hlist : ((Tree.comment data).written false).toList ++ rest =
        '<' :: '!' :: '-' :: '-' :: (data.toList ++ '-' :: '-' :: '>' :: rest) := by
      simp [Tree.written]
    rw [hlist, run_writtenComment hend hnull]
    rfl
  | element tag attributes children =>
    obtain ⟨hname, hraw, hattributes, hsorted, hvoid, -, hchildren⟩ := ht
    by_cases hv : isVoidTag tag = true
    · have hlist : ((element tag attributes children).written false).toList ++ rest =
          '<' :: (tag.toList ++ ((writtenAttributes attributes).toList ++ '>' :: rest)) := by
        simp [Tree.written, hv]
      rw [hlist, run_startTag hname hattributes hsorted, tokens, if_pos hv]
      rfl
    · have hlist : ((element tag attributes children).written false).toList ++ rest =
          '<' :: (tag.toList ++ ((writtenAttributes attributes).toList ++ '>' ::
            ((writtenAll false children).toList ++
              '<' :: '/' :: (tag.toList ++ '>' :: rest)))) := by
        simp [Tree.written, hv, hraw]
      rw [hlist, run_startTag hname hattributes hsorted, run_writtenAll children hchildren,
        run_endTag hname, tokens, if_neg hv]
      simp

/-- The written form of plain siblings is read as their tokens. -/
theorem run_writtenAll (ts : List Tree) (hts : PlainAll ts) (rest : List Char) :
    run content 0 ((writtenAll false ts).toList ++ rest) =
      tokensAll letters ts ++ run content 0 rest := by
  cases ts with
  | nil => simp [writtenAll, tokensAll]
  | cons t ts =>
    rw [writtenAll, String.toList_append, List.append_assoc, run_writtenTree t hts.1,
      run_writtenAll ts hts.2.2, tokensAll, List.append_assoc]

end

end ReadState

end LiveMarkup
