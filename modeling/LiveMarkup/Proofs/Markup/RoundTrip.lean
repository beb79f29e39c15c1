import LiveMarkup.Proofs.Forest.Layout
import LiveMarkup.Proofs.Markup.Plain

/-!
# Written markup is read back

Plain trees are read from their written form as they were (`Tree.ofMarkup_writtenAll`): the letters
of each text are joined again, every end tag closes the element that it was written for, and no
start tag closes anything.  So a fragment that is parsed from the inner markup of a fragment looks
like it (`Forest.snapshot_plantFragment_inner`). -/

namespace LiveMarkup

open Tree

/-! ### Joining letters -/

namespace Token

/-- The tokens do not begin with a text. -/
def Apart (ts : List Token) : Prop := ∀ s, ts.head? ≠ some (.text s)

theorem joinText_of_apart {ts : List Token} (h : Apart ts) (s : String) :
    joinText (.text s) ts = .text s :: ts := by
  cases ts with
  | nil => rfl
  | cons t ts =>
    cases t with
    | text data => exact absurd rfl (h data)
    | start | stop | comment | doctype => rfl

theorem joinText_text_text (a b : String) (ts : List Token) :
    joinText (.text a) (joinText (.text b) ts) = joinText (.text (a ++ b)) ts := by
  cases ts with
  | nil => rfl
  | cons t ts =>
    cases t with
    | text data => simp [joinText, String.append_assoc]
    | start | stop | comment | doctype => rfl

/-- The letters of a text are joined to the text. -/
theorem joinTexts_letters {s : String} (hs : s ≠ "") (ts : List Token) :
    joinTexts (letters s ++ ts) = joinText (.text s) (joinTexts ts) := by
  have hjoin : ∀ cs : List Char, cs ≠ [] →
      joinTexts ((cs.map fun c => .text c.toString) ++ ts) =
        joinText (.text (String.ofList cs)) (joinTexts ts) := by
    intro cs
    induction cs with
    | nil => exact fun h => absurd rfl h
    | cons c cs ih =>
      intro _
      rw [List.map_cons, List.cons_append, joinTexts, String.ofList_cons,
        ← Char.toString_eq_singleton]
      by_cases hcs : cs = []
      · subst hcs
        simp
      · rw [ih hcs, joinText_text_text]
  rw [letters, hjoin s.toList (by simpa using hs), String.ofList_toList]

end Token

namespace Tree

/-- A text as one token. -/
def whole (s : String) : List Token := [.text s]

/-- Only texts begin with a text. -/
theorem apart_tokens {t : Tree} (ht : t.isText = false) (ts : List Token) :
    Token.Apart (t.tokens whole ++ ts) := by
  cases t with
  | text data => cases ht
  | element | comment => simp [tokens, Token.Apart]

mutual

/-- Joining the letters of a plain tree gives its texts as one token each. -/
theorem joinTexts_tokens (t : Tree) (ht : t.Plain) {ts : List Token}
    (hts : t.isText = true → Token.Apart (Token.joinTexts ts)) :
    Token.joinTexts (t.tokens letters ++ ts) = t.tokens whole ++ Token.joinTexts ts := by
  cases t with
  | text data =>
    rw [tokens, Token.joinTexts_letters ht.1, Token.joinText_of_apart (hts rfl)]
    rfl
  | comment data => rfl
  | element tag attributes children =>
    obtain ⟨-, -, -, -, -, -, hchildren⟩ := ht
    rw [tokens, tokens]
    by_cases hv : isVoidTag tag = true
    · rw [if_pos hv, if_pos hv]
      rfl
    · rw [if_neg hv, if_neg hv, List.cons_append, List.cons_append, List.append_assoc,
        List.append_assoc, Token.joinTexts, joinTexts_tokensAll children hchildren]
      · rfl
      · simp [Token.joinTexts, Token.joinText, Token.Apart]

theorem joinTexts_tokensAll (us : List Tree) (hus : PlainAll us) {ts : List Token}
    (hts : Token.Apart (Token.joinTexts ts)) :
    Token.joinTexts (tokensAll letters us ++ ts) = tokensAll whole us ++ Token.joinTexts ts := by
  cases us with
  | nil => rfl
  | cons u us =>
    obtain ⟨hu, hnext, hrest⟩ := hus
    have hjoined := joinTexts_tokensAll us hrest hts
    rw [tokensAll, tokensAll, List.append_assoc, joinTexts_tokens u hu fun htext => ?_, hjoined,
      List.append_assoc]
    rw [hjoined]
    cases us with
    | nil => exact hts
    | cons v us =>
      rw [tokensAll, List.append_assoc]
      exact apart_tokens (hnext htext v rfl) _

end

end Tree

/-! ### Nesting -/

namespace Nest

variable {n : Nest}

theorem head_add (n : Nest) (t : Tree) :
    (n.add t).opened.head?.map OpenElement.tag = n.opened.head?.map OpenElement.tag := by
  unfold add
  cases n.opened <;> simp

theorem closeBefore_eq_self {tag : String}
    (h : tag ∈ selfEndingTags → n.opened.head?.map OpenElement.tag ≠ some tag) :
    n.closeBefore tag = n := by
  rw [closeBefore, if_neg]
  simpa using h

/-- Siblings are added one after the other. -/
theorem foldl_add_openElement (ts : List Tree) (e : OpenElement) (es : List OpenElement)
    (outside : List Tree) :
    ts.foldl add ⟨e :: es, outside⟩ =
      ⟨{ e with children := ts.reverse ++ e.children } :: es, outside⟩ := by
  induction ts generalizing e with
  | nil => rfl
  | cons t ts ih => simp [add, ih]

theorem foldl_add_outside (ts : List Tree) (outside : List Tree) :
    ts.foldl add ⟨[], outside⟩ = ⟨[], ts.reverse ++ outside⟩ := by
  induction ts generalizing outside with
  | nil => rfl
  | cons t ts ih => simp [add, ih]

mutual

/-- The tokens of a plain tree add it, unless its start tag ends the element that it is in. -/
theorem foldl_take_tokens (t : Tree) (ht : t.Plain) (n : Nest)
    (hn : ∀ tag ∈ t.tag?, tag ∈ selfEndingTags →
      n.opened.head?.map OpenElement.tag ≠ some tag) :
    (t.tokens whole).foldl take n = n.add t := by
  cases t with
  | text data => rfl
  | comment data => rfl
  | element tag attributes children =>
    obtain ⟨-, -, -, -, hvoid, hself, hchildren⟩ := ht
    have hbefore : n.closeBefore tag = n := closeBefore_eq_self (hn tag rfl)
    rw [tokens, List.foldl_cons]
    by_cases hv : isVoidTag tag = true
    · rw [if_pos hv, hvoid hv]
      simp [take, hbefore, hv]
    · have hopen : n.take (.start tag attributes false) = n.openElement tag attributes := by
        simp [take, hbefore, hv]
      rw [if_neg hv, hopen, List.foldl_append, foldl_take_tokensAll children hchildren, openElement,
        foldl_add_openElement]
      · simp [take, List.findIdx?_cons, close, OpenElement.tree]
      · intro c hc inner hinner hmem heq
        obtain rfl : tag = inner := by simpa [openElement] using heq
        exact hself hmem c hc hinner

theorem foldl_take_tokensAll (ts : List Tree) (hts : PlainAll ts) (n : Nest)
    (hn : ∀ t ∈ ts, ∀ tag ∈ t.tag?, tag ∈ selfEndingTags →
      n.opened.head?.map OpenElement.tag ≠ some tag) :
    (tokensAll whole ts).foldl take n = ts.foldl add n := by
  cases ts with
  | nil => rfl
  | cons t ts =>
    rw [tokensAll, List.foldl_append, foldl_take_tokens t hts.1 n (hn t List.mem_cons_self),
      foldl_take_tokensAll ts hts.2.2, List.foldl_cons]
    intro u hu tag htag hmem
    rw [head_add]
    exact hn u (List.mem_cons_of_mem t hu) tag htag hmem

end

/-- The tokens of plain trees are nested to these trees. -/
theorem ofTokens_tokensAll {ts : List Tree} (hts : PlainAll ts) :
    ofTokens (tokensAll whole ts) = ts := by
  rw [ofTokens, foldl_take_tokensAll ts hts empty (by simp [empty]), empty, foldl_add_outside]
  simp [trees, close]

end Nest

/-! ### Joining texts -/

namespace Tree

mutual

/-- There is nothing to join in a plain tree. -/
theorem joined_of_plain (t : Tree) (ht : t.Plain) : t.joined = t := by
  cases t with
  | text data => rfl
  | comment data => rfl
  | element tag attributes children =>
    obtain ⟨-, -, -, -, -, -, hchildren⟩ := ht
    rw [joined, joinedAll_of_plainAll children hchildren]

theorem joinedAll_of_plainAll (ts : List Tree) (hts : PlainAll ts) : joinedAll ts = ts := by
  cases ts with
  | nil => rfl
  | cons t ts =>
    obtain ⟨ht, hnext, hrest⟩ := hts
    rw [joinedAll, joined_of_plain t ht, joinedAll_of_plainAll ts hrest]
    cases t with
    | element tag attributes children => rfl
    | comment data => rfl
    | text data =>
      have hempty : data.isEmpty = false := by simpa using ht.1
      cases ts with
      | nil => simp [joinText, hempty]
      | cons u ts =>
        cases u with
        | text other => exact absurd (hnext rfl (.text other) rfl) (by simp [isText])
        | element | comment => simp [joinText, hempty]

end

/-! ### Newlines -/

theorem unifyNewlines_eq_self {cs : List Char} (h : '\r' ∉ cs) : unifyNewlines cs = cs := by
  induction cs with
  | nil => rfl
  | cons c cs ih =>
    rw [List.mem_cons, not_or] at h
    rw [unifyNewlines, ih h.2]
    · exact fun _ hc _ => h.1 hc.symm
    · exact fun hc => h.1 hc.symm

theorem not_mem_of_mem_escapes {c : Char} {name : String} (h : (c, name) ∈ Reference.escapes) :
    '\r' ∉ '&' :: name.toList := by
  have hall : ∀ p ∈ Reference.escapes, '\r' ∉ '&' :: p.2.toList := by decide
  exact hall (c, name) h

theorem not_mem_escapeText {s : String} (hs : '\r' ∉ s.toList) : '\r' ∉ (escapeText s).toList := by
  rw [toList_escapeText, List.mem_flatMap]
  rintro ⟨c, hc, hin⟩
  rcases escapeTextChar_cases c with ⟨name, hmem, heq⟩ | ⟨-, -, heq⟩
  · exact not_mem_of_mem_escapes hmem (heq ▸ hin)
  · rw [heq, Char.toString_eq_singleton, String.toList_singleton, List.mem_singleton] at hin
    exact hs (hin ▸ hc)

theorem not_mem_escapeValue {s : String} (hs : '\r' ∉ s.toList) :
    '\r' ∉ (escapeValue s).toList := by
  rw [toList_escapeValue, List.mem_flatMap]
  rintro ⟨c, hc, hin⟩
  rcases escapeValueChar_cases c with ⟨name, hmem, heq⟩ | ⟨-, -, heq⟩
  · exact not_mem_of_mem_escapes hmem (heq ▸ hin)
  · rw [heq, Char.toString_eq_singleton, String.toList_singleton, List.mem_singleton] at hin
    exact hs (hin ▸ hc)

theorem not_mem_of_isPlainName {s : String} (hs : isPlainName s = true) : '\r' ∉ s.toList := by
  obtain ⟨c, cs, hlist, hlower, hcs⟩ := isPlainName_iff.1 hs
  rw [hlist, List.mem_cons, not_or]
  refine ⟨?_, fun hin => ?_⟩
  · exact (ne_of_isNameChar (isNameChar_of_isLower hlower) '\r' (by decide)).symm
  · exact ne_of_isNameChar (hcs _ hin) '\r' (by decide) rfl

theorem not_mem_writtenAttributes {as : List Attribute} (has : ∀ a ∈ as, a.Plain) :
    '\r' ∉ (writtenAttributes as).toList := by
  induction as with
  | nil => simp [writtenAttributes]
  | cons a as ih =>
    obtain ⟨hname, -, hvalue⟩ := has a List.mem_cons_self
    have hrest := ih fun b hb => has b (List.mem_cons_of_mem a hb)
    simp [writtenAttributes, Attribute.written, not_mem_of_isPlainName hname,
      not_mem_escapeValue hvalue, hrest]

mutual

/-- There is no carriage return in the written form of a plain tree. -/
theorem not_mem_written (t : Tree) (ht : t.Plain) : '\r' ∉ (t.written false).toList := by
  cases t with
  | text data =>
    rw [written, if_neg (by simp)]
    exact not_mem_escapeText ht.2
  | comment data => simp [written, ht.2.2]
  | element tag attributes children =>
    obtain ⟨hname, hraw, hattributes, -, -, -, hchildren⟩ := ht
    have htag := not_mem_of_isPlainName hname
    have hattrs := not_mem_writtenAttributes hattributes
    have hinner := not_mem_writtenAll children hchildren
    by_cases hv : isVoidTag tag = true
    · simp [written, hv, htag, hattrs]
    · simp [written, hv, hraw, htag, hattrs, hinner]

theorem not_mem_writtenAll (ts : List Tree) (hts : PlainAll ts) :
    '\r' ∉ (writtenAll false ts).toList := by
  cases ts with
  | nil => simp [writtenAll]
  | cons t ts =>
    rw [writtenAll, String.toList_append, List.mem_append, not_or]
    exact ⟨not_mem_written t hts.1, not_mem_writtenAll ts hts.2.2⟩

end

/-! ### Reading what was written -/

/-- Plain trees are read from their written form as they were. -/
theorem ofMarkup_writtenAll {ts : List Tree} (hts : PlainAll ts) :
    ofMarkup (writtenAll false ts) = ts := by
  have hrun := ReadState.run_writtenAll ts hts []
  have htokens : Token.ofMarkup (writtenAll false ts) = tokensAll whole ts := by
    rw [Token.ofMarkup, unifyNewlines_eq_self (not_mem_writtenAll ts hts),
      ← List.append_nil (writtenAll false ts).toList, hrun]
    have hend : Token.Apart (Token.joinTexts []) := by simp [Token.joinTexts, Token.Apart]
    have hjoined := joinTexts_tokensAll ts hts hend
    simpa [ReadState.run, ReadState.finish, Token.joinTexts] using hjoined
  rw [ofMarkup, htokens, Nest.ofTokens_tokensAll hts, joinedAll_of_plainAll ts hts]

end Tree

namespace Forest

mutual

/-- Every tree can be labelled. -/
theorem exists_tree_eq (t : Tree) : ∃ L : Labelled Unit, L.tree = t := by
  cases t with
  | text data => exact ⟨.text () data, rfl⟩
  | comment data => exact ⟨.comment () data, rfl⟩
  | element tag attributes children =>
    obtain ⟨Ls, hLs⟩ := exists_trees_eq children
    exact ⟨.element () tag (attributes.map fun a => ((), a)) Ls, by
      simp [Labelled.tree, hLs, Function.comp_def]⟩

theorem exists_trees_eq (ts : List Tree) : ∃ Ls : List (Labelled Unit), Labelled.trees Ls = ts := by
  cases ts with
  | nil => exact ⟨[], rfl⟩
  | cons t ts =>
    obtain ⟨L, hL⟩ := exists_tree_eq t
    obtain ⟨Ls, hLs⟩ := exists_trees_eq ts
    exact ⟨L :: Ls, by rw [Labelled.trees, hL, hLs]⟩

end

/-- A fragment that is planted looks like the trees. -/
theorem snapshot_plantFragment (f : Forest) (ts : List Tree) :
    (f.plantFragment ts).2.snapshot (f.plantFragment ts).1 = .fragment ts := by
  obtain ⟨Ls, rfl⟩ := exists_trees_eq ts
  obtain ⟨hroot, hkind, -, -, hlayout⟩ := f.holdsBelow_plantFragment Ls
  rw [hroot, hlayout.snapshot hkind (Labelled.nodup_labels_numberedAll _ Ls),
    Labelled.trees_numberedAll]

/-- A fragment of plain trees is equal in structure to the one that is parsed from its inner
markup, in whatever forest. -/
theorem snapshot_plantFragment_inner (f g : Forest) {n : NodeId} {ts : List Tree}
    (hn : f.snapshot n = .fragment ts) (hts : Tree.PlainAll ts) :
    (g.plantFragment (Tree.ofMarkup (f.snapshot n).inner)).2.snapshot
      (g.plantFragment (Tree.ofMarkup (f.snapshot n).inner)).1 = f.snapshot n := by
  rw [snapshot_plantFragment, hn, Snapshot.inner, Tree.ofMarkup_writtenAll hts]

/-- Trees with all that is escaped, nested or hard to end. -/
def trickyTrees : List Tree :=
  [.element "p" [⟨"data-a", "1 < \"2\" & 3"⟩, ⟨"id", ""⟩]
      [.text "a & b < c", .element "br" [] [], .comment "--!", .text " > d"],
    .comment "-", .element "ul" [] [.element "li" [] [.text "1"], .element "li" [] [.text "2"]]]

/-- The tricky trees are read from their written form. -/
theorem snapshot_plantFragment_inner_trickyTrees :
    let f := (Forest.empty.plantFragment trickyTrees).2
    f.snapshot 0 = .fragment trickyTrees ∧ Tree.PlainAll trickyTrees ∧
      (f.plantFragment (Tree.ofMarkup (f.snapshot 0).inner)).2.snapshot
        (f.plantFragment (Tree.ofMarkup (f.snapshot 0).inner)).1 = f.snapshot 0 := by
  have hplanted : (Forest.empty.plantFragment trickyTrees).2.snapshot 0 = .fragment trickyTrees :=
    snapshot_plantFragment Forest.empty trickyTrees
  have hplain : Tree.PlainAll trickyTrees := by decide +kernel
  exact ⟨hplanted, hplain, snapshot_plantFragment_inner _ _ hplanted hplain⟩

end Forest

end LiveMarkup
