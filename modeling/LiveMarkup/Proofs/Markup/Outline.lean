import Mathlib.Data.String.Basic
import LiveMarkup.Markup.Nesting

/-!
# The outline of what is read

The outline of trees lists their nodes in document order without their depths.  Nesting tokens keeps
their order: whatever has been read, the outline of the trees outside all open elements, followed by
the open elements from the outside in, each before what it holds so far, lists one node for every
start tag, text and comment that has been taken (`Nest.outline_take`).  This is so because a node is
only ever added behind all others, and closing an element moves nothing.  At the end there is the
outline of the trees (`Tree.outlineAll_ofTokens`), and their text is what the tokens say
(`Tree.innerTexts_ofTokens`).
-/

namespace LiveMarkup

/-- The row at depth zero. -/
def Row.flat : Row → Row
  | element _ tag attributes => .element 0 tag attributes
  | text _ data => .text 0 data
  | comment _ data => .comment 0 data
  | fragment _ => .fragment 0
  | attr _ value => .attr 0 value

/-- The text of a row that is a text. -/
def Row.word? : Row → Option String
  | text _ data => some data
  | _ => none

/-- The node that a token stands for: end tags and document types stand for none. -/
def Token.row? : Token → Option Row
  | start tag attributes _ => some (.element 0 tag attributes)
  | text data => some (.text 0 data)
  | comment data => some (.comment 0 data)
  | stop _ | doctype => none

/-- The text of a token that is a text. -/
def Token.word? : Token → Option String
  | text data => some data
  | _ => none

theorem Token.row?_bind_word? (t : Token) : t.row?.bind Row.word? = t.word? := by
  cases t <;> rfl

namespace Tree

/-! ### Outlines of trees -/

/-- The nodes of a tree in document order, without their depths. -/
def outline (t : Tree) : List Row := (t.rows 0).map Row.flat

/-- The nodes of siblings in document order, without their depths. -/
def outlineAll (ts : List Tree) : List Row := (rowsAll 0 ts).map Row.flat

mutual

theorem map_flat_rows (depth : Nat) (t : Tree) : (t.rows depth).map Row.flat = t.outline := by
  cases t with
  | text data | comment data => rfl
  | element tag attributes children =>
    have hchildren := map_flat_rowsAll (depth + 1) children
    have hfirst := map_flat_rowsAll 1 children
    simp only [outline, rows, List.map_cons, hchildren, hfirst]
    rfl

theorem map_flat_rowsAll (depth : Nat) (ts : List Tree) :
    (rowsAll depth ts).map Row.flat = outlineAll ts := by
  cases ts with
  | nil => rfl
  | cons t ts =>
    have htree := map_flat_rows depth t
    have hrest := map_flat_rowsAll depth ts
    rw [outlineAll, rowsAll, rowsAll, List.map_append, List.map_append, htree, hrest]
    rfl

end

@[simp] theorem outline_element (tag : String) (attributes : List Attribute)
    (children : List Tree) :
    (element tag attributes children).outline =
      .element 0 tag attributes :: outlineAll children := by
  rw [outline, rows, List.map_cons, map_flat_rowsAll]
  rfl

@[simp] theorem outline_text (data : String) : (text data).outline = [.text 0 data] := rfl

@[simp] theorem outline_comment (data : String) : (comment data).outline = [.comment 0 data] := rfl

@[simp] theorem outlineAll_nil : outlineAll [] = [] := rfl

@[simp] theorem outlineAll_cons (t : Tree) (ts : List Tree) :
    outlineAll (t :: ts) = t.outline ++ outlineAll ts := by
  rw [outlineAll, rowsAll, List.map_append]
  rfl

@[simp] theorem outlineAll_append (ts us : List Tree) :
    outlineAll (ts ++ us) = outlineAll ts ++ outlineAll us := by
  induction ts with
  | nil => rfl
  | cons t ts ih => simp [ih]

mutual

/-- The text of a tree is made of the texts in its outline. -/
theorem innerText_eq (t : Tree) : t.innerText = String.join (t.outline.filterMap Row.word?) := by
  cases t with
  | text data => simp [innerText, Row.word?, String.join_cons]
  | comment data => rfl
  | element tag attributes children =>
    rw [innerText, innerTexts_eq children, outline_element]
    rfl

theorem innerTexts_eq (ts : List Tree) :
    innerTexts ts = String.join ((outlineAll ts).filterMap Row.word?) := by
  cases ts with
  | nil => rfl
  | cons t ts =>
    rw [innerTexts, innerText_eq t, innerTexts_eq ts, outlineAll_cons, List.filterMap_append,
      String.join_append]

end

/-! ### Joining texts -/

theorem innerTexts_joinText (t : Tree) (ts : List Tree) :
    innerTexts (joinText t ts) = t.innerText ++ innerTexts ts := by
  unfold joinText
  split
  · simp [innerTexts, innerText, String.append_assoc]
  · split_ifs with hempty
    · rw [String.isEmpty_iff] at hempty
      simp [innerText, hempty]
    · rfl
  · rfl

mutual

/-- Joining texts that stand side by side and leaving out empty ones keeps the text. -/
theorem innerText_joined (t : Tree) : t.joined.innerText = t.innerText := by
  cases t with
  | text data | comment data => rfl
  | element tag attributes children =>
    rw [joined, innerText, innerText, innerTexts_joinedAll children]

theorem innerTexts_joinedAll (ts : List Tree) : innerTexts (joinedAll ts) = innerTexts ts := by
  cases ts with
  | nil => rfl
  | cons t ts =>
    rw [joinedAll, innerTexts_joinText, innerText_joined t, innerTexts_joinedAll ts, innerTexts]

end

end Tree

namespace Nest

open Tree

/-! ### Outlines of trees under construction -/

/-- An open element and what it holds so far. -/
def openRows (e : OpenElement) : List Row :=
  .element 0 e.tag e.attributes :: outlineAll e.children.reverse

theorem openRows_eq (e : OpenElement) : openRows e = e.tree.outline := by
  rw [openRows, OpenElement.tree, outline_element]

/-- All that has been read: the trees outside the open elements, then these from the outside in. -/
def outline (n : Nest) : List Row :=
  outlineAll n.outside.reverse ++ n.opened.reverse.flatMap openRows

variable {n : Nest}

/-- A tree is added behind all that has been read. -/
theorem outline_add (n : Nest) (t : Tree) : (n.add t).outline = n.outline ++ t.outline := by
  obtain ⟨_ | ⟨e, es⟩, outside⟩ := n <;> simp [Nest.add, outline, openRows]

/-- An element is opened behind all that has been read. -/
theorem outline_openElement (n : Nest) (tag : String) (attributes : List Attribute) :
    (n.openElement tag attributes).outline = n.outline ++ [.element 0 tag attributes] := by
  simp [openElement, outline, openRows]

/-- Closing elements moves nothing: the innermost one is the last tree where it stands. -/
theorem outline_close (n : Nest) (count : ℕ) : (n.close count).outline = n.outline := by
  induction count generalizing n with
  | zero => rfl
  | succ count ih =>
    obtain ⟨_ | ⟨e, es⟩, outside⟩ := n
    · rfl
    · rw [Nest.close, ih, outline_add, ← openRows_eq]
      simp [outline]

theorem outline_closeBefore (n : Nest) (tag : String) :
    (n.closeBefore tag).outline = n.outline := by
  unfold closeBefore
  split_ifs
  · exact outline_close n 1
  · rfl

/-- A token adds the node it stands for behind all others. -/
theorem outline_take (n : Nest) (t : Token) : (n.take t).outline = n.outline ++ t.row?.toList := by
  cases t with
  | start tag attributes selfClosing =>
    simp only [Nest.take]
    split_ifs
    · rw [outline_add, outline_closeBefore]
      rfl
    · rw [outline_openElement, outline_closeBefore]
      rfl
  | stop tag =>
    simp only [Nest.take, Token.row?, Option.toList_none, List.append_nil]
    split
    · exact outline_close n _
    · rfl
  | text data => exact outline_add n _
  | comment data => exact outline_add n _
  | doctype => exact (List.append_nil _).symm

/-- Tokens add the nodes they stand for, in order. -/
theorem outline_foldl_take (n : Nest) (ts : List Token) :
    (ts.foldl Nest.take n).outline = n.outline ++ ts.filterMap Token.row? := by
  induction ts generalizing n with
  | nil => simp
  | cons t ts ih =>
    rw [List.foldl_cons, ih, outline_take, List.append_assoc]
    cases h : t.row? <;> simp [h]

theorem length_opened_close (n : Nest) (count : ℕ) :
    (n.close count).opened.length = n.opened.length - count := by
  induction count generalizing n with
  | zero => rfl
  | succ count ih =>
    obtain ⟨_ | ⟨e, es⟩, outside⟩ := n
    · simp [Nest.close]
    · rw [Nest.close, ih]
      cases es <;> simp [Nest.add]

/-- The finished trees are all that has been read. -/
theorem outlineAll_trees (n : Nest) : outlineAll n.trees = n.outline := by
  have hnone : (n.close n.opened.length).opened = [] :=
    List.length_eq_zero_iff.1 ((length_opened_close n _).trans (Nat.sub_self _))
  rw [← outline_close n n.opened.length, outline, hnone, trees]
  simp

end Nest

namespace Tree

/-! ### Outlines of tokens -/

/-- The trees that tokens describe have one node for every start tag, text and comment, in their
order. -/
theorem outlineAll_ofTokens (ts : List Token) :
    outlineAll (ofTokens ts) = ts.filterMap Token.row? := by
  rw [ofTokens, Nest.outlineAll_trees, Nest.outline_foldl_take]
  rfl

/-- The text of the trees is made of the texts among the tokens. -/
theorem innerTexts_ofTokens (ts : List Token) :
    innerTexts (ofTokens ts) = String.join (ts.filterMap Token.word?) := by
  rw [innerTexts_eq, outlineAll_ofTokens, List.filterMap_filterMap]
  simp only [Token.row?_bind_word?]

/-- The text of markup is made of its texts. -/
theorem innerTexts_ofMarkup (markup : String) :
    innerTexts (ofMarkup markup) = String.join ((Token.ofMarkup markup).filterMap Token.word?) := by
  rw [ofMarkup, innerTexts_joinedAll, innerTexts_ofTokens]

end Tree

end LiveMarkup
