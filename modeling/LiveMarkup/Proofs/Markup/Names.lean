import Mathlib.Data.String.Basic
import LiveMarkup.Markup.Nesting
import LiveMarkup.Proofs.Forest.Planting

/-!
# Names of attributes in markup

Reading gives every element attributes with different names in small letters
(`Tree.namedAll_ofMarkup`).  The reader keeps the attributes of the tag it is in sorted by name, so
no name comes twice, and it turns every character of a name into a small one.
-/

namespace LiveMarkup

/-! ### Sorted attributes -/

/-- Attributes with names in small letters, each name before the next. -/
structure SortedNames (as : List Attribute) : Prop where
  small : ∀ a ∈ as, IsSmall a.name
  sorted : as.Pairwise (·.name < ·.name)

theorem SortedNames.nil : SortedNames [] := ⟨by simp, List.Pairwise.nil⟩

theorem SortedNames.nodup {as : List Attribute} (h : SortedNames as) :
    (as.map Attribute.name).Nodup :=
  List.pairwise_map.2 (h.sorted.imp fun hlt => ne_of_lt hlt)

theorem mem_insertByName {a b : Attribute} {bs : List Attribute} (h : b ∈ insertByName a bs) :
    b = a ∨ b ∈ bs := by
  induction bs with
  | nil => simpa [insertByName] using h
  | cons c bs ih =>
    rw [insertByName] at h
    split_ifs at h
    · exact Or.inr h
    · simpa using h
    · rcases List.mem_cons.1 h with rfl | h
      · simp
      · exact (ih h).imp id fun hb => List.mem_cons_of_mem c hb

theorem pairwise_insertByName {a : Attribute} {as : List Attribute}
    (h : as.Pairwise (·.name < ·.name)) : (insertByName a as).Pairwise (·.name < ·.name) := by
  induction as with
  | nil => simp [insertByName]
  | cons b bs ih =>
    rw [insertByName]
    obtain ⟨hb, hbs⟩ := List.pairwise_cons.1 h
    split_ifs with heq hlt
    · exact h
    · refine List.pairwise_cons.2 ⟨fun c hc => ?_, h⟩
      rcases List.mem_cons.1 hc with rfl | hc
      · exact hlt
      · exact hlt.trans (hb c hc)
    · refine List.pairwise_cons.2 ⟨fun c hc => ?_, ih hbs⟩
      rcases mem_insertByName hc with rfl | hc
      · exact lt_of_le_of_ne (not_lt.1 hlt) (Ne.symm heq)
      · exact hb c hc

theorem SortedNames.insertByName {a : Attribute} {as : List Attribute} (h : SortedNames as)
    (ha : IsSmall a.name) : SortedNames (insertByName a as) := by
  refine ⟨fun b hb => ?_, pairwise_insertByName h.sorted⟩
  rcases mem_insertByName hb with rfl | hb
  · exact ha
  · exact h.small b hb

/-- An attribute that is put into a list goes among those with other names. -/
theorem insertByName_perm {a : Attribute} {bs : List Attribute} (h : ∀ b ∈ bs, a.name ≠ b.name) :
    (insertByName a bs).Perm (a :: bs) := by
  induction bs with
  | nil => exact List.Perm.refl _
  | cons b bs ih =>
    obtain ⟨hb, hbs⟩ := List.forall_mem_cons.1 h
    rw [insertByName, if_neg hb]
    split_ifs
    · exact List.Perm.refl _
    · exact ((ih hbs).cons b).trans (List.Perm.swap a b bs)

/-- The first of two attributes with one name wins. -/
theorem insertByName_eq_self {a : Attribute} {bs : List Attribute}
    (hsorted : bs.Pairwise (·.name < ·.name)) (h : ∃ b ∈ bs, a.name = b.name) :
    insertByName a bs = bs := by
  induction bs with
  | nil => simp at h
  | cons b bs ih =>
    obtain ⟨hb, hbs⟩ := List.pairwise_cons.1 hsorted
    rw [insertByName]
    split_ifs with heq hlt
    · rfl
    · obtain ⟨c, hc, hname⟩ := h
      rcases List.mem_cons.1 hc with rfl | hc
      · exact absurd hname heq
      · exact absurd (hname ▸ hb c hc) (lt_asymm hlt)
    · obtain ⟨c, hc, hname⟩ := h
      rcases List.mem_cons.1 hc with rfl | hc
      · exact absurd hname heq
      · rw [ih hbs ⟨c, hc, hname⟩]

/-! ### Reading tags -/

theorem toLower_nameChar (c : Char) : (nameChar c).toLower = nameChar c := by
  unfold nameChar withoutNull
  split_ifs
  · decide
  · exact toLower_toLower c

theorem IsSmall.push {s : String} (h : IsSmall s) (c : Char) : IsSmall (s.push (nameChar c)) := by
  rw [isSmall_iff] at h ⊢
  intro d hd
  rw [String.toList_push, List.mem_append, List.mem_singleton] at hd
  rcases hd with hd | rfl
  · exact h d hd
  · exact toLower_nameChar c

theorem isSmall_nameChar (c : Char) : IsSmall (nameChar c).toString :=
  isSmall_empty.push c

/-- What has been read of a tag has sorted attributes, and what has been read of a name is in small
letters. -/
def ReadState.Sorted : ReadState → Prop
  | tagName tag | beforeName tag | afterValue tag | slash tag => SortedNames tag.attributes
  | name tag n | afterName tag n | beforeValue tag n | value tag n _ _ =>
    SortedNames tag.attributes ∧ IsSmall n
  | content | opened | closing | remark _ | comment _ _ | doctype => True

/-- A start tag has sorted attributes. -/
def Token.Sorted : Token → Prop
  | start _ attributes _ => SortedNames attributes
  | stop _ | text _ | comment _ | doctype => True

/-- A step leads to a sorted state and completes sorted tokens. -/
structure ReadStep.Sorted (next : ReadStep) : Prop where
  state : next.state.Sorted
  tokens : ∀ t ∈ next.tokens, t.Sorted

namespace ReadState

variable {tag : OpenTag} {n : String}

theorem sorted_go {state : ReadState} (h : state.Sorted) : (ReadStep.go state).Sorted :=
  ⟨h, by simp [ReadStep.go]⟩

theorem sorted_done {t : Token} (h : t.Sorted) : (ReadStep.done t).Sorted :=
  ⟨trivial, by simpa [ReadStep.done] using h⟩

theorem sorted_token (h : SortedNames tag.attributes) (selfClosing : Bool) :
    (tag.token selfClosing).Sorted := by
  unfold OpenTag.token
  split_ifs
  · trivial
  · exact h

theorem sorted_put (h : SortedNames tag.attributes) (hn : IsSmall n) (v : String) :
    SortedNames (tag.put n v).attributes :=
  h.insertByName hn

theorem sorted_contentStep (c : Char) (rest : List Char) : (contentStep c rest).Sorted := by
  unfold contentStep
  split_ifs
  · exact sorted_go trivial
  · split <;> exact ⟨trivial, by simp [Token.Sorted]⟩
  · exact ⟨trivial, by simp [Token.Sorted]⟩

theorem sorted_openedStep (c : Char) (rest : List Char) : (openedStep c rest).Sorted := by
  unfold openedStep declarationStep
  split_ifs
  · exact ⟨trivial, by simp⟩
  · exact ⟨trivial, by simp⟩
  · exact sorted_go trivial
  · exact sorted_go trivial
  · exact sorted_go trivial
  · exact sorted_go SortedNames.nil
  · obtain ⟨hs, ht⟩ := sorted_contentStep c rest
    exact ⟨hs, by simpa [Token.Sorted] using ht⟩

theorem sorted_beforeNameStep (h : SortedNames tag.attributes) (c : Char) :
    (beforeNameStep tag c).Sorted := by
  unfold beforeNameStep
  split_ifs
  · exact sorted_go h
  · exact sorted_go h
  · exact sorted_done (sorted_token h _)
  · exact sorted_go ⟨h, isSmall_nameChar c⟩

theorem sorted_valueCharStep (h : SortedNames tag.attributes) (hn : IsSmall n)
    (quote : Option Char) (v : String) (c : Char) (rest : List Char) :
    (valueCharStep tag n quote v c rest).Sorted := by
  unfold valueCharStep
  split_ifs
  · split
    · exact ⟨⟨h, hn⟩, by simp⟩
    · exact sorted_go ⟨h, hn⟩
  · exact sorted_go ⟨h, hn⟩

theorem sorted_closingStep (c : Char) : (closingStep c).Sorted := by
  unfold closingStep
  split_ifs
  · exact sorted_go SortedNames.nil
  · exact sorted_go trivial
  · exact sorted_go trivial

theorem sorted_tagNameStep (h : SortedNames tag.attributes) (c : Char) :
    (tagNameStep tag c).Sorted := by
  unfold tagNameStep
  split_ifs
  · exact sorted_go h
  · exact sorted_go h
  · exact sorted_done (sorted_token h _)
  · exact sorted_go h

theorem sorted_nameStep (h : SortedNames tag.attributes) (hn : IsSmall n) (c : Char) :
    (nameStep tag n c).Sorted := by
  have hput := sorted_put h hn ""
  unfold nameStep
  split_ifs
  · exact sorted_go ⟨h, hn⟩
  · exact sorted_go hput
  · exact sorted_done (sorted_token hput _)
  · exact sorted_go ⟨h, hn⟩
  · exact sorted_go ⟨h, hn.push c⟩

theorem sorted_afterNameStep (h : SortedNames tag.attributes) (hn : IsSmall n) (c : Char) :
    (afterNameStep tag n c).Sorted := by
  have hput := sorted_put h hn ""
  unfold afterNameStep
  split_ifs
  · exact sorted_go ⟨h, hn⟩
  · exact sorted_go hput
  · exact sorted_done (sorted_token hput _)
  · exact sorted_go ⟨h, hn⟩
  · exact sorted_go ⟨hput, isSmall_nameChar c⟩

theorem sorted_beforeValueStep (h : SortedNames tag.attributes) (hn : IsSmall n) (c : Char)
    (rest : List Char) : (beforeValueStep tag n c rest).Sorted := by
  unfold beforeValueStep
  split_ifs
  · exact sorted_go ⟨h, hn⟩
  · exact sorted_go ⟨h, hn⟩
  · exact sorted_done (sorted_token (sorted_put h hn "") _)
  · exact sorted_valueCharStep h hn none "" c rest

theorem sorted_valueStep (h : SortedNames tag.attributes) (hn : IsSmall n) (quote : Option Char)
    (v : String) (c : Char) (rest : List Char) : (valueStep tag n quote v c rest).Sorted := by
  have hput := sorted_put h hn v
  unfold valueStep
  cases quote with
  | some q =>
    dsimp only
    split_ifs
    · exact sorted_go hput
    · exact sorted_valueCharStep h hn (some q) v c rest
  | none =>
    dsimp only
    split_ifs
    · exact sorted_go hput
    · exact sorted_done (sorted_token hput _)
    · exact sorted_valueCharStep h hn none v c rest

theorem sorted_slashStep (h : SortedNames tag.attributes) (c : Char) :
    (slashStep tag c).Sorted := by
  unfold slashStep
  split_ifs
  · exact sorted_done (sorted_token h _)
  · exact sorted_beforeNameStep h c

theorem sorted_remarkStep (data : String) (c : Char) : (remarkStep data c).Sorted := by
  unfold remarkStep
  split_ifs
  · exact sorted_done trivial
  · exact sorted_go trivial

theorem sorted_commentStep (place : CommentPlace) (data : String) (c : Char) :
    (commentStep place data c).Sorted := by
  cases place <;> simp only [commentStep] <;> split_ifs <;>
    first | exact sorted_go trivial | exact sorted_done trivial

/-- The reader keeps attributes sorted, whatever it reads. -/
theorem sorted_step {state : ReadState} (h : state.Sorted) (c : Char) (rest : List Char) :
    (state.step c rest).Sorted := by
  cases state with
  | content => exact sorted_contentStep c rest
  | opened => exact sorted_openedStep c rest
  | closing => exact sorted_closingStep c
  | tagName tag => exact sorted_tagNameStep h c
  | beforeName tag => exact sorted_beforeNameStep h c
  | afterValue tag => exact sorted_beforeNameStep h c
  | name tag n => exact sorted_nameStep h.1 h.2 c
  | afterName tag n => exact sorted_afterNameStep h.1 h.2 c
  | beforeValue tag n => exact sorted_beforeValueStep h.1 h.2 c rest
  | value tag n quote v => exact sorted_valueStep h.1 h.2 quote v c rest
  | slash tag => exact sorted_slashStep h c
  | remark data => exact sorted_remarkStep data c
  | comment place data => exact sorted_commentStep place data c
  | doctype =>
    simp only [step]
    split_ifs
    · exact sorted_done trivial
    · exact sorted_go trivial

theorem sorted_finish (state : ReadState) : ∀ t ∈ state.finish, t.Sorted := by
  cases state <;> simp [finish, Token.Sorted]

theorem sorted_run {state : ReadState} (h : state.Sorted) (skip : ℕ) (cs : List Char) :
    ∀ t ∈ run state skip cs, t.Sorted := by
  induction cs generalizing state skip with
  | nil => exact sorted_finish state
  | cons c cs ih =>
    cases skip with
    | succ skip => exact ih h skip
    | zero =>
      rw [run]
      intro t ht
      rcases List.mem_append.1 ht with ht | ht
      · exact (sorted_step h c cs).tokens t ht
      · exact ih (sorted_step h c cs).state _ t ht

end ReadState

namespace Token

/-- What holds of every token and of every text holds when texts are joined. -/
theorem forall_joinTexts {P : Token → Prop} (htext : ∀ s, P (.text s)) {ts : List Token}
    (h : ∀ t ∈ ts, P t) : ∀ t ∈ joinTexts ts, P t := by
  induction ts with
  | nil => simp [joinTexts]
  | cons t ts ih =>
    obtain ⟨ht, hts⟩ := List.forall_mem_cons.1 h
    rw [joinTexts]
    have hrest := ih hts
    unfold joinText
    split
    · next heq =>
      rw [heq] at hrest
      exact List.forall_mem_cons.2 ⟨htext _, (List.forall_mem_cons.1 hrest).2⟩
    · exact List.forall_mem_cons.2 ⟨ht, hrest⟩

theorem sorted_ofMarkup (markup : String) : ∀ t ∈ ofMarkup markup, t.Sorted :=
  forall_joinTexts (fun _ => trivial)
    (ReadState.sorted_run (show ReadState.Sorted .content from trivial) 0 _)

end Token

/-! ### Nesting -/

/-- All elements under construction have sorted attributes and named trees in them. -/
structure Nest.Sorted (n : Nest) : Prop where
  opened : ∀ e ∈ n.opened, SortedNames e.attributes ∧ Tree.NamedAll e.children
  outside : Tree.NamedAll n.outside

namespace Nest

variable {n : Nest}

theorem Sorted.add (h : n.Sorted) {t : Tree} (ht : t.Named) : (n.add t).Sorted := by
  unfold Nest.add
  split
  · exact ⟨h.opened, ht, h.outside⟩
  · next e es heq =>
    obtain ⟨he, hes⟩ := List.forall_mem_cons.1 (heq ▸ h.opened)
    exact ⟨List.forall_mem_cons.2 ⟨⟨he.1, ht, he.2⟩, hes⟩, h.outside⟩

theorem named_tree {e : OpenElement} (h : SortedNames e.attributes ∧ Tree.NamedAll e.children) :
    e.tree.Named := by
  refine ⟨h.1.small, h.1.nodup, Tree.namedAll_iff.2 fun t ht => ?_⟩
  exact Tree.namedAll_iff.1 h.2 t (List.mem_reverse.1 ht)

theorem Sorted.close (h : n.Sorted) (count : ℕ) : (n.close count).Sorted := by
  induction count generalizing n with
  | zero => exact h
  | succ count ih =>
    rw [Nest.close]
    split
    · exact h
    · next e es heq =>
      obtain ⟨he, hes⟩ := List.forall_mem_cons.1 (heq ▸ h.opened)
      have hrest : Sorted { n with opened := es } := ⟨hes, h.outside⟩
      exact ih (hrest.add (named_tree he))

theorem Sorted.take (h : n.Sorted) {t : Token} (ht : t.Sorted) : (n.take t).Sorted := by
  cases t with
  | start tag as selfClosing =>
    have hbefore : (n.closeBefore tag).Sorted := by
      unfold closeBefore
      split_ifs
      · exact h.close 1
      · exact h
    simp only [Nest.take]
    split_ifs
    · exact hbefore.add ⟨ht.small, ht.nodup, trivial⟩
    · exact ⟨List.forall_mem_cons.2 ⟨⟨ht, trivial⟩, hbefore.opened⟩, hbefore.outside⟩
  | stop tag =>
    simp only [Nest.take]
    split
    · exact h.close _
    · exact h
  | text data => exact h.add trivial
  | comment data => exact h.add trivial
  | doctype => exact h

end Nest

namespace Tree

theorem namedAll_ofTokens {ts : List Token} (h : ∀ t ∈ ts, t.Sorted) : NamedAll (ofTokens ts) := by
  have hfold : ∀ {n : Nest}, n.Sorted → (ts.foldl Nest.take n).Sorted := by
    induction ts with
    | nil => exact id
    | cons t ts ih =>
      obtain ⟨ht, hts⟩ := List.forall_mem_cons.1 h
      exact fun hn => ih hts (hn.take ht)
  refine namedAll_iff.2 fun t ht => ?_
  have hclosed := (hfold (n := .empty) ⟨by simp [Nest.empty], trivial⟩).close
    (ts.foldl Nest.take .empty).opened.length
  exact namedAll_iff.1 hclosed.outside t (List.mem_reverse.1 ht)

theorem namedAll_joinText {t : Tree} {ts : List Tree} (h : t.Named) (hs : NamedAll ts) :
    NamedAll (joinText t ts) := by
  unfold joinText
  split
  · exact ⟨trivial, hs.2⟩
  · split_ifs
    · exact hs
    · exact ⟨trivial, hs⟩
  · exact ⟨h, hs⟩

mutual

theorem named_joined {t : Tree} (h : t.Named) : t.joined.Named := by
  cases t with
  | text s | comment s => trivial
  | element tag as cs => exact ⟨h.1, h.2.1, namedAll_joinedAll h.2.2⟩

theorem namedAll_joinedAll {ts : List Tree} (h : NamedAll ts) : NamedAll (joinedAll ts) := by
  cases ts with
  | nil => trivial
  | cons t ts => exact namedAll_joinText (named_joined h.1) (namedAll_joinedAll h.2)

end

/-- Every element that is read has attributes with different names in small letters. -/
theorem namedAll_ofMarkup (markup : String) : NamedAll (ofMarkup markup) :=
  namedAll_joinedAll (namedAll_ofTokens (Token.sorted_ofMarkup markup))

end Tree

end LiveMarkup
