import LiveMarkup.Proofs.Markup.Names

/-!
# Tags in markup

Reading gives every tag a name in small letters (`Token.smallTag_ofMarkup`): the name of the tag
that the reader is in grows by small letters only, and what follows the name leaves it as it is.
-/

namespace LiveMarkup

/-- A tag has its name in small letters. -/
def Token.SmallTag : Token → Prop
  | start tag _ _ => IsSmall tag
  | stop tag => IsSmall tag
  | text _ | comment _ | doctype => True

/-- The tag that the reader is in has its name in small letters. -/
def ReadState.SmallTag : ReadState → Prop
  | tagName tag | beforeName tag | afterValue tag | slash tag => IsSmall tag.name
  | name tag _ | afterName tag _ | beforeValue tag _ | value tag _ _ _ => IsSmall tag.name
  | content | opened | closing | remark _ | comment _ _ | doctype => True

/-- A step leads to a tag with a small name and completes tags with small names. -/
structure ReadStep.SmallTag (next : ReadStep) : Prop where
  state : next.state.SmallTag
  tokens : ∀ t ∈ next.tokens, t.SmallTag

namespace ReadState

variable {tag : OpenTag} {state : ReadState}

theorem smallTag_go (h : state.SmallTag) : (ReadStep.go state).SmallTag :=
  ⟨h, by simp [ReadStep.go]⟩

theorem smallTag_done {t : Token} (h : t.SmallTag) : (ReadStep.done t).SmallTag :=
  ⟨trivial, by simpa [ReadStep.done] using h⟩

theorem smallTag_token (h : IsSmall tag.name) (selfClosing : Bool) :
    (tag.token selfClosing).SmallTag := by
  unfold OpenTag.token
  split_ifs <;> exact h

theorem smallTag_contentStep (c : Char) (rest : List Char) : (contentStep c rest).SmallTag := by
  unfold contentStep
  split_ifs
  · exact smallTag_go trivial
  · split <;> exact ⟨trivial, by simp [Token.SmallTag]⟩
  · exact ⟨trivial, by simp [Token.SmallTag]⟩

theorem smallTag_openedStep (c : Char) (rest : List Char) : (openedStep c rest).SmallTag := by
  unfold openedStep declarationStep
  split_ifs
  · exact ⟨trivial, by simp⟩
  · exact ⟨trivial, by simp⟩
  · exact smallTag_go trivial
  · exact smallTag_go trivial
  · exact smallTag_go trivial
  · exact smallTag_go (isSmall_nameChar c)
  · obtain ⟨hs, ht⟩ := smallTag_contentStep c rest
    exact ⟨hs, by simpa [Token.SmallTag] using ht⟩

theorem smallTag_closingStep (c : Char) : (closingStep c).SmallTag := by
  unfold closingStep
  split_ifs
  · exact smallTag_go (isSmall_nameChar c)
  · exact smallTag_go trivial
  · exact smallTag_go trivial

/-! ### Inside a tag -/

section Tag

variable (h : IsSmall tag.name)

include h

theorem smallTag_tagNameStep (c : Char) : (tagNameStep tag c).SmallTag := by
  unfold tagNameStep
  split_ifs
  · exact smallTag_go h
  · exact smallTag_go h
  · exact smallTag_done (smallTag_token h _)
  · exact smallTag_go (h.push c)

theorem smallTag_beforeNameStep (c : Char) : (beforeNameStep tag c).SmallTag := by
  unfold beforeNameStep
  split_ifs <;> first | exact smallTag_go h | exact smallTag_done (smallTag_token h _)

theorem smallTag_nameStep (n : String) (c : Char) : (nameStep tag n c).SmallTag := by
  have hput : IsSmall (tag.put n "").name := h
  unfold nameStep
  split_ifs <;> first | exact smallTag_go h | exact smallTag_done (smallTag_token hput _)

theorem smallTag_afterNameStep (n : String) (c : Char) : (afterNameStep tag n c).SmallTag := by
  have hput : IsSmall (tag.put n "").name := h
  unfold afterNameStep
  split_ifs <;> first | exact smallTag_go h | exact smallTag_done (smallTag_token hput _)

theorem smallTag_valueCharStep (n : String) (quote : Option Char) (v : String) (c : Char)
    (rest : List Char) : (valueCharStep tag n quote v c rest).SmallTag := by
  unfold valueCharStep
  split_ifs
  · split
    · exact ⟨h, by simp⟩
    · exact smallTag_go h
  · exact smallTag_go h

theorem smallTag_beforeValueStep (n : String) (c : Char) (rest : List Char) :
    (beforeValueStep tag n c rest).SmallTag := by
  have hput : IsSmall (tag.put n "").name := h
  unfold beforeValueStep
  split_ifs
  · exact smallTag_go h
  · exact smallTag_go h
  · exact smallTag_done (smallTag_token hput _)
  · exact smallTag_valueCharStep h n none "" c rest

theorem smallTag_valueStep (n : String) (quote : Option Char) (v : String) (c : Char)
    (rest : List Char) : (valueStep tag n quote v c rest).SmallTag := by
  have hput : IsSmall (tag.put n v).name := h
  unfold valueStep
  cases quote with
  | some q =>
    dsimp only
    split_ifs
    · exact smallTag_go h
    · exact smallTag_valueCharStep h n (some q) v c rest
  | none =>
    dsimp only
    split_ifs
    · exact smallTag_go h
    · exact smallTag_done (smallTag_token hput _)
    · exact smallTag_valueCharStep h n none v c rest

theorem smallTag_slashStep (c : Char) : (slashStep tag c).SmallTag := by
  unfold slashStep
  split_ifs
  · exact smallTag_done (smallTag_token h _)
  · exact smallTag_beforeNameStep h c

end Tag

theorem smallTag_remarkStep (data : String) (c : Char) : (remarkStep data c).SmallTag := by
  unfold remarkStep
  split_ifs
  · exact smallTag_done trivial
  · exact smallTag_go trivial

theorem smallTag_commentStep (place : CommentPlace) (data : String) (c : Char) :
    (commentStep place data c).SmallTag := by
  cases place <;> simp only [commentStep] <;> split_ifs <;>
    first | exact smallTag_go trivial | exact smallTag_done trivial

/-- The reader keeps the names of tags small, whatever it reads. -/
theorem smallTag_step (h : state.SmallTag) (c : Char) (rest : List Char) :
    (state.step c rest).SmallTag := by
  cases state with
  | content => exact smallTag_contentStep c rest
  | opened => exact smallTag_openedStep c rest
  | closing => exact smallTag_closingStep c
  | tagName tag => exact smallTag_tagNameStep h c
  | beforeName tag => exact smallTag_beforeNameStep h c
  | afterValue tag => exact smallTag_beforeNameStep h c
  | name tag n => exact smallTag_nameStep h n c
  | afterName tag n => exact smallTag_afterNameStep h n c
  | beforeValue tag n => exact smallTag_beforeValueStep h n c rest
  | value tag n quote v => exact smallTag_valueStep h n quote v c rest
  | slash tag => exact smallTag_slashStep h c
  | remark data => exact smallTag_remarkStep data c
  | comment place data => exact smallTag_commentStep place data c
  | doctype =>
    simp only [step]
    split_ifs
    · exact smallTag_done trivial
    · exact smallTag_go trivial

theorem smallTag_finish (state : ReadState) : ∀ t ∈ state.finish, t.SmallTag := by
  cases state <;> simp [finish, Token.SmallTag]

theorem smallTag_run (h : state.SmallTag) (skip : ℕ) (cs : List Char) :
    ∀ t ∈ run state skip cs, t.SmallTag := by
  induction cs generalizing state skip with
  | nil => exact smallTag_finish state
  | cons c cs ih =>
    cases skip with
    | succ skip => exact ih h skip
    | zero =>
      rw [run]
      intro t ht
      rcases List.mem_append.1 ht with ht | ht
      · exact (smallTag_step h c cs).tokens t ht
      · exact ih (smallTag_step h c cs).state _ t ht

end ReadState

namespace Token

/-- Every tag of markup is read with a name in small letters. -/
theorem smallTag_ofMarkup (markup : String) : ∀ t ∈ ofMarkup markup, t.SmallTag :=
  forall_joinTexts (fun _ => trivial)
    (ReadState.smallTag_run (show ReadState.SmallTag .content from trivial) 0 _)

end Token

end LiveMarkup
