import LiveMarkup.Markup.Tree
import LiveMarkup.Markup.Reference

/-!
# Tokens of markup

`Token.ofMarkup` splits markup into start tags, end tags, text, comments and document types.  The
reader never leaves ordinary markup: the content of an element such as `script` is split like any
other.  Names come in small letters, and the attributes of a tag sorted by name, the first of two
attributes of one name winning.  A tag that the end of the input cuts off is dropped; a comment that
it cuts off is kept.
-/

namespace LiveMarkup

/-- A token of markup. -/
inductive Token where
  | start (tag : String) (attributes : List Attribute) (selfClosing : Bool)
  | stop (tag : String)
  | text (data : String)
  | comment (data : String)
  | doctype
  deriving DecidableEq, Repr

/-- The places of a comment where its end is near. -/
inductive CommentPlace where
  /-- Nothing has been read. -/
  | start
  /-- Only a dash has been read. -/
  | startDash
  /-- Ordinary comment data. -/
  | body
  /-- One dash after ordinary data. -/
  | dash
  /-- At least two dashes. -/
  | dashes
  /-- Two dashes and an exclamation mark. -/
  | bang
  deriving DecidableEq, Repr

/-- A tag whose end has not been read; its attributes are sorted by name. -/
structure OpenTag where
  closing : Bool
  name : String
  attributes : List Attribute
  deriving DecidableEq, Repr

/-- Puts an attribute into a list sorted by name, unless the list has one of that name. -/
def insertByName (a : Attribute) : List Attribute → List Attribute
  | [] => [a]
  | b :: bs =>
    if a.name = b.name then b :: bs
    else if a.name < b.name then a :: b :: bs
    else b :: insertByName a bs

namespace OpenTag

/-- Adds an attribute unless the tag already has one of that name. -/
def put (t : OpenTag) (name value : String) : OpenTag :=
  { t with attributes := insertByName ⟨name, value⟩ t.attributes }

/-- The token of a finished tag. -/
def token (t : OpenTag) (selfClosing : Bool) : Token :=
  if t.closing then .stop t.name else .start t.name t.attributes selfClosing

end OpenTag

/-- What the reader is in the middle of. -/
inductive ReadState where
  /-- Between tags. -/
  | content
  /-- After `<`. -/
  | opened
  /-- After `</`. -/
  | closing
  /-- In the name of a tag. -/
  | tagName (tag : OpenTag)
  /-- Before the name of an attribute. -/
  | beforeName (tag : OpenTag)
  /-- In the name of an attribute. -/
  | name (tag : OpenTag) (name : String)
  /-- After the name of an attribute. -/
  | afterName (tag : OpenTag) (name : String)
  /-- After the equals sign of an attribute. -/
  | beforeValue (tag : OpenTag) (name : String)
  /-- In the value of an attribute, with the quote that ends it. -/
  | value (tag : OpenTag) (name : String) (quote : Option Char) (value : String)
  /-- After a quoted value. -/
  | afterValue (tag : OpenTag)
  /-- After a slash in a tag. -/
  | slash (tag : OpenTag)
  /-- In a comment that ends at the first `>`. -/
  | remark (data : String)
  /-- In a comment that ends at `-->`. -/
  | comment (place : CommentPlace) (data : String)
  /-- In a document type. -/
  | doctype
  deriving DecidableEq, Repr

/-- The effect of one character: the next state, how many further characters it takes, and the
tokens it completes. -/
structure ReadStep where
  state : ReadState
  skip : Nat
  tokens : List Token
  deriving DecidableEq, Repr

namespace ReadStep

/-- Goes on in another state. -/
def go (state : ReadState) : ReadStep := ⟨state, 0, []⟩

/-- Completes a token and goes on between tags. -/
def done (token : Token) : ReadStep := ⟨.content, 0, [token]⟩

end ReadStep

open ReadStep

/-- The white space of tags: tab, newline, form feed and space. -/
def isTagSpace (c : Char) : Bool := c == '\t' || c == '\n' || c == '\x0c' || c == ' '

/-- The null character is read as `U+FFFD` wherever it is not text. -/
def withoutNull (c : Char) : Char := if c = '\x00' then '\ufffd' else c

/-- A character of a name is read in small letters. -/
def nameChar (c : Char) : Char := withoutNull c.toLower

/-- Whether `word`, in small letters, begins the input in any case. -/
def beginsWord (word : List Char) (cs : List Char) : Bool :=
  word.isPrefixOf (cs.map Char.toLower)

namespace ReadState

/-- A character between tags. -/
def contentStep (c : Char) (rest : List Char) : ReadStep :=
  if c = '<' then go .opened
  else if c = '&' then
    match Reference.read? false rest with
    | some r => ⟨.content, r.length, [.text r.text]⟩
    | none => ⟨.content, 0, [.text "&"]⟩
  else ⟨.content, 0, [.text c.toString]⟩

/-- The character after `<!`, seen with all that follows the exclamation mark. -/
def declarationStep (rest : List Char) : ReadStep :=
  if ['-', '-'].isPrefixOf rest then ⟨.comment .start "", 2, []⟩
  else if beginsWord "doctype".toList rest then ⟨.doctype, 7, []⟩
  else go (.remark "")

/-- The character after `<`. -/
def openedStep (c : Char) (rest : List Char) : ReadStep :=
  if c = '!' then declarationStep rest
  else if c = '/' then go .closing
  else if c = '?' then go (.remark "?")
  else if c.isAlpha then go (.tagName ⟨false, (nameChar c).toString, []⟩)
  else
    let next := contentStep c rest
    { next with tokens := .text "<" :: next.tokens }

/-- The character after `</`. -/
def closingStep (c : Char) : ReadStep :=
  if c.isAlpha then go (.tagName ⟨true, (nameChar c).toString, []⟩)
  else if c = '>' then go .content
  else go (.remark (withoutNull c).toString)

/-- A character of the name of a tag. -/
def tagNameStep (tag : OpenTag) (c : Char) : ReadStep :=
  if isTagSpace c then go (.beforeName tag)
  else if c = '/' then go (.slash tag)
  else if c = '>' then done (tag.token false)
  else go (.tagName { tag with name := tag.name.push (nameChar c) })

/-- A character where an attribute may begin. -/
def beforeNameStep (tag : OpenTag) (c : Char) : ReadStep :=
  if isTagSpace c then go (.beforeName tag)
  else if c = '/' then go (.slash tag)
  else if c = '>' then done (tag.token false)
  else go (.name tag (nameChar c).toString)

/-- A character of the name of an attribute. -/
def nameStep (tag : OpenTag) (name : String) (c : Char) : ReadStep :=
  if isTagSpace c then go (.afterName tag name)
  else if c = '/' then go (.slash (tag.put name ""))
  else if c = '>' then done ((tag.put name "").token false)
  else if c = '=' then go (.beforeValue tag name)
  else go (.name tag (name.push (nameChar c)))

/-- A character after the name of an attribute. -/
def afterNameStep (tag : OpenTag) (name : String) (c : Char) : ReadStep :=
  if isTagSpace c then go (.afterName tag name)
  else if c = '/' then go (.slash (tag.put name ""))
  else if c = '>' then done ((tag.put name "").token false)
  else if c = '=' then go (.beforeValue tag name)
  else go (.name (tag.put name "") (nameChar c).toString)

/-- A character that belongs to the value of an attribute. -/
def valueCharStep (tag : OpenTag) (name : String) (quote : Option Char) (value : String) (c : Char)
    (rest : List Char) : ReadStep :=
  if c = '&' then
    match Reference.read? true rest with
    | some r => ⟨.value tag name quote (value ++ r.text), r.length, []⟩
    | none => go (.value tag name quote (value.push '&'))
  else go (.value tag name quote (value.push (withoutNull c)))

/-- A character after the equals sign of an attribute. -/
def beforeValueStep (tag : OpenTag) (name : String) (c : Char) (rest : List Char) : ReadStep :=
  if isTagSpace c then go (.beforeValue tag name)
  else if c = '"' ∨ c = '\'' then go (.value tag name (some c) "")
  else if c = '>' then done ((tag.put name "").token false)
  else valueCharStep tag name none "" c rest

/-- A character in the value of an attribute. -/
def valueStep (tag : OpenTag) (name : String) (quote : Option Char) (value : String) (c : Char)
    (rest : List Char) : ReadStep :=
  match quote with
  | some q =>
    if c = q then go (.afterValue (tag.put name value))
    else valueCharStep tag name quote value c rest
  | none =>
    if isTagSpace c then go (.beforeName (tag.put name value))
    else if c = '>' then done ((tag.put name value).token false)
    else valueCharStep tag name none value c rest

/-- A character after a slash in a tag. -/
def slashStep (tag : OpenTag) (c : Char) : ReadStep :=
  if c = '>' then done (tag.token true) else beforeNameStep tag c

/-- A character of a comment that ends at the first `>`. -/
def remarkStep (data : String) (c : Char) : ReadStep :=
  if c = '>' then done (.comment data) else go (.remark (data.push (withoutNull c)))

/-- A character of a comment that ends at `-->`. -/
def commentStep (place : CommentPlace) (data : String) (c : Char) : ReadStep :=
  let body (pending : String) := go (.comment .body ((data ++ pending).push (withoutNull c)))
  match place with
  | .start =>
    if c = '-' then go (.comment .startDash data)
    else if c = '>' then done (.comment data)
    else body ""
  | .startDash =>
    if c = '-' then go (.comment .dashes data)
    else if c = '>' then done (.comment data)
    else body "-"
  | .body => if c = '-' then go (.comment .dash data) else body ""
  | .dash => if c = '-' then go (.comment .dashes data) else body "-"
  | .dashes =>
    if c = '>' then done (.comment data)
    else if c = '!' then go (.comment .bang data)
    else if c = '-' then go (.comment .dashes (data.push '-'))
    else body "--"
  | .bang =>
    if c = '-' then go (.comment .dash (data ++ "--!"))
    else if c = '>' then done (.comment data)
    else body "--!"

/-- The effect of the character `c`, with `rest` after it. -/
def step (state : ReadState) (c : Char) (rest : List Char) : ReadStep :=
  match state with
  | content => contentStep c rest
  | opened => openedStep c rest
  | closing => closingStep c
  | tagName tag => tagNameStep tag c
  | beforeName tag => beforeNameStep tag c
  | name tag n => nameStep tag n c
  | afterName tag n => afterNameStep tag n c
  | beforeValue tag n => beforeValueStep tag n c rest
  | value tag n quote v => valueStep tag n quote v c rest
  | afterValue tag => beforeNameStep tag c
  | slash tag => slashStep tag c
  | remark data => remarkStep data c
  | comment place data => commentStep place data c
  | doctype => if c = '>' then done .doctype else go .doctype

/-- The tokens that the end of the input completes. -/
def finish : ReadState → List Token
  | opened => [.text "<"]
  | closing => [.text "</"]
  | remark data => [.comment data]
  | comment _ data => [.comment data]
  | doctype => [.doctype]
  | _ => []

/-- The tokens of the input, after `skip` characters of it that are already taken. -/
def run : ReadState → Nat → List Char → List Token
  | state, _, [] => state.finish
  | state, skip + 1, _ :: cs => run state skip cs
  | state, 0, c :: cs =>
    let next := state.step c cs
    next.tokens ++ run next.state next.skip cs

end ReadState

/-- Every line ends with a newline: a carriage return counts as one, with a newline after it or
without. -/
def unifyNewlines : List Char → List Char
  | [] => []
  | '\r' :: '\n' :: cs => '\n' :: unifyNewlines cs
  | '\r' :: cs => '\n' :: unifyNewlines cs
  | c :: cs => c :: unifyNewlines cs

namespace Token

/-- Puts a token in front, joining text with text. -/
def joinText : Token → List Token → List Token
  | text a, text b :: ts => text (a ++ b) :: ts
  | t, ts => t :: ts

/-- Joins the texts that stand side by side. -/
def joinTexts : List Token → List Token
  | [] => []
  | t :: ts => joinText t (joinTexts ts)

/-- The tokens of markup. -/
def ofMarkup (markup : String) : List Token :=
  joinTexts (ReadState.run .content 0 (unifyNewlines markup.toList))

end Token

end LiveMarkup
