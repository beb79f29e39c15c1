import LiveMarkup.Proofs.Template.Completed

/-!
# The reader on sketches

What the reader holds of a source in which the base is left open: the states and tokens of
`ReadState` with sketches in place of texts.  A letter leads from a state to one that does not
depend on the base (`StateSketch.Advances`), except where a character reference begins.  No hole is
ever doubled: what is completed and held has no more strokes that are not letters than what was held
before.
-/

namespace LiveMarkup

/-! ### Shards -/

/-- What remains of a marker whose beginning has been read as the end of a character reference: the
character that the reference stands for, and the rest of the base. -/
structure Shard where
  first : String → Char
  taken : ℕ
  odd (base : String) : isNameChar (first base) = false
  pos : 0 < taken

namespace Shard

/-- A shard in a text. -/
def write (base : String) (s : Shard) : List Char :=
  s.first base :: (base.toList.drop s.taken ++ ['-'])

/-- Nothing in a shard begins like a marker: a dash comes too soon. -/
theorem begins?_write {base : String} (hb : IsBase base) (s : Shard) {u v : List Char}
    (rest : List Char) (huv : s.write base = u ++ v) (hv : v ≠ []) :
    Marker.begins? base.toList (v ++ rest) = none := by
  cases hbegins : Marker.begins? base.toList (v ++ rest) with
  | none => rfl
  | some found =>
    exfalso
    obtain ⟨d, r⟩ := found
    have hink := (Marker.begins?_eq_some_iff.1 hbegins).eq_append
    obtain ⟨bs, hbase, -⟩ := hb.exists_cons
    rcases List.cons_eq_append_iff.1 huv with ⟨rfl, rfl⟩ | ⟨u, rfl, hrest⟩
    · rw [hbase, List.cons_append, List.cons_append] at hink
      have hodd := s.odd base
      rw [(List.cons.inj hink).1] at hodd
      exact absurd hodd (by decide)
    · obtain ⟨w, rfl⟩ : ∃ w, v = w ++ ['-'] := by
        obtain ⟨w, c, rfl⟩ := List.eq_nil_or_concat v |>.resolve_left hv
        rw [List.concat_eq_append, ← List.append_assoc] at hrest
        obtain ⟨-, hc⟩ := List.append_inj' hrest rfl
        exact ⟨w, by rw [List.concat_eq_append, ← hc]⟩
      have hlength : w.length < 17 := by
        have hlong := congrArg List.length hrest
        have hpos := s.pos
        simp only [List.length_append, List.length_drop, hb.length_eq, List.length_singleton]
          at hlong
        omega
      have hdash : w ++ ['-'] <+: base.toList := by
        refine List.prefix_of_prefix_length_le (List.prefix_append _ rest)
          ⟨'-' :: (d ++ '-' :: r), hink.symm⟩ ?_
        rw [List.length_append, List.length_singleton, hb.length_eq]
        omega
      exact hb.dash_not_mem (hdash.subset (by simp))

instance : Part Shard where
  write := write
  odd _ s := ⟨_, _, rfl, s.odd _⟩
  bare hb s _ _ rest := s.begins?_write hb rest

end Shard

/-! ### Sketches of tokens and states -/

/-- An attribute in which the base is left open. -/
structure AttributeSketch where
  name : Sketch Empty
  value : Sketch Empty

/-- A tag in which the base is left open, its attributes in the order in which they were read. -/
structure TagSketch where
  closing : Bool
  name : Sketch Empty
  attributes : List AttributeSketch

/-- The data of a comment: the same with every base, or with markers that are lost. -/
inductive Remark where
  | plain (data : String)
  | torn (write : String → String)

/-- A token in which the base is left open. -/
inductive TokenSketch where
  | start (tag : Sketch Empty) (attributes : List AttributeSketch) (selfClosing : Bool)
  | stop (tag : Sketch Empty)
  | text (data : Sketch Shard)
  | comment (data : Remark)
  | doctype

/-- The quote around a value. -/
abbrev Quote := {q : Char // q = '"' ∨ q = '\''}

theorem Quote.isNameChar_eq (q : Quote) : isNameChar q.1 = false := by
  rcases q with ⟨q, rfl | rfl⟩ <;> decide

/-- A state of the reader in which the base is left open. -/
inductive StateSketch where
  | content
  | opened
  | closing
  | tagName (tag : TagSketch)
  | beforeName (tag : TagSketch)
  | name (tag : TagSketch) (name : Sketch Empty)
  | afterName (tag : TagSketch) (name : Sketch Empty)
  | beforeValue (tag : TagSketch) (name : Sketch Empty)
  | value (tag : TagSketch) (name : Sketch Empty) (quote : Option Quote) (value : Sketch Empty)
  | afterValue (tag : TagSketch)
  | slash (tag : TagSketch)
  | remark (data : Remark)
  | comment (place : CommentPlace) (data : Remark)
  | doctype

namespace AttributeSketch

/-- An attribute that is inked with a base. -/
def ink (base : String) (a : AttributeSketch) : Attribute := ⟨a.name.text base, a.value.text base⟩

/-- The attributes of a tag that is inked with a base, as the reader keeps them. -/
def inkAll (base : String) (as : List AttributeSketch) : List Attribute :=
  as.foldl (fun bs a => insertByName (a.ink base) bs) []

def weight (a : AttributeSketch) : ℕ := a.name.weight + a.value.weight

def weightAll (as : List AttributeSketch) : ℕ := (as.map weight).sum

@[simp] theorem weightAll_nil : weightAll [] = 0 := rfl

@[simp] theorem weightAll_cons (a : AttributeSketch) (as : List AttributeSketch) :
    weightAll (a :: as) = a.weight + weightAll as := rfl

@[simp] theorem weightAll_append (as bs : List AttributeSketch) :
    weightAll (as ++ bs) = weightAll as + weightAll bs := by
  simp [weightAll]

end AttributeSketch

namespace Remark

def ink (base : String) : Remark → String
  | plain data => data
  | torn write => write base

def weight : Remark → ℕ
  | plain _ => 0
  | torn _ => 1

/-- Changes the data. -/
def map (f : String → String) : Remark → Remark
  | plain data => plain (f data)
  | torn write => torn (f ∘ write)

@[simp] theorem ink_map (base : String) (f : String → String) (r : Remark) :
    (r.map f).ink base = f (r.ink base) := by
  cases r <;> rfl

@[simp] theorem weight_map (f : String → String) (r : Remark) : (r.map f).weight = r.weight := by
  cases r <;> rfl

end Remark

namespace TokenSketch

def ink (base : String) : TokenSketch → Token
  | start tag as selfClosing => .start (tag.text base) (AttributeSketch.inkAll base as) selfClosing
  | stop tag => .stop (tag.text base)
  | text data => .text (data.text base)
  | comment data => .comment (data.ink base)
  | doctype => .doctype

def weight : TokenSketch → ℕ
  | start tag as _ => tag.weight + AttributeSketch.weightAll as
  | stop tag => tag.weight
  | text data => data.weight
  | comment data => data.weight
  | doctype => 0

def weightAll (ts : List TokenSketch) : ℕ := (ts.map weight).sum

@[simp] theorem weightAll_nil : weightAll [] = 0 := rfl

@[simp] theorem weightAll_cons (t : TokenSketch) (ts : List TokenSketch) :
    weightAll (t :: ts) = t.weight + weightAll ts := rfl

@[simp] theorem weightAll_append (ts us : List TokenSketch) :
    weightAll (ts ++ us) = weightAll ts + weightAll us := by
  simp [weightAll]

end TokenSketch

namespace TagSketch

def ink (base : String) (t : TagSketch) : OpenTag :=
  ⟨t.closing, t.name.text base, AttributeSketch.inkAll base t.attributes⟩

def weight (t : TagSketch) : ℕ := t.name.weight + AttributeSketch.weightAll t.attributes

def put (t : TagSketch) (name value : Sketch Empty) : TagSketch :=
  { t with attributes := t.attributes ++ [⟨name, value⟩] }

def token (t : TagSketch) (selfClosing : Bool) : TokenSketch :=
  if t.closing then .stop t.name else .start t.name t.attributes selfClosing

@[simp] theorem ink_put (base : String) (t : TagSketch) (name value : Sketch Empty) :
    (t.put name value).ink base = (t.ink base).put (name.text base) (value.text base) := by
  simp [put, ink, AttributeSketch.inkAll, OpenTag.put, AttributeSketch.ink]

@[simp] theorem ink_token (base : String) (t : TagSketch) (selfClosing : Bool) :
    (t.token selfClosing).ink base = (t.ink base).token selfClosing := by
  unfold token OpenTag.token
  cases hclosing : t.closing <;> simp [TokenSketch.ink, ink, hclosing]

@[simp] theorem weight_put (t : TagSketch) (name value : Sketch Empty) :
    (t.put name value).weight = t.weight + name.weight + value.weight := by
  simp [put, weight, AttributeSketch.weight, Nat.add_assoc]

theorem weight_token_le (t : TagSketch) (selfClosing : Bool) :
    (t.token selfClosing).weight ≤ t.weight := by
  unfold token
  split_ifs
  · exact Nat.le_add_right _ _
  · exact le_rfl

end TagSketch

namespace StateSketch

def ink (base : String) : StateSketch → ReadState
  | content => .content
  | opened => .opened
  | closing => .closing
  | tagName tag => .tagName (tag.ink base)
  | beforeName tag => .beforeName (tag.ink base)
  | name tag n => .name (tag.ink base) (n.text base)
  | afterName tag n => .afterName (tag.ink base) (n.text base)
  | beforeValue tag n => .beforeValue (tag.ink base) (n.text base)
  | value tag n quote v => .value (tag.ink base) (n.text base) (quote.map (·.1)) (v.text base)
  | afterValue tag => .afterValue (tag.ink base)
  | slash tag => .slash (tag.ink base)
  | remark data => .remark (data.ink base)
  | comment place data => .comment place (data.ink base)
  | doctype => .doctype

def weight : StateSketch → ℕ
  | content | opened | closing | doctype => 0
  | tagName tag | beforeName tag | afterValue tag | slash tag => tag.weight
  | name tag n | afterName tag n | beforeValue tag n => tag.weight + n.weight
  | value tag n _ v => tag.weight + n.weight + v.weight
  | remark data | comment _ data => data.weight

end StateSketch

namespace Sketch

variable {σ : Type} [Part σ] (base : String)

@[simp] theorem text_nil : text base ([] : Sketch σ) = "" := rfl

theorem text_singleton (c : Char) : text base ([.letter c] : Sketch σ) = c.toString := by
  rw [Char.toString_eq_singleton]
  rfl

theorem text_push (X : Sketch σ) (c : Char) :
    text base (X ++ [.letter c]) = (X.text base).push c := by
  rw [← String.append_singleton]
  simp [text, Stroke.ink, String.ofList_append]

end Sketch

/-! ### Steps -/

namespace StateSketch

open ReadState ReadStep Sketch

/-- Whatever follows, the letter leads to a state and tokens that do not depend on the base. -/
def Advances (s : StateSketch) (c : Char) : Prop :=
  ∃ (s' : StateSketch) (ts : List TokenSketch),
    (∀ base rest, (s.ink base).step c rest = ⟨s'.ink base, 0, ts.map (TokenSketch.ink base)⟩) ∧
      TokenSketch.weightAll ts + s'.weight ≤ s.weight

variable {s : StateSketch} {tag : TagSketch} {n v : Sketch Empty} {c : Char}

theorem Advances.go (s' : StateSketch)
    (h : ∀ base rest, (s.ink base).step c rest = .go (s'.ink base))
    (hweight : s'.weight ≤ s.weight) : Advances s c :=
  ⟨s', [], h, by simpa using hweight⟩

theorem Advances.done (t : TokenSketch)
    (h : ∀ base rest, (s.ink base).step c rest = .done (t.ink base))
    (hweight : t.weight ≤ s.weight) : Advances s c :=
  ⟨content, [t], h, by simpa [weight] using hweight⟩

theorem advances_closing (c : Char) : Advances closing c := by
  by_cases halpha : c.isAlpha = true
  · exact .go (.tagName ⟨true, [.letter (nameChar c)], []⟩)
      (fun base _ => by
        simp [ink, step, closingStep, halpha, TagSketch.ink, text_singleton,
          AttributeSketch.inkAll])
      (by simp [weight, TagSketch.weight])
  by_cases hend : c = '>'
  · exact .go content (fun base _ => by simp [ink, step, closingStep, hend]) le_rfl
  · exact .go (.remark (.plain (withoutNull c).toString))
      (fun base _ => by simp [ink, step, closingStep, halpha, hend, Remark.ink]) le_rfl

/-! ### Inside a tag -/

theorem advances_tagName (tag : TagSketch) (c : Char) : Advances (tagName tag) c := by
  by_cases hspace : isTagSpace c = true
  · exact .go (beforeName tag) (fun _ _ => by simp [ink, step, tagNameStep, hspace]) le_rfl
  by_cases hslash : c = '/'
  · exact .go (slash tag) (fun _ _ => by simp [ink, step, tagNameStep, hslash, isTagSpace]) le_rfl
  by_cases hend : c = '>'
  · exact .done (tag.token false)
      (fun _ _ => by simp [ink, step, tagNameStep, hend, isTagSpace]) (tag.weight_token_le false)
  · exact .go (tagName { tag with name := tag.name ++ [.letter (nameChar c)] })
      (fun _ _ => by simp [ink, step, tagNameStep, hspace, hslash, hend, TagSketch.ink, text_push])
      (by simp [weight, TagSketch.weight])

theorem beforeNameStep_ink (tag : TagSketch) (c : Char) :
    ∃ (s' : StateSketch) (ts : List TokenSketch),
      (∀ base, beforeNameStep (tag.ink base) c = ⟨s'.ink base, 0, ts.map (TokenSketch.ink base)⟩) ∧
        TokenSketch.weightAll ts + s'.weight ≤ tag.weight := by
  by_cases hspace : isTagSpace c = true
  · exact ⟨beforeName tag, [], fun _ => by simp [ink, beforeNameStep, hspace, ReadStep.go],
      by simp [weight]⟩
  by_cases hslash : c = '/'
  · exact ⟨slash tag, [], fun _ => by
      simp [ink, beforeNameStep, hslash, isTagSpace, ReadStep.go], by simp [weight]⟩
  by_cases hend : c = '>'
  · exact ⟨content, [tag.token false], fun _ => by
      simp [ink, beforeNameStep, hend, isTagSpace, ReadStep.done],
      by simpa [weight] using tag.weight_token_le false⟩
  · exact ⟨name tag [.letter (nameChar c)], [], fun _ => by
      simp [ink, beforeNameStep, hspace, hslash, hend, text_singleton, ReadStep.go],
      by simp [weight]⟩

theorem advances_beforeName (tag : TagSketch) (c : Char) : Advances (beforeName tag) c := by
  obtain ⟨s', ts, hstep, hweight⟩ := beforeNameStep_ink tag c
  exact ⟨s', ts, fun base _ => hstep base, hweight⟩

theorem advances_afterValue (tag : TagSketch) (c : Char) : Advances (afterValue tag) c := by
  obtain ⟨s', ts, hstep, hweight⟩ := beforeNameStep_ink tag c
  exact ⟨s', ts, fun base _ => hstep base, hweight⟩

theorem advances_slash (tag : TagSketch) (c : Char) : Advances (slash tag) c := by
  by_cases hend : c = '>'
  · exact .done (tag.token true) (fun _ _ => by simp [ink, step, slashStep, hend])
      (tag.weight_token_le true)
  · obtain ⟨s', ts, hstep, hweight⟩ := beforeNameStep_ink tag c
    exact ⟨s', ts, fun base _ => by simp [ink, step, slashStep, hend, hstep base], hweight⟩

theorem advances_name (tag : TagSketch) (n : Sketch Empty) (c : Char) :
    Advances (name tag n) c := by
  have hput : (tag.put n []).weight ≤ (name tag n).weight := by simp [weight]
  by_cases hspace : isTagSpace c = true
  · exact .go (afterName tag n) (fun _ _ => by simp [ink, step, nameStep, hspace]) le_rfl
  by_cases hslash : c = '/'
  · exact .go (slash (tag.put n []))
      (fun _ _ => by simp [ink, step, nameStep, hslash, isTagSpace]) hput
  by_cases hend : c = '>'
  · exact .done ((tag.put n []).token false)
      (fun _ _ => by simp [ink, step, nameStep, hend, isTagSpace])
      (((tag.put n []).weight_token_le false).trans hput)
  by_cases heq : c = '='
  · exact .go (beforeValue tag n) (fun _ _ => by simp [ink, step, nameStep, heq, isTagSpace]) le_rfl
  · exact .go (name tag (n ++ [.letter (nameChar c)]))
      (fun _ _ => by simp [ink, step, nameStep, hspace, hslash, hend, heq, text_push])
      (by simp [weight])

theorem advances_afterName (tag : TagSketch) (n : Sketch Empty) (c : Char) :
    Advances (afterName tag n) c := by
  have hput : (tag.put n []).weight ≤ (afterName tag n).weight := by simp [weight]
  by_cases hspace : isTagSpace c = true
  · exact .go (afterName tag n) (fun _ _ => by simp [ink, step, afterNameStep, hspace]) le_rfl
  by_cases hslash : c = '/'
  · exact .go (slash (tag.put n []))
      (fun _ _ => by simp [ink, step, afterNameStep, hslash, isTagSpace]) hput
  by_cases hend : c = '>'
  · exact .done ((tag.put n []).token false)
      (fun _ _ => by simp [ink, step, afterNameStep, hend, isTagSpace])
      (((tag.put n []).weight_token_le false).trans hput)
  by_cases heq : c = '='
  · exact .go (beforeValue tag n)
      (fun _ _ => by simp [ink, step, afterNameStep, heq, isTagSpace]) le_rfl
  · exact .go (name (tag.put n []) [.letter (nameChar c)])
      (fun _ _ => by
        simp [ink, step, afterNameStep, hspace, hslash, hend, heq, text_singleton])
      (by simp [weight])

/-! ### Values -/

theorem advances_value (tag : TagSketch) (n : Sketch Empty) (quote : Option Quote)
    (v : Sketch Empty) {c : Char} (hc : c ≠ '&') : Advances (value tag n quote v) c := by
  have hput : (tag.put n v).weight ≤ (value tag n quote v).weight := by simp [weight]
  have hgo : (value tag n quote (v ++ [.letter (withoutNull c)])).weight ≤
      (value tag n quote v).weight := by simp [weight]
  cases quote with
  | some q =>
    by_cases hend : c = q
    · exact .go (afterValue (tag.put n v)) (fun _ _ => by simp [ink, step, valueStep, hend]) hput
    · exact .go (value tag n (some q) (v ++ [.letter (withoutNull c)]))
        (fun _ _ => by simp [ink, step, valueStep, valueCharStep, hend, hc, text_push]) hgo
  | none =>
    by_cases hspace : isTagSpace c = true
    · exact .go (beforeName (tag.put n v)) (fun _ _ => by simp [ink, step, valueStep, hspace]) hput
    by_cases hend : c = '>'
    · exact .done ((tag.put n v).token false)
        (fun _ _ => by simp [ink, step, valueStep, hend, isTagSpace])
        (((tag.put n v).weight_token_le false).trans hput)
    · exact .go (value tag n none (v ++ [.letter (withoutNull c)]))
        (fun _ _ => by simp [ink, step, valueStep, valueCharStep, hspace, hend, hc, text_push]) hgo

theorem advances_beforeValue (tag : TagSketch) (n : Sketch Empty) {c : Char} (hc : c ≠ '&') :
    Advances (beforeValue tag n) c := by
  by_cases hspace : isTagSpace c = true
  · exact .go (beforeValue tag n) (fun _ _ => by simp [ink, step, beforeValueStep, hspace]) le_rfl
  by_cases hquote : c = '"' ∨ c = '\''
  · exact .go (value tag n (some ⟨c, hquote⟩) [])
      (fun _ _ => by simp [ink, step, beforeValueStep, hspace, hquote]) (by simp [weight])
  by_cases hend : c = '>'
  · exact .done ((tag.put n []).token false)
      (fun _ _ => by simp [ink, step, beforeValueStep, hend, isTagSpace])
      (((tag.put n []).weight_token_le false).trans (by simp [weight]))
  · exact .go (value tag n none [.letter (withoutNull c)])
      (fun _ _ => by
        simp [ink, step, beforeValueStep, valueCharStep, hspace, hquote, hend, hc, text_singleton])
      (by simp [weight])

/-! ### Comments -/

theorem advances_remark (data : Remark) (c : Char) : Advances (remark data) c := by
  by_cases hend : c = '>'
  · exact .done (.comment data) (fun _ _ => by simp [ink, step, remarkStep, hend, TokenSketch.ink])
      le_rfl
  · exact .go (remark (data.map (·.push (withoutNull c))))
      (fun _ _ => by simp [ink, step, remarkStep, hend]) (by simp [weight])

/-- What becomes of the data of a comment does not depend on the data. -/
theorem commentStep_cases (place : CommentPlace) (c : Char) :
    (∀ data, commentStep place data c = .done (.comment data)) ∨
      ∃ (place' : CommentPlace) (f : String → String),
        ∀ data, commentStep place data c = .go (.comment place' (f data)) := by
  cases place <;> simp only [commentStep] <;> split_ifs <;>
    first | exact Or.inl fun _ => rfl | exact Or.inr ⟨_, _, fun _ => rfl⟩

theorem advances_comment (place : CommentPlace) (data : Remark) (c : Char) :
    Advances (comment place data) c := by
  rcases commentStep_cases place c with hdone | ⟨place', f, hgo⟩
  · exact .done (.comment data) (fun _ _ => by simp [ink, step, hdone, TokenSketch.ink]) le_rfl
  · exact .go (comment place' (data.map f)) (fun _ _ => by simp [ink, step, hgo]) (by simp [weight])

theorem advances_doctype (c : Char) : Advances doctype c := by
  by_cases hend : c = '>'
  · exact .done .doctype (fun _ _ => by simp [ink, step, hend, TokenSketch.ink]) le_rfl
  · exact .go doctype (fun _ _ => by simp [ink, step, hend]) le_rfl

/-! ### The end of the input -/

/-- The tokens that the end of the input completes do not depend on the base. -/
theorem exists_finish (s : StateSketch) : ∃ ts : List TokenSketch,
    (∀ base, (s.ink base).finish = ts.map (TokenSketch.ink base)) ∧
      TokenSketch.weightAll ts ≤ s.weight := by
  cases s with
  | opened => exact ⟨[.text [.letter '<']], fun _ => rfl, le_rfl⟩
  | closing => exact ⟨[.text [.letter '<', .letter '/']], fun _ => rfl, le_rfl⟩
  | remark data | comment place data => exact ⟨[.comment data], fun _ => rfl, le_rfl⟩
  | doctype => exact ⟨[.doctype], fun _ => rfl, le_rfl⟩
  | content | tagName | beforeName | name | afterName | beforeValue | value | afterValue | slash =>
    exact ⟨[], fun _ => rfl, Nat.zero_le _⟩

end StateSketch

end LiveMarkup
