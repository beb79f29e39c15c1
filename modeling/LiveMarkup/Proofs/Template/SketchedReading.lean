import LiveMarkup.Proofs.Markup.RoundTrip
import LiveMarkup.Proofs.Template.SketchedStates

/-!
# Reading a source in which the base is left open

Reading goes the same way with every base: a letter leads from a sketched state to a sketched state,
a marker is taken up by what is being read, and a reference takes up a part of a marker with all
bases or with none (`StateSketch.exists_leads`).  So the tokens of a source are those of one list of
sketches (`StateSketch.exists_tokens`).
-/

namespace LiveMarkup

open ReadState Sketch

/-! ### Reading markers -/

namespace ReadState

variable {tag : OpenTag} {n v : String} {cs rest : List Char}

/-- Characters between tags that begin no tag and no reference. -/
theorem run_contentChars (hcs : ∀ c ∈ cs, isNameChar c = true) :
    run content 0 (cs ++ rest) = (cs.map fun c => .text c.toString) ++ run content 0 rest := by
  induction cs with
  | nil => rfl
  | cons c cs ih =>
    obtain ⟨hc, hcs⟩ := List.forall_mem_cons.1 hcs
    have hstep : step content c (cs ++ rest) = ⟨content, 0, [.text c.toString]⟩ := by
      simp [step, contentStep, ne_of_isNameChar hc '<' (by decide),
        ne_of_isNameChar hc '&' (by decide)]
    rw [List.cons_append, run_cons, hstep, ih hcs]
    rfl

/-- Characters of a value that do not end it and begin no reference. -/
theorem run_valueChars {quote : Option Char} (hquote : ∀ q ∈ quote, isNameChar q = false)
    (hcs : ∀ c ∈ cs, isNameChar c = true) :
    run (value tag n quote v) 0 (cs ++ rest) =
      run (value tag n quote (v ++ String.ofList cs)) 0 rest := by
  induction cs generalizing v with
  | nil => simp
  | cons c cs ih =>
    obtain ⟨hc, hcs⟩ := List.forall_mem_cons.1 hcs
    have hnull : withoutNull c = c := if_neg (ne_of_isNameChar hc _ (by decide))
    have hstep : step (value tag n quote v) c (cs ++ rest) =
        .go (value tag n quote (v.push c)) := by
      cases quote with
      | some q =>
        simp [step, valueStep, valueCharStep, ne_of_isNameChar hc q (hquote q rfl),
          ne_of_isNameChar hc '&' (by decide), hnull]
      | none =>
        simp [step, valueStep, valueCharStep, isTagSpace_of_isNameChar hc,
          ne_of_isNameChar hc '>' (by decide), ne_of_isNameChar hc '&' (by decide), hnull]
    rw [List.cons_append, run_go _ hstep, ih hcs, String.ofList_cons, ← String.append_assoc,
      String.append_singleton]

theorem run_remarkChars (hcs : ∀ c ∈ cs, isNameChar c = true) :
    run (remark v) 0 (cs ++ rest) = run (remark (v ++ String.ofList cs)) 0 rest := by
  induction cs generalizing v with
  | nil => simp
  | cons c cs ih =>
    obtain ⟨hc, hcs⟩ := List.forall_mem_cons.1 hcs
    have hstep : step (remark v) c (cs ++ rest) = .go (remark (v.push c)) := by
      simp [step, remarkStep, withoutNull, ne_of_isNameChar hc '>' (by decide),
        ne_of_isNameChar hc '\x00' (by decide)]
    rw [List.cons_append, run_go _ hstep, ih hcs, String.ofList_cons, ← String.append_assoc,
      String.append_singleton]

theorem run_doctypeChars (hcs : ∀ c ∈ cs, isNameChar c = true) :
    run doctype 0 (cs ++ rest) = run doctype 0 rest := by
  induction cs with
  | nil => rfl
  | cons c cs ih =>
    obtain ⟨hc, hcs⟩ := List.forall_mem_cons.1 hcs
    have hstep : step doctype c (cs ++ rest) = .go doctype := by
      simp [step, ne_of_isNameChar hc '>' (by decide)]
    rw [List.cons_append, run_go _ hstep, ih hcs]

/-- No character of a name ends a comment. -/
theorem run_commentChars (place : CommentPlace) (v : String)
    (hcs : ∀ c ∈ cs, isNameChar c = true) :
    ∃ (place' : CommentPlace) (v' : String), ∀ rest,
      run (comment place v) 0 (cs ++ rest) = run (comment place' v') 0 rest := by
  induction cs generalizing place v with
  | nil => exact ⟨place, v, fun _ => rfl⟩
  | cons c cs ih =>
    obtain ⟨hc, hcs⟩ := List.forall_mem_cons.1 hcs
    obtain ⟨place₁, v₁, hgo, -⟩ := commentStep_eq place v (ne_of_isNameChar hc '>' (by decide))
      (ne_of_isNameChar hc '\x00' (by decide))
    obtain ⟨place', v', hrun⟩ := ih place₁ v₁ hcs
    refine ⟨place', v', fun rest => ?_⟩
    have hstep : step (comment place v) c (cs ++ rest) = .go (comment place₁ v₁) := hgo
    rw [List.cons_append, run_go _ hstep, hrun]

/-- After a marker in a comment, its last dash may belong to the end of the comment. -/
theorem run_commentMarker {base : String} (hb : IsBase base) (k : ℕ) (place : CommentPlace)
    (v : String) : ∃ v', ∀ rest, run (comment place v) 0 ((Marker.text base k).toList ++ rest) =
      run (comment .dash v') 0 rest := by
  obtain ⟨ds, d, hdigits⟩ := List.eq_nil_or_concat (Nat.toDigits 10 k) |>.resolve_left
    Nat.toDigits_ne_nil
  have hmarker : (Marker.text base k).toList = (base.toList ++ '-' :: ds) ++ [d, '-'] := by
    rw [Marker.toList_text, hdigits]
    simp
  have hname := hb.isNameChar_of_mem_text k
  rw [hmarker] at hname ⊢
  obtain ⟨place', v', hrun⟩ := run_commentChars place v
    fun c hc => hname c (List.mem_append_left _ hc)
  have hd : d.isDigit = true := by
    refine Nat.isDigit_of_mem_toDigits (by decide) le_rfl (b := 10) (n := k) ?_
    simp [hdigits]
  have hbody : ∃ v'', commentStep place' v' d = .go (comment .body v'') := by
    have hne (c : Char) (hc : c.isDigit = false) : d ≠ c := fun h => by rw [h, hc] at hd; cases hd
    have hdash := hne '-' (by decide)
    have hend := hne '>' (by decide)
    have hbang := hne '!' (by decide)
    cases place' <;> simp [commentStep, hdash, hend, hbang, ReadStep.go]
  obtain ⟨v'', hgo⟩ := hbody
  refine ⟨v'', fun rest => ?_⟩
  have hstep : step (comment place' v') d ('-' :: rest) = .go (comment .body v'') := hgo
  have hdash : step (comment .body v'') '-' rest = .go (comment .dash v'') := rfl
  rw [List.append_assoc, hrun, List.cons_append, List.cons_append, List.nil_append,
    run_go _ hstep, run_go _ hdash]

theorem beforeNameStep_of_isNameChar (tag : OpenTag) {c : Char} (hc : isNameChar c = true) :
    beforeNameStep tag c = .go (name tag c.toString) := by
  simp [beforeNameStep, isTagSpace_of_isNameChar hc, nameChar_of_isNameChar hc,
    ne_of_isNameChar hc '/' (by decide), ne_of_isNameChar hc '>' (by decide)]

/-- A name that begins an attribute. -/
theorem run_plainName {state : ReadState}
    (hstep : ∀ c rest, isNameChar c = true → step state c rest = .go (name tag c.toString))
    {s : String} (hs : isPlainName s = true) :
    run state 0 (s.toList ++ rest) = run (name tag s) 0 rest := by
  obtain ⟨c, cs, hlist, hlower, hcs⟩ := isPlainName_iff.1 hs
  rw [hlist, List.cons_append, run_go _ (hstep c _ (isNameChar_of_isLower hlower)),
    run_name _ cs hcs, Char.toString_eq_singleton, ← String.ofList_cons, ← hlist,
    String.ofList_toList]

/-- A value without quotes begins with its first character. -/
theorem run_beforeValue {s : String} (hs : isPlainName s = true) :
    run (beforeValue tag n) 0 (s.toList ++ rest) =
      run (value tag n none "") 0 (s.toList ++ rest) := by
  obtain ⟨c, cs, hlist, hlower, -⟩ := isPlainName_iff.1 hs
  have hc := isNameChar_of_isLower hlower
  have hstep : step (beforeValue tag n) c (cs ++ rest) =
      step (value tag n none "") c (cs ++ rest) := by
    simp [step, beforeValueStep, valueStep, isTagSpace_of_isNameChar hc,
      ne_of_isNameChar hc '"' (by decide), ne_of_isNameChar hc '\'' (by decide),
      ne_of_isNameChar hc '>' (by decide)]
  rw [hlist, List.cons_append, run_cons, run_cons, hstep]

theorem step_content_of_none (h : Reference.read? false rest = none) :
    step content '&' rest = ⟨content, 0, [.text "&"]⟩ := by
  simp [step, contentStep, h]

theorem step_content_of_some {r : Reference} (h : Reference.read? false rest = some r) :
    step content '&' rest = ⟨content, r.length, [.text r.text]⟩ := by
  simp [step, contentStep, h]

theorem step_value_of_none {quote : Option Char} (hquote : '&' ∉ quote)
    (h : Reference.read? true rest = none) :
    step (value tag n quote v) '&' rest = .go (value tag n quote (v.push '&')) := by
  cases quote with
  | some q => simp [step, valueStep, valueCharStep, h, show '&' ≠ q from fun e => hquote (e ▸ rfl)]
  | none => simp [step, valueStep, valueCharStep, h, isTagSpace]

theorem step_value_of_some {quote : Option Char} (hquote : '&' ∉ quote) {r : Reference}
    (h : Reference.read? true rest = some r) :
    step (value tag n quote v) '&' rest = ⟨value tag n quote (v ++ r.text), r.length, []⟩ := by
  cases quote with
  | some q => simp [step, valueStep, valueCharStep, h, show '&' ≠ q from fun e => hquote (e ▸ rfl)]
  | none => simp [step, valueStep, valueCharStep, h, isTagSpace]

end ReadState

/-! ### One step with every base -/

/-- Either all bases complete a fraction or none does, or no hole stands where one could. -/
def Sketch.Steady (B : Set String) (X : Sketch Empty) : Prop :=
  ((∀ base ∈ B, CompletesFraction base) ∨ ∀ base ∈ B, ¬ CompletesFraction base) ∨
    ∀ U k V, X ≠ U ++ (letters "&fr".toList ++ .hole k :: V)

theorem Sketch.Steady.suffix {B : Set String} {X Y : Sketch Empty} (h : Steady B (X ++ Y)) :
    Steady B Y :=
  h.imp_right fun hne U k V hY => hne (X ++ U) k V (by rw [hY, List.append_assoc])

theorem Sketch.Steady.letters_append {B : Set String} {cs : List Char} {X : Sketch Empty}
    (hcs : '&' ∉ cs) (h : Steady B X) : Steady B (letters cs ++ X) := by
  refine h.imp_right fun hne U k V hX => ?_
  induction cs generalizing U with
  | nil => exact hne U k V hX
  | cons c cs ih =>
    obtain ⟨hc, hcs⟩ := not_or.1 (mt List.mem_cons.2 hcs)
    cases U with
    | nil => exact hc (Stroke.letter.inj (List.cons.inj hX).1).symm
    | cons s U => exact ih hcs U (List.cons.inj hX).2

namespace Sketch

variable {B : Set String}

/-- What is left of the letters after a reference that the base does not matter to. -/
theorem run_skip_letters {state : ReadState} {cs : List Char} {taken : ℕ} (h : taken ≤ cs.length)
    (base : String) (Y : Sketch Empty) :
    run state taken ((letters cs ++ Y).ink base) =
      run state 0 ((letters (cs.drop taken) ++ Y).ink base) := by
  have hsplit : (letters cs ++ Y).ink base =
      cs.take taken ++ (letters (cs.drop taken) ++ Y).ink base := by
    rw [ink_append, ink_append, ink_letters, ink_letters, ← List.append_assoc,
      List.take_append_drop]
  have hskip := run_skip state (cs.take taken) ((letters (cs.drop taken) ++ Y).ink base)
  rwa [List.length_take_of_le h, ← hsplit] at hskip

theorem steady_drop {cs : List Char} {c : Char} {Y : Sketch Empty} (taken : ℕ)
    (h : Steady B (.letter c :: (letters cs ++ Y))) :
    Steady B (letters (cs.drop taken) ++ Y) := by
  refine Steady.suffix (X := .letter c :: letters (cs.take taken)) ?_
  have hsplit : letters cs ++ Y =
      letters (cs.take taken) ++ (letters (cs.drop taken) ++ Y : Sketch Empty) := by
    rw [← List.append_assoc, letters, letters, letters, ← List.map_append, List.take_append_drop]
  rwa [hsplit] at h

/-- What is left of a marker after a reference that reaches into it, except for the rest of the base
and the dash after it. -/
def afterDash (k : ℕ) (Z : Sketch Empty) : Sketch Empty :=
  letters (Nat.toDigits 10 k ++ ['-']) ++ Z

/-- A reference takes the letters before a marker and a part of the base. -/
theorem run_skip_base {state : ReadState} {base : String} (hb : IsBase base) {taken : ℕ}
    (h : taken ≤ 17) (cs : List Char) (k : ℕ) (Z : Sketch Empty) :
    run state (cs.length + taken) (ink base (letters cs ++ .hole k :: Z)) =
      run state 0 ((base.toList.drop taken ++ ['-']) ++ (afterDash k Z).ink base) := by
  have hsplit : ink base (letters cs ++ .hole k :: Z) = (cs ++ base.toList.take taken) ++
      ((base.toList.drop taken ++ ['-']) ++ (afterDash k Z).ink base) := by
    rw [ink_letters_hole, afterDash, ink_append, ink_letters]
    simp only [List.append_assoc, List.singleton_append]
    rw [← List.append_assoc (base.toList.take taken), List.take_append_drop]
  have hskip := run_skip state (cs ++ base.toList.take taken)
    ((base.toList.drop taken ++ ['-']) ++ (afterDash k Z).ink base)
  rwa [List.length_append, List.length_take_of_le (h.trans_eq hb.length_eq.symm), ← hsplit] at hskip

theorem length_afterDash_lt (k : ℕ) (cs : List Char) (Z : Sketch Empty) :
    (ink "" (afterDash k Z)).length + 1 ≤ (ink "" (letters cs ++ .hole k :: Z)).length := by
  rw [afterDash, ink_letters_hole]
  simp

theorem steady_afterDash {cs : List Char} {c : Char} {k : ℕ} {Z : Sketch Empty}
    (h : Steady B (.letter c :: (letters cs ++ .hole k :: Z))) : Steady B (afterDash k Z) := by
  refine Steady.letters_append (fun hmem => ?_) ?_
  · rcases List.mem_append.1 hmem with hmem | hmem
    · exact absurd (Nat.isDigit_of_mem_toDigits (by decide) le_rfl hmem) (by decide)
    · cases List.mem_singleton.1 hmem
  · refine Steady.suffix (X := .letter c :: (letters cs ++ [.hole k])) ?_
    rwa [List.cons_append, List.append_assoc, List.singleton_append]

end Sketch

namespace StateSketch

variable {B : Set String} {s s' : StateSketch} {X Y : Sketch Empty} {ts : List TokenSketch}

/-- With every base, reading `X` in the state `s` completes the tokens `ts` and goes on in the state
`s'` with `Y`, which is shorter.  No stroke is doubled. -/
structure Leads (B : Set String) (s : StateSketch) (X : Sketch Empty) (ts : List TokenSketch)
    (s' : StateSketch) (Y : Sketch Empty) : Prop where
  run_eq (base : String) : base ∈ B → Token.joinTexts (run (s.ink base) 0 (X.ink base)) =
    Token.joinTexts (ts.map (TokenSketch.ink base) ++ run (s'.ink base) 0 (Y.ink base))
  weight_le : TokenSketch.weightAll ts + s'.weight + Y.weight ≤ s.weight + X.weight
  shorter : (Y.ink "").length < (X.ink "").length
  steady : Steady B X → Steady B Y

theorem leads_of_advances {c : Char} (h : Advances s c) (X : Sketch Empty) :
    ∃ ts s', Leads B s (.letter c :: X) ts s' X := by
  obtain ⟨s', ts, hstep, hweight⟩ := h
  refine ⟨ts, s', fun base _ => ?_, ?_, ?_, fun h => h.suffix (X := [.letter c])⟩
  · rw [ink_cons, Stroke.ink, List.singleton_append, run_cons, hstep]
  · rw [weight_cons, Stroke.weight_letter]
    omega
  · rw [ink_cons, Stroke.ink, List.singleton_append, List.length_cons]
    exact Nat.lt_succ_self _

/-- A letter with which further letters are taken. -/
theorem leads_of_skip {c : Char} {cs : List Char} {taken : ℕ} (hle : taken ≤ cs.length)
    (h : ∀ base ∈ B, step (s.ink base) c ((letters cs ++ Y).ink base) =
      ⟨s'.ink base, taken, ts.map (TokenSketch.ink base)⟩)
    (hweight : TokenSketch.weightAll ts + s'.weight ≤ s.weight) :
    Leads B s (.letter c :: (letters cs ++ Y)) ts s' (letters (cs.drop taken) ++ Y) := by
  refine ⟨fun base hbase => ?_, ?_, ?_, steady_drop taken⟩
  · rw [ink_cons, Stroke.ink, List.singleton_append, run_cons, h base hbase]
    dsimp only
    rw [run_skip_letters hle]
  · simp only [weight_cons, Stroke.weight_letter, weight_append, weight_letters]
    omega
  · simp only [ink_cons, Stroke.ink, ink_append, ink_letters, List.length_append,
      List.length_drop, List.length_singleton]
    omega

/-- A marker that is taken up by what is being read. -/
theorem leads_of_marker {k : ℕ}
    (h : ∀ base ∈ B, ∀ rest, run (s.ink base) 0 ((Marker.text base k).toList ++ rest) =
      run (s'.ink base) 0 rest)
    (hweight : s'.weight ≤ s.weight + 1) (X : Sketch Empty) :
    Leads B s (.hole k :: X) [] s' X := by
  refine ⟨fun base hbase => ?_, ?_, ?_, fun h => h.suffix (X := [.hole k])⟩
  · rw [ink_cons, Stroke.ink, h base hbase]
    rfl
  · rw [weight_cons, Stroke.weight_hole, TokenSketch.weightAll_nil]
    omega
  · rw [ink_cons, List.length_append]
    exact Nat.lt_add_of_pos_left (List.length_pos_of_ne_nil Marker.text_ne_nil)

/-! ### Markers -/

theorem text_hole {σ : Type} [Part σ] (base : String) (k : ℕ) :
    text base ([.hole k] : Sketch σ) = Marker.text base k := by
  simp [text, Stroke.ink]

theorem text_append_hole (base : String) (X : Sketch Empty) (k : ℕ) :
    text base (X ++ [.hole k]) = X.text base ++ String.ofList (Marker.text base k).toList := by
  simp [text, Stroke.ink, String.ofList_append]

theorem isPlainName_marker {base : String} (hb : IsBase base) (k : ℕ) :
    isPlainName (Marker.text base k) = true := by
  have hname := hb.isNameChar_of_mem_text k
  obtain ⟨bs, hbase, -⟩ := hb.exists_cons
  rw [Marker.toList_text, hbase, List.cons_append] at hname
  refine isPlainName_iff.2 ⟨'a', _, by rw [Marker.toList_text, hbase]; rfl, by decide, ?_⟩
  exact fun c hc => hname c (List.mem_cons_of_mem _ hc)

variable (hB : ∀ base ∈ B, IsBase base)

include hB

/-- A marker with which a name begins. -/
theorem leads_of_name (k : ℕ) (tag : TagSketch)
    (h : ∀ base c rest, isNameChar c = true →
      step (s.ink base) c rest = .go (.name (tag.ink base) c.toString))
    (hweight : tag.weight ≤ s.weight) (X : Sketch Empty) :
    Leads B s (.hole k :: X) [] (name tag [.hole k]) X := by
  refine leads_of_marker (fun base hbase rest => ?_) (by simpa [weight] using hweight) X
  rw [run_plainName (h base) (isPlainName_marker (hB base hbase) k), ink, text_hole]

theorem exists_leads_hole (s : StateSketch) (k : ℕ) (X : Sketch Empty) :
    ∃ ts s', Leads B s (.hole k :: X) ts s' X := by
  have hname (base : String) (hbase : base ∈ B) := (hB base hbase).isNameChar_of_mem_text k
  have hplain (base : String) (hbase : base ∈ B) := isPlainName_marker (hB base hbase) k
  cases s with
  | content =>
    refine ⟨[.text [.hole k]], content, fun base hbase => ?_, ?_, ?_,
      fun h => h.suffix (X := [.hole k])⟩
    · have hne : Marker.text base k ≠ "" := fun h =>
        Marker.text_ne_nil (String.toList_eq_nil_iff.2 h)
      rw [ink_cons, Stroke.ink, ink, run_contentChars (hname base hbase)]
      have hletters := Token.joinTexts_letters hne (run .content 0 (X.ink base))
      rw [Tree.letters] at hletters
      rw [hletters, List.map_singleton, TokenSketch.ink, text_hole]
      rfl
    · simp [TokenSketch.weight, weight]
    · rw [ink_cons, List.length_append]
      exact Nat.lt_add_of_pos_left (List.length_pos_of_ne_nil Marker.text_ne_nil)
  | opened =>
    refine ⟨[], tagName ⟨false, [.hole k], []⟩, leads_of_marker (fun base hbase rest => ?_)
      (by simp [weight, TagSketch.weight]) X⟩
    rw [ink, ← run_go .opened (show step .content '<' _ = .go .opened from rfl),
      run_openTag (hplain base hbase), ink, TagSketch.ink, text_hole]
    rfl
  | closing =>
    refine ⟨[], tagName ⟨true, [.hole k], []⟩, leads_of_marker (fun base hbase rest => ?_)
      (by simp [weight, TagSketch.weight]) X⟩
    rw [ink, ← run_go .closing (show step .opened '/' _ = .go .closing from rfl),
      ← run_go .opened (show step .content '<' _ = .go .opened from rfl),
      run_closeTag (hplain base hbase), ink, TagSketch.ink, text_hole]
    rfl
  | tagName tag =>
    refine ⟨[], tagName { tag with name := tag.name ++ [.hole k] },
      leads_of_marker (fun base hbase rest => ?_)
        (by simp [weight, TagSketch.weight]; omega) X⟩
    rw [ink, run_tagName _ (hname base hbase), ink, TagSketch.ink, TagSketch.ink, text_append_hole]
  | beforeName tag | afterValue tag =>
    refine ⟨[], _, leads_of_name hB k tag (fun base c _ hc => ?_) le_rfl X⟩
    exact beforeNameStep_of_isNameChar _ hc
  | slash tag =>
    refine ⟨[], _, leads_of_name hB k tag (fun base c _ hc => ?_) le_rfl X⟩
    rw [ink, step, slashStep, if_neg (ne_of_isNameChar hc '>' (by decide)),
      beforeNameStep_of_isNameChar _ hc]
  | name tag n =>
    refine ⟨[], name tag (n ++ [.hole k]), leads_of_marker (fun base hbase rest => ?_)
      (by simp [weight]; omega) X⟩
    rw [ink, run_name _ _ (hname base hbase), ink, text_append_hole]
  | afterName tag n =>
    refine ⟨[], _, leads_of_name hB k (tag.put n []) (fun base c _ hc => ?_)
      (by simp [weight]) X⟩
    simp [ink, step, afterNameStep, isTagSpace_of_isNameChar hc, nameChar_of_isNameChar hc,
      ne_of_isNameChar hc '/' (by decide), ne_of_isNameChar hc '>' (by decide),
      ne_of_isNameChar hc '=' (by decide)]
  | beforeValue tag n =>
    refine ⟨[], value tag n none [.hole k], leads_of_marker (fun base hbase rest => ?_)
      (by simp [weight]) X⟩
    rw [ink, ink, run_beforeValue (hplain base hbase),
      run_valueChars (by simp) (hname base hbase), text_hole, String.empty_append,
      String.ofList_toList, Option.map_none]
  | value tag n quote v =>
    refine ⟨[], value tag n quote (v ++ [.hole k]), leads_of_marker (fun base hbase rest => ?_)
      (by simp [weight]; omega) X⟩
    have hquote : ∀ q ∈ quote.map (·.1), isNameChar q = false := by
      rintro q hq
      obtain ⟨p, -, rfl⟩ := Option.map_eq_some_iff.1 hq
      exact Quote.isNameChar_eq p
    rw [ink, run_valueChars hquote (hname base hbase), ink, text_append_hole]
  | remark data =>
    refine ⟨[], remark (.torn fun base => data.ink base ++ Marker.text base k),
      leads_of_marker (fun base hbase rest => ?_) (by simp [weight, Remark.weight]) X⟩
    rw [ink, run_remarkChars (hname base hbase), String.ofList_toList]
    rfl
  | comment place data =>
    choose! v hv using fun base hbase => run_commentMarker (hB base hbase) k place (data.ink base)
    exact ⟨[], comment .dash (.torn v), leads_of_marker hv (by simp [weight, Remark.weight]) X⟩
  | doctype =>
    refine ⟨[], doctype, leads_of_marker (fun base hbase rest => ?_) (by simp [weight]) X⟩
    exact run_doctypeChars (hname base hbase)

/-! ### References -/

/-- A reference that the base does not matter to, or one that reaches into the marker of a hole. -/
theorem reads_ink (inValue : Bool) (X : Sketch Empty) (hX : Steady B (.letter '&' :: X)) :
    (∃ (cs : List Char) (Y : Sketch Empty) (r? : Option Reference), X = letters cs ++ Y ∧
      (∀ r ∈ r?, r.length ≤ cs.length) ∧
        ∀ base ∈ B, Reference.read? inValue (X.ink base) = r?) ∨
    ∃ (cs : List Char) (k : ℕ) (Z : Sketch Empty) (taken : ℕ), X = letters cs ++ .hole k :: Z ∧
      0 < taken ∧ taken ≤ 17 ∧
      (∀ base ∈ B, ∃ c, isNameChar c = false ∧
        Reference.read? inValue (X.ink base) = some ⟨Char.toString c, cs.length + taken⟩) ∧
      (inValue = true → taken = 17 ∧ ∀ base ∈ B,
        Reference.read? inValue (X.ink base) = some ⟨('\ufffd').toString, cs.length + 17⟩) := by
  obtain ⟨cs, Y, rfl, rfl | ⟨k, Z, rfl⟩⟩ := exists_letters_hole X
  · refine Or.inl ⟨cs, [], Reference.read? inValue cs, rfl,
      fun r => Reference.length_of_read?, fun base _ => ?_⟩
    rw [List.append_nil, ink_letters]
  · have hfr : cs = "fr".toList → (∀ base ∈ B, CompletesFraction base) ∨
        ∀ base ∈ B, ¬ CompletesFraction base := by
      rintro rfl
      exact hX.resolve_right fun hne => hne [] k Z rfl
    cases Reference.readsBefore hB inValue cs hfr with
    | apart r? hle hread =>
      refine Or.inl ⟨cs, _, r?, rfl, hle, fun base hbase => ?_⟩
      rw [ink_letters_hole, hread base hbase]
    | into taken hpos hle hread hvalue =>
      refine Or.inr ⟨cs, k, Z, taken, rfl, hpos, hle, fun base hbase => ?_, fun h => ?_⟩
      · obtain ⟨c, hc, hread⟩ := hread base hbase
        exact ⟨c, hc, by rw [ink_letters_hole, hread]⟩
      · obtain ⟨htaken, hread⟩ := hvalue h
        exact ⟨htaken, fun base hbase => by rw [ink_letters_hole, hread base hbase]⟩

theorem exists_leads_content_reference (X : Sketch Empty) (hX : Steady B (.letter '&' :: X)) :
    ∃ ts s' Y, Leads B content (.letter '&' :: X) ts s' Y := by
  rcases reads_ink hB false X hX with ⟨cs, Y, r?, rfl, hle, hread⟩ |
    ⟨cs, k, Z, taken, rfl, hpos, hle, hread, -⟩
  · cases r? with
    | none =>
      refine ⟨[.text [.letter '&']], content, _,
        leads_of_skip (Nat.zero_le _) (fun base hbase => ?_) le_rfl⟩
      rw [ink, step_content_of_none (hread base hbase)]
      rfl
    | some r =>
      refine ⟨[.text (letters r.text.toList)], content, _,
        leads_of_skip (hle r rfl) (fun base hbase => ?_) (by simp [TokenSketch.weight])⟩
      rw [ink, step_content_of_some (hread base hbase)]
      simp [TokenSketch.ink, text]
  -- The rest of the base is read letter by letter and joined to what the reference stands for.
  · choose! first hodd hread using hread
    have hodd' (base : String) :
        isNameChar (if isNameChar (first base) = true then '\ufffd' else first base) = false := by
      split_ifs with h
      · decide
      · simpa using h
    refine ⟨[.text [.part ⟨_, taken, hodd', hpos⟩]], content, afterDash k Z, fun base hbase => ?_,
      ?_, ?_, fun h => steady_afterDash h⟩
    · have hdash : ∀ c ∈ base.toList.drop taken ++ ['-'], isNameChar c = true := by
        intro c hc
        rcases List.mem_append.1 hc with hc | hc
        · exact isNameChar_of_mem_hexDigits c ((hB base hbase).isDigit c (List.mem_of_mem_drop hc))
        · rw [List.mem_singleton.1 hc]
          decide
      have hne : String.ofList (base.toList.drop taken ++ ['-']) ≠ "" := by simp
      have hletters := Token.joinTexts_letters hne (run .content 0 ((afterDash k Z).ink base))
      rw [Tree.letters, String.toList_ofList] at hletters
      have hfirst : ¬ isNameChar (first base) = true := by simp [hodd base hbase]
      have hshard : TokenSketch.ink base (.text [.part ⟨_, taken, hodd', hpos⟩]) = .text
          (Char.toString (first base) ++ String.ofList (base.toList.drop taken ++ ['-'])) := by
        simp [TokenSketch.ink, text, Stroke.ink, Part.write, Shard.write, hfirst]
      rw [ink_cons, Stroke.ink, List.singleton_append, run_cons, ink,
        step_content_of_some (hread base hbase)]
      dsimp only
      rw [run_skip_base (hB base hbase) hle, run_contentChars hdash, List.singleton_append,
        Token.joinTexts, hletters, Token.joinText_text_text, List.map_singleton, hshard]
      rfl
    · simp [TokenSketch.weight, weight, afterDash]
    · have hlt := length_afterDash_lt k cs Z
      rw [ink_cons, Stroke.ink, List.singleton_append, List.length_cons]
      omega

theorem exists_leads_value_reference (tag : TagSketch) (n : Sketch Empty) (quote : Option Quote)
    (v X : Sketch Empty) (hX : Steady B (.letter '&' :: X)) :
    ∃ ts s' Y, Leads B (value tag n quote v) (.letter '&' :: X) ts s' Y := by
  have hquote : '&' ∉ quote.map (·.1) := fun h => by
    obtain ⟨⟨q, hq⟩, -, rfl⟩ := Option.map_eq_some_iff.1 h
    revert hq
    decide
  rcases reads_ink hB true X hX with ⟨cs, Y, r?, rfl, hle, hread⟩ |
    ⟨cs, k, Z, taken, rfl, -, -, -, hvalue⟩
  · cases r? with
    | none =>
      refine ⟨[], value tag n quote (v ++ [.letter '&']), _,
        leads_of_skip (Nat.zero_le _) (fun base hbase => ?_) (by simp [weight])⟩
      rw [ink, step_value_of_none hquote (hread base hbase), ink, text_push]
      rfl
    | some r =>
      refine ⟨[], value tag n quote (v ++ letters r.text.toList), _,
        leads_of_skip (hle r rfl) (fun base hbase => ?_) (by simp [weight])⟩
      rw [ink, step_value_of_some hquote (hread base hbase)]
      simp [ink, text, String.ofList_append]
  · obtain ⟨rfl, hread⟩ := hvalue rfl
    refine ⟨[], value tag n quote (v ++ [.letter '\ufffd']), letters ['-'] ++ afterDash k Z,
      fun base hbase => ?_, ?_, ?_, fun h => (steady_afterDash h).letters_append (by decide)⟩
    · rw [ink_cons, Stroke.ink, List.singleton_append, run_cons, ink,
        step_value_of_some hquote (hread base hbase)]
      dsimp only
      rw [run_skip_base (hB base hbase) le_rfl, List.drop_eq_nil_of_le (hB base hbase).length_eq.le,
        ink, text_push, Char.toString_eq_singleton, String.append_singleton]
      simp
    · simp [weight, afterDash]
    · have hlt := length_afterDash_lt k cs Z
      rw [ink_cons, Stroke.ink, List.singleton_append, List.length_cons, ink_append, ink_letters,
        List.length_append, List.length_singleton]
      omega

/-- A value without quotes that begins with a reference. -/
theorem exists_leads_beforeValue_reference (tag : TagSketch) (n X : Sketch Empty)
    (hX : Steady B (.letter '&' :: X)) :
    ∃ ts s' Y, Leads B (beforeValue tag n) (.letter '&' :: X) ts s' Y := by
  obtain ⟨ts, s', Y, hleads⟩ := exists_leads_value_reference hB tag n none [] X hX
  refine ⟨ts, s', Y, fun base hbase => ?_, by simpa [weight] using hleads.weight_le,
    hleads.shorter, hleads.steady⟩
  rw [← hleads.run_eq base hbase]
  rfl

/-! ### Declarations -/

omit hB in
/-- Whether a word begins a source depends on its letters, unless the word has an `a`. -/
theorem isPrefixOf_ink {base : String} (hb : IsBase base) (word : List Char) (f : Char → Char)
    (hf : f 'a' ∉ word) (cs : List Char) {Y : Sketch Empty}
    (hY : Y = [] ∨ ∃ k Z, Y = .hole k :: Z) :
    word.isPrefixOf (((letters cs ++ Y).ink base).map f) = word.isPrefixOf (cs.map f) := by
  rcases hY with rfl | ⟨k, Z, rfl⟩
  · rw [List.append_nil, ink_letters]
  · obtain ⟨bs, hbase, -⟩ := hb.exists_cons
    rw [ink_letters_hole, hbase, List.map_append, List.cons_append, List.map_cons,
      Reference.isPrefixOf_append_cons hf]

/-- A declaration is a comment or a document type with all bases or with none. -/
theorem exists_leads_declaration (X : Sketch Empty) :
    ∃ ts s' Y, Leads B opened (.letter '!' :: X) ts s' Y := by
  obtain ⟨cs, Y, rfl, hY⟩ := exists_letters_hole X
  have hdashes (base : String) (hbase : base ∈ B) :
      ['-', '-'].isPrefixOf ((letters cs ++ Y).ink base) = ['-', '-'].isPrefixOf cs := by
    simpa using isPrefixOf_ink (hB base hbase) ['-', '-'] id (by decide) cs hY
  have hword (base : String) (hbase : base ∈ B) :
      beginsWord "doctype".toList ((letters cs ++ Y).ink base) =
        "doctype".toList.isPrefixOf (cs.map Char.toLower) :=
    isPrefixOf_ink (hB base hbase) _ Char.toLower (by decide) cs hY
  have hstep (base : String) : step (ink base opened) '!' ((letters cs ++ Y).ink base) =
      declarationStep ((letters cs ++ Y).ink base) := rfl
  by_cases hcomment : ['-', '-'].isPrefixOf cs = true
  · have hle := (List.isPrefixOf_iff_prefix.1 hcomment).length_le
    refine ⟨[], comment .start (.plain ""), _, leads_of_skip hle (fun base hbase => ?_) le_rfl⟩
    rw [hstep, declarationStep, hdashes base hbase, if_pos hcomment]
    rfl
  by_cases hdoctype : "doctype".toList.isPrefixOf (cs.map Char.toLower) = true
  · have hle : 7 ≤ cs.length := by
      simpa using (List.isPrefixOf_iff_prefix.1 hdoctype).length_le
    refine ⟨[], doctype, _, leads_of_skip hle (fun base hbase => ?_) le_rfl⟩
    rw [hstep, declarationStep, hdashes base hbase, if_neg hcomment, hword base hbase,
      if_pos hdoctype]
    rfl
  · refine ⟨[], remark (.plain ""), _, leads_of_skip (Nat.zero_le _) (fun base hbase => ?_) le_rfl⟩
    rw [hstep, declarationStep, hdashes base hbase, if_neg hcomment, hword base hbase,
      if_neg hdoctype]
    rfl

/-! ### All steps -/

theorem exists_leads_content {c : Char} (X : Sketch Empty) (hX : Steady B (.letter c :: X)) :
    ∃ ts s' Y, Leads B content (.letter c :: X) ts s' Y := by
  by_cases hamp : c = '&'
  · subst hamp
    exact exists_leads_content_reference hB X hX
  have hadvances : Advances content c := by
    by_cases hlt : c = '<'
    · exact .go opened (fun _ _ => by simp [ink, step, contentStep, hlt]) le_rfl
    · refine ⟨content, [.text [.letter c]], fun base _ => ?_, le_rfl⟩
      simp [ink, step, contentStep, hlt, hamp, TokenSketch.ink, text_singleton]
  obtain ⟨ts, s', hleads⟩ := leads_of_advances hadvances X
  exact ⟨ts, s', X, hleads⟩

/-- Where `<` begins no markup it is text, and what follows it is read as it is between tags. -/
theorem exists_leads_opened {c : Char} (X : Sketch Empty) (hX : Steady B (.letter c :: X)) :
    ∃ ts s' Y, Leads B opened (.letter c :: X) ts s' Y := by
  by_cases hbang : c = '!'
  · subst hbang
    exact exists_leads_declaration hB X
  by_cases hmarkup : c = '/' ∨ c = '?' ∨ c.isAlpha = true
  · have hadvances : Advances opened c := by
      rcases hmarkup with rfl | rfl | halpha
      · exact .go closing (fun _ _ => by simp [ink, step, openedStep]) le_rfl
      · exact .go (remark (.plain "?")) (fun _ _ => by simp [ink, step, openedStep, Remark.ink])
          le_rfl
      · have hne (d : Char) (hd : d.isAlpha = false) : c ≠ d := fun h => by
          rw [h, hd] at halpha
          cases halpha
        refine .go (tagName ⟨false, [.letter (nameChar c)], []⟩) (fun _ _ => ?_)
          (by simp [weight, TagSketch.weight])
        simp [ink, step, openedStep, hne '!' (by decide), hne '/' (by decide), hne '?' (by decide),
          halpha, TagSketch.ink, text_singleton, AttributeSketch.inkAll]
    obtain ⟨ts, s', hleads⟩ := leads_of_advances hadvances X
    exact ⟨ts, s', X, hleads⟩
  · obtain ⟨ts, s', Y, hleads⟩ := exists_leads_content hB X hX
    refine ⟨.text [.letter '<'] :: ts, s', Y, fun base hbase => ?_, hleads.weight_le.trans' ?_,
      hleads.shorter, hleads.steady⟩
    · have hnot : c ≠ '/' ∧ c ≠ '?' ∧ ¬ c.isAlpha = true := by simpa using hmarkup
      have hrun := hleads.run_eq base hbase
      rw [ink_cons, Stroke.ink, List.singleton_append, run_cons] at hrun ⊢
      have hstep : step (ink base opened) c (X.ink base) =
          { contentStep c (X.ink base) with
            tokens := .text "<" :: (contentStep c (X.ink base)).tokens } := by
        simp [ink, step, openedStep, hbang, hnot]
      rw [hstep, List.map_cons, List.cons_append, List.cons_append, Token.joinTexts,
        Token.joinTexts, ← hrun]
      rfl
    · simp [TokenSketch.weight]

/-- With every base, reading goes on alike. -/
theorem exists_leads (s : StateSketch) (t : Stroke Empty) (X : Sketch Empty)
    (hX : Steady B (t :: X)) : ∃ ts s' Y, Leads B s (t :: X) ts s' Y := by
  cases t with
  | part p => exact p.elim
  | hole k =>
    obtain ⟨ts, s', hleads⟩ := exists_leads_hole hB s k X
    exact ⟨ts, s', X, hleads⟩
  | letter c =>
    have hadvances (h : Advances s c) : ∃ ts s' Y, Leads B s (.letter c :: X) ts s' Y := by
      obtain ⟨ts, s', hleads⟩ := leads_of_advances h X
      exact ⟨ts, s', X, hleads⟩
    cases s with
    | content => exact exists_leads_content hB X hX
    | opened => exact exists_leads_opened hB X hX
    | closing => exact hadvances (advances_closing c)
    | tagName tag => exact hadvances (advances_tagName tag c)
    | beforeName tag => exact hadvances (advances_beforeName tag c)
    | name tag n => exact hadvances (advances_name tag n c)
    | afterName tag n => exact hadvances (advances_afterName tag n c)
    | beforeValue tag n =>
      by_cases hc : c = '&'
      · subst hc
        exact exists_leads_beforeValue_reference hB tag n X hX
      · exact hadvances (advances_beforeValue tag n hc)
    | value tag n quote v =>
      by_cases hc : c = '&'
      · subst hc
        exact exists_leads_value_reference hB tag n quote v X hX
      · exact hadvances (advances_value tag n quote v hc)
    | afterValue tag => exact hadvances (advances_afterValue tag c)
    | slash tag => exact hadvances (advances_slash tag c)
    | remark data => exact hadvances (advances_remark data c)
    | comment place data => exact hadvances (advances_comment place data c)
    | doctype => exact hadvances (advances_doctype c)

end StateSketch

/-! ### Reading a source -/

namespace TokenSketch

/-- Puts a token in front, joining text with text. -/
def joinText : TokenSketch → List TokenSketch → List TokenSketch
  | text X, text Y :: ts => text (X ++ Y) :: ts
  | t, ts => t :: ts

/-- Joins the texts that stand side by side. -/
def joinTexts : List TokenSketch → List TokenSketch
  | [] => []
  | t :: ts => joinText t (joinTexts ts)

theorem map_ink_joinText (base : String) (t : TokenSketch) (ts : List TokenSketch) :
    (joinText t ts).map (ink base) = Token.joinText (t.ink base) (ts.map (ink base)) := by
  cases t with
  | text X =>
    cases ts with
    | nil => rfl
    | cons u us =>
      cases u with
      | text Y => simp [joinText, ink, Token.joinText, Sketch.text, String.ofList_append]
      | start | stop | comment | doctype => rfl
  | start | stop | comment | doctype => rfl

theorem map_ink_joinTexts (base : String) (ts : List TokenSketch) :
    (joinTexts ts).map (ink base) = Token.joinTexts (ts.map (ink base)) := by
  induction ts with
  | nil => rfl
  | cons t ts ih => rw [joinTexts, map_ink_joinText, ih, List.map_cons, Token.joinTexts]

theorem weightAll_joinText (t : TokenSketch) (ts : List TokenSketch) :
    weightAll (joinText t ts) = t.weight + weightAll ts := by
  unfold joinText
  split
  · simp [weight, Nat.add_assoc]
  · rfl

theorem weightAll_joinTexts (ts : List TokenSketch) : weightAll (joinTexts ts) = weightAll ts := by
  induction ts with
  | nil => rfl
  | cons t ts ih => rw [joinTexts, weightAll_joinText, ih, weightAll_cons]

end TokenSketch

theorem Token.joinTexts_append_congr (ts : List Token) {us vs : List Token}
    (h : joinTexts us = joinTexts vs) : joinTexts (ts ++ us) = joinTexts (ts ++ vs) := by
  induction ts with
  | nil => exact h
  | cons t ts ih => rw [List.cons_append, List.cons_append, joinTexts, joinTexts, ih]

/-- The tokens of a source in which the base is left open. -/
theorem StateSketch.exists_tokens {B : Set String} (hB : ∀ base ∈ B, IsBase base) (s : StateSketch)
    (X : Sketch Empty) (hX : Steady B X) : ∃ ts : List TokenSketch,
      (∀ base ∈ B, Token.joinTexts (run (s.ink base) 0 (X.ink base)) =
        Token.joinTexts (ts.map (TokenSketch.ink base))) ∧
      TokenSketch.weightAll ts ≤ s.weight + X.weight := by
  induction hlength : (X.ink "").length using Nat.strong_induction_on generalizing s X with
  | h length ih =>
    cases X with
    | nil =>
      obtain ⟨ts, hfinish, hweight⟩ := exists_finish s
      refine ⟨ts, fun base _ => ?_, by simpa using hweight⟩
      rw [ink_nil, run, hfinish]
    | cons t X =>
      obtain ⟨ts, s', Y, hleads⟩ := exists_leads hB s t X hX
      obtain ⟨us, hus, hweight⟩ := ih _ (hlength ▸ hleads.shorter) s' Y (hleads.steady hX) rfl
      refine ⟨ts ++ us, fun base hbase => ?_, ?_⟩
      · rw [hleads.run_eq base hbase, List.map_append]
        exact Token.joinTexts_append_congr _ (hus base hbase)
      · have hle := hleads.weight_le
        rw [TokenSketch.weightAll_append]
        omega

end LiveMarkup
