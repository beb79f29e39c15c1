import LiveMarkup.Proofs.Template.SketchedReading
import LiveMarkup.Template.Compile

/-!
# The markup of a template in which the base is left open

The source of a template is a sketch with a hole between each segment and the next, so the tokens of
the source are those of sketches, whatever the base.  Nesting only compares tags, and where the tags
can be told apart with one base they can be with another.  So the trees of the source are those of
one list of sketched trees, which have no more strokes that are not letters than the template has
holes (`Template.exists_trees`).
-/

namespace LiveMarkup

open Sketch

/-! ### The source -/

theorem unifyNewlines_cons {c : Char} (hc : c ≠ '\r') (cs : List Char) :
    unifyNewlines (c :: cs) = c :: unifyNewlines cs :=
  unifyNewlines.eq_4 c cs (fun _ h => absurd h hc) fun h => absurd h hc

theorem unifyNewlines_append {cs rest : List Char} (hcs : '\r' ∉ cs) :
    unifyNewlines (cs ++ rest) = cs ++ unifyNewlines rest := by
  induction cs with
  | nil => rfl
  | cons c cs ih =>
    obtain ⟨hc, hcs⟩ := not_or.1 (mt List.mem_cons.2 hcs)
    rw [List.cons_append, unifyNewlines_cons (Ne.symm hc), ih hcs, List.cons_append]

/-- Lines end alike whether or not something that begins no newline follows. -/
theorem unifyNewlines_append_cons {c : Char} (hc : c ≠ '\n') (cs rest : List Char) :
    unifyNewlines (cs ++ c :: rest) = unifyNewlines cs ++ unifyNewlines (c :: rest) := by
  induction cs using unifyNewlines.induct with
  | case1 => rfl
  | case2 cs ih => simp only [List.cons_append, unifyNewlines, ih]
  | case3 cs hcs ih =>
    have hrest : ∀ ds, cs ++ c :: rest = '\n' :: ds → False := by
      intro ds hds
      cases cs with
      | nil => exact hc (List.cons.inj hds).1
      | cons d cs => exact hcs cs (by rw [(List.cons.inj hds).1])
    rw [List.cons_append, unifyNewlines.eq_3 _ hrest, unifyNewlines.eq_3 _ hcs, ih,
      List.cons_append]
  | case4 d cs hd hd' ih =>
    rw [List.cons_append, unifyNewlines_cons hd', ih, unifyNewlines_cons hd', List.cons_append]

theorem unifyNewlines_of_not_mem {cs : List Char} (h : '\n' ∉ unifyNewlines cs) :
    unifyNewlines cs = cs := by
  induction cs using unifyNewlines.induct with
  | case1 => rfl
  | case2 cs ih => simp [unifyNewlines] at h
  | case3 cs hcs ih => simp [unifyNewlines] at h
  | case4 c cs hc hc' ih =>
    rw [unifyNewlines_cons hc'] at h ⊢
    rw [ih (not_or.1 (mt List.mem_cons.2 h)).2]

/-- What ends the lines of a text after they are unified, and has no end of a line in it, ended them
before. -/
theorem suffix_of_suffix_unifyNewlines {w cs : List Char} (hw : '\n' ∉ w)
    (h : w <:+ unifyNewlines cs) : w <:+ cs := by
  have hnewline {ds : List Char} (hds : w <:+ '\n' :: ds) : w <:+ ds := by
    rcases List.suffix_cons_iff.1 hds with rfl | hds
    · exact absurd List.mem_cons_self hw
    · exact hds
  induction cs using unifyNewlines.induct with
  | case1 => exact h
  | case2 cs ih =>
    rw [unifyNewlines] at h
    exact (ih (hnewline h)).trans ⟨['\r', '\n'], rfl⟩
  | case3 cs hcs ih =>
    rw [unifyNewlines.eq_3 _ hcs] at h
    exact (ih (hnewline h)).trans (List.suffix_cons _ _)
  | case4 c cs hc hc' ih =>
    rw [unifyNewlines_cons hc'] at h
    rcases List.suffix_cons_iff.1 h with rfl | h
    · rw [unifyNewlines_of_not_mem fun hmem => hw (List.mem_cons_of_mem c hmem)]
    · exact (ih h).trans (List.suffix_cons _ _)

namespace Template

/-- The source of a template from the hole `ordinal` on, with the base left open. -/
def sourceSketch (ordinal : ℕ) : List String → Sketch Empty
  | [] => []
  | [segment] => letters (unifyNewlines segment.toList)
  | segment :: segments =>
    letters (unifyNewlines segment.toList) ++ .hole ordinal :: sourceSketch (ordinal + 1) segments

/-- A segment before a hole ends as the name of a fraction begins. -/
def EndsInFraction (segments : List String) : Prop :=
  ∃ segment ∈ segments.dropLast, "&fr".toList <:+ segment.toList

instance (segments : List String) : Decidable (EndsInFraction segments) :=
  inferInstanceAs (Decidable (∃ segment ∈ segments.dropLast, _))

variable {base : String} (hb : IsBase base)

include hb in
theorem ink_sourceSketch (ordinal : ℕ) (segments : List String) :
    unifyNewlines (sourceFrom base ordinal segments).toList =
      (sourceSketch ordinal segments).ink base := by
  induction segments generalizing ordinal with
  | nil => rfl
  | cons segment segments ih =>
    cases segments with
    | nil => rw [sourceFrom, sourceSketch, ink_letters]
    | cons next segments =>
      have hname := hb.isNameChar_of_mem_text ordinal
      have hreturn : '\r' ∉ (Marker.text base ordinal).toList := fun hmem =>
        absurd (hname _ hmem) (by decide)
      rw [sourceFrom, sourceSketch, String.toList_append, String.toList_append, ink_append,
        ink_letters, ink_cons, Stroke.ink, ← ih, ← unifyNewlines_append hreturn, List.append_assoc]
      · cases hmarker : (Marker.text base ordinal).toList with
        | nil => exact absurd hmarker Marker.text_ne_nil
        | cons c cs =>
          rw [hmarker] at hname
          exact unifyNewlines_append_cons
            (ne_of_isNameChar (hname c List.mem_cons_self) '\n' (by decide)) _ _
      all_goals simp

theorem weight_sourceSketch (ordinal : ℕ) (segments : List String) :
    (sourceSketch ordinal segments).weight = holeCount segments := by
  induction segments generalizing ordinal with
  | nil => rfl
  | cons segment segments ih =>
    cases segments with
    | nil => exact weight_letters _
    | cons next segments =>
      rw [sourceSketch, weight_append, weight_letters, weight_cons, Stroke.weight_hole, ih]
      · simp only [holeCount, List.length_cons]
        omega
      · simp

/-- No reference reaches into the marker after letters that do not end as the name of a fraction
begins. -/
theorem steady_letters_hole {cs : List Char} {k : ℕ} {X : Sketch Empty}
    (hcs : ¬ "&fr".toList <:+ cs)
    (hX : ∀ U j V, X ≠ U ++ (letters "&fr".toList ++ .hole j :: V)) (U : Sketch Empty) (j : ℕ)
    (V : Sketch Empty) :
    letters cs ++ .hole k :: X ≠ U ++ (letters "&fr".toList ++ .hole j :: V) := by
  intro h
  induction cs generalizing U with
  | nil =>
    cases U with
    | nil => cases h
    | cons s U => exact hX U j V (List.cons.inj h).2
  | cons c cs ih =>
    cases U with
    | cons s U => exact ih (fun hs => hcs (hs.trans (List.suffix_cons c cs))) U (List.cons.inj h).2
    | nil =>
      apply hcs
      rcases cs with _ | ⟨d, _ | ⟨e, _ | ⟨f, cs⟩⟩⟩ <;> simp [letters] at h ⊢
      obtain ⟨rfl, rfl, rfl, -⟩ := h
      exact List.suffix_refl _

variable {B : Set String} {segments : List String}

theorem steady_sourceSketch
    (hfraction : EndsInFraction segments →
      (∀ base ∈ B, CompletesFraction base) ∨ ∀ base ∈ B, ¬ CompletesFraction base)
    (ordinal : ℕ) : Steady B (sourceSketch ordinal segments) := by
  refine or_iff_not_imp_left.2 fun hmixed => ?_
  have hends := mt hfraction hmixed
  clear hfraction hmixed
  induction segments generalizing ordinal with
  | nil => simp [sourceSketch]
  | cons segment segments ih =>
    cases segments with
    | nil =>
      intro U k V h
      have hholes := congrArg Sketch.holes h
      simp [sourceSketch] at hholes
    | cons next segments =>
      have hsegment : ¬ "&fr".toList <:+ segment.toList := fun h =>
        hends ⟨segment, by simp, h⟩
      have hrest : ¬ EndsInFraction (next :: segments) := fun ⟨s, hs, h⟩ =>
        hends ⟨s, List.mem_cons_of_mem segment hs, h⟩
      rw [sourceSketch]
      · refine steady_letters_hole (fun h => hsegment ?_) (ih (ordinal + 1) hrest)
        exact suffix_of_suffix_unifyNewlines (by decide) h
      · simp

/-- The tokens of a template in which the base is left open. -/
theorem exists_tokens (hB : ∀ base ∈ B, IsBase base)
    (hfraction : EndsInFraction segments →
      (∀ base ∈ B, CompletesFraction base) ∨ ∀ base ∈ B, ¬ CompletesFraction base) :
    ∃ ts : List TokenSketch,
      (∀ base ∈ B, Token.ofMarkup (source base segments) = ts.map (TokenSketch.ink base)) ∧
      TokenSketch.weightAll ts ≤ holeCount segments := by
  obtain ⟨ts, hts, hweight⟩ := StateSketch.exists_tokens hB .content (sourceSketch 0 segments)
    (steady_sourceSketch hfraction 0)
  refine ⟨TokenSketch.joinTexts ts, fun base hbase => ?_, ?_⟩
  · rw [TokenSketch.map_ink_joinTexts, ← hts base hbase, Token.ofMarkup, source,
      ink_sourceSketch (hB base hbase)]
    rfl
  · rw [TokenSketch.weightAll_joinTexts]
    simpa [StateSketch.weight, weight_sourceSketch] using hweight

end Template

/-! ### Sketches of trees -/

/-- A tree in which the base is left open. -/
inductive TreeSketch where
  | element (tag : Sketch Empty) (attributes : List AttributeSketch) (children : List TreeSketch)
  | text (data : Sketch Shard)
  | comment (data : Remark)

namespace TreeSketch

mutual

/-- A tree that is inked with a base. -/
def ink (base : String) : TreeSketch → Tree
  | element tag as cs => .element (tag.text base) (AttributeSketch.inkAll base as) (inkAll base cs)
  | text data => .text (data.text base)
  | comment data => .comment (data.ink base)

/-- Trees that are inked with a base. -/
def inkAll (base : String) : List TreeSketch → List Tree
  | [] => []
  | t :: ts => t.ink base :: inkAll base ts

end

mutual

def weight : TreeSketch → ℕ
  | element tag as cs => tag.weight + AttributeSketch.weightAll as + weightAll cs
  | text data => data.weight
  | comment data => data.weight

def weightAll : List TreeSketch → ℕ
  | [] => 0
  | t :: ts => t.weight + weightAll ts

end

theorem inkAll_append (base : String) (ts us : List TreeSketch) :
    inkAll base (ts ++ us) = inkAll base ts ++ inkAll base us := by
  induction ts with
  | nil => rfl
  | cons t ts ih => rw [List.cons_append, inkAll, ih, inkAll, List.cons_append]

theorem inkAll_reverse (base : String) (ts : List TreeSketch) :
    inkAll base ts.reverse = (inkAll base ts).reverse := by
  induction ts with
  | nil => rfl
  | cons t ts ih => simp only [List.reverse_cons, inkAll_append, ih, inkAll]

theorem weightAll_append (ts us : List TreeSketch) :
    weightAll (ts ++ us) = weightAll ts + weightAll us := by
  induction ts with
  | nil => exact (Nat.zero_add _).symm
  | cons t ts ih => rw [List.cons_append, weightAll, ih, weightAll, Nat.add_assoc]

theorem weightAll_reverse (ts : List TreeSketch) : weightAll ts.reverse = weightAll ts := by
  induction ts with
  | nil => rfl
  | cons t ts ih =>
    rw [List.reverse_cons, weightAll_append, ih, weightAll, weightAll, weightAll]
    omega

end TreeSketch

/-! ### Nesting -/

/-- No letters of the sketch spell a marker of one of the bases. -/
def Sketch.Clean {σ : Type} [Part σ] (B : Set String) (X : Sketch σ) : Prop :=
  ∀ base ∈ B, ∃ other ∈ B, Marker.Absent base (X.ink other)

/-- Clean sketches are inked alike only if they are the same. -/
theorem Sketch.Clean.text_eq_text_iff {B : Set String} (hB : ∀ base ∈ B, IsBase base)
    {X Y : Sketch Empty} (hX : Clean B X) (hY : Clean B Y) {base : String} (hbase : base ∈ B) :
    X.text base = Y.text base ↔ X = Y := by
  refine ⟨fun h => ?_, fun h => h ▸ rfl⟩
  obtain ⟨other, -, hother⟩ := hX base hbase
  obtain ⟨other', -, hother'⟩ := hY base hbase
  refine eq_of_ink_eq (hB base hbase) hother hother' ?_
  rw [← toList_sketchText, h, toList_sketchText]

/-- Whether a tag is one of some words that have no dash does not depend on the base. -/
theorem Sketch.contains_text {words : List String} (hwords : ∀ word ∈ words, '-' ∉ word.toList)
    (X : Sketch Empty) (base : String) :
    words.contains (X.text base) = words.contains (X.text "") := by
  obtain ⟨cs, Y, rfl, rfl | ⟨k, Z, rfl⟩⟩ := exists_letters_hole X
  · simp [text]
  · have hdash (base : String) :
        words.contains (text base (letters cs ++ .hole k :: Z)) = false := by
      rw [List.contains_eq_mem, decide_eq_false_iff_not]
      intro hmem
      apply hwords _ hmem
      rw [toList_sketchText, ink_letters_hole]
      simp
    rw [hdash, hdash]

/-- The tag of a token is clean. -/
def TokenSketch.Clean (B : Set String) : TokenSketch → Prop
  | start tag _ _ | stop tag => tag.Clean B
  | text _ | comment _ | doctype => True

/-- An open element in which the base is left open. -/
structure OpenSketch where
  tag : Sketch Empty
  attributes : List AttributeSketch
  children : List TreeSketch

namespace OpenSketch

def ink (base : String) (e : OpenSketch) : OpenElement :=
  ⟨e.tag.text base, AttributeSketch.inkAll base e.attributes, TreeSketch.inkAll base e.children⟩

def weight (e : OpenSketch) : ℕ :=
  e.tag.weight + AttributeSketch.weightAll e.attributes + TreeSketch.weightAll e.children

/-- The element with the children it has so far. -/
def tree (e : OpenSketch) : TreeSketch := .element e.tag e.attributes e.children.reverse

@[simp] theorem ink_tree (base : String) (e : OpenSketch) :
    e.tree.ink base = (e.ink base).tree := by
  rw [tree, TreeSketch.ink, TreeSketch.inkAll_reverse]
  rfl

@[simp] theorem weight_tree (e : OpenSketch) : e.tree.weight = e.weight := by
  rw [tree, TreeSketch.weight, TreeSketch.weightAll_reverse]
  rfl

end OpenSketch

/-- Trees under construction in which the base is left open. -/
structure NestSketch where
  opened : List OpenSketch
  outside : List TreeSketch

namespace NestSketch

def ink (base : String) (n : NestSketch) : Nest :=
  ⟨n.opened.map (OpenSketch.ink base), TreeSketch.inkAll base n.outside⟩

def weight (n : NestSketch) : ℕ :=
  (n.opened.map OpenSketch.weight).sum + TreeSketch.weightAll n.outside

end NestSketch

theorem findIdx?_congr {α : Type} {p q : α → Bool} {as : List α} (h : ∀ a ∈ as, p a = q a) :
    as.findIdx? p = as.findIdx? q := by
  induction as with
  | nil => rfl
  | cons a as ih =>
    rw [List.findIdx?_cons, List.findIdx?_cons, h a List.mem_cons_self,
      ih fun b hb => h b (List.mem_cons_of_mem a hb)]

/-- Whatever the base, the trees under construction are those of one sketch, the tags of which are
clean. -/
structure Nest.Drawn (B : Set String) (f : String → Nest) (w : ℕ) : Prop where
  exists_sketch : ∃ n : NestSketch, (∀ base ∈ B, f base = n.ink base) ∧ n.weight ≤ w ∧
    ∀ e ∈ n.opened, e.tag.Clean B

namespace Nest.Drawn

variable {B : Set String} {f : String → Nest} {w : ℕ}

theorem add (h : Drawn B f w) (t : TreeSketch) :
    Drawn B (fun base => (f base).add (t.ink base)) (w + t.weight) := by
  obtain ⟨⟨opened, outside⟩, hink, hweight, hclean⟩ := h
  simp only [NestSketch.weight] at hweight
  cases opened with
  | nil =>
    refine ⟨⟨[], t :: outside⟩, fun base hbase => ?_, ?_, hclean⟩
    · simp only [hink base hbase]
      rfl
    · simp only [NestSketch.weight, TreeSketch.weightAll]
      omega
  | cons e es =>
    refine ⟨⟨{ e with children := t :: e.children } :: es, outside⟩, fun base hbase => ?_, ?_, ?_⟩
    · simp only [hink base hbase]
      rfl
    · simp only [NestSketch.weight, List.map_cons, List.sum_cons, OpenSketch.weight,
        TreeSketch.weightAll] at hweight ⊢
      omega
    · exact List.forall_mem_cons.2 (List.forall_mem_cons.1 hclean)

theorem close (h : Drawn B f w) (count : ℕ) : Drawn B (fun base => (f base).close count) w := by
  induction count generalizing f with
  | zero => exact h
  | succ count ih =>
    obtain ⟨⟨opened, outside⟩, hink, hweight, hclean⟩ := h
    cases opened with
    | nil =>
      refine ⟨⟨[], outside⟩, fun base hbase => ?_, hweight, hclean⟩
      simp only [hink base hbase]
      rfl
    | cons e es =>
      -- The element is taken off the open ones with its weight, and added as a tree.
      have hrest : Drawn B (NestSketch.ink · ⟨es, outside⟩) (w - e.weight) := by
        refine ⟨_, fun _ _ => rfl, ?_, (List.forall_mem_cons.1 hclean).2⟩
        simp only [NestSketch.weight, List.map_cons, List.sum_cons] at hweight ⊢
        omega
      have hle : e.weight ≤ w := by
        simp only [NestSketch.weight, List.map_cons, List.sum_cons] at hweight
        omega
      have hadd := hrest.add e.tree
      rw [OpenSketch.weight_tree, Nat.sub_add_cancel hle] at hadd
      obtain ⟨n, hn, hweight', hclean'⟩ := ih hadd
      refine ⟨n, fun base hbase => ?_, hweight', hclean'⟩
      rw [← hn base hbase]
      simp only [hink base hbase, OpenSketch.ink_tree]
      rfl

theorem openElement (h : Drawn B f w) {X : Sketch Empty} (hX : X.Clean B)
    (as : List AttributeSketch) :
    Drawn B (fun base => (f base).openElement (X.text base) (AttributeSketch.inkAll base as))
      (w + (X.weight + AttributeSketch.weightAll as)) := by
  obtain ⟨⟨opened, outside⟩, hink, hweight, hclean⟩ := h
  refine ⟨⟨⟨X, as, []⟩ :: opened, outside⟩, fun base hbase => ?_, ?_,
    List.forall_mem_cons.2 ⟨hX, hclean⟩⟩
  · simp only [hink base hbase]
    rfl
  · simp only [NestSketch.weight, List.map_cons, List.sum_cons, OpenSketch.weight,
      TreeSketch.weightAll] at hweight ⊢
    omega

variable (hB : ∀ base ∈ B, IsBase base)

include hB

theorem closeBefore (h : Drawn B f w) {X : Sketch Empty} (hX : X.Clean B) :
    Drawn B (fun base => (f base).closeBefore (X.text base)) w := by
  obtain ⟨n, hink, hweight, hclean⟩ := h
  have hends (base : String) (hbase : base ∈ B) :
      ((f base).opened.head?.map OpenElement.tag == some (X.text base)) =
        decide (n.opened.head?.map OpenSketch.tag = some X) := by
    rw [hink base hbase, Bool.beq_eq_decide_eq, decide_eq_decide]
    cases hopened : n.opened with
    | nil => simp [NestSketch.ink, hopened]
    | cons e es =>
      have he : e.tag.Clean B := hclean e (by simp [hopened])
      simpa [NestSketch.ink, hopened, OpenSketch.ink] using he.text_eq_text_iff hB hX hbase
  have hself (base : String) :
      selfEndingTags.contains (X.text base) = selfEndingTags.contains (X.text "") :=
    contains_text (by decide) X base
  by_cases hcloses : selfEndingTags.contains (X.text "") = true ∧
      n.opened.head?.map OpenSketch.tag = some X
  · obtain ⟨n', hn', hrest⟩ := close (f := f) ⟨n, hink, hweight, hclean⟩ 1
    refine ⟨n', fun base hbase => ?_, hrest⟩
    rw [Nest.closeBefore, hself, hends base hbase, ← hn' base hbase,
      if_pos (by simpa using hcloses)]
  · refine ⟨n, fun base hbase => ?_, hweight, hclean⟩
    rw [Nest.closeBefore, hself, hends base hbase, hink base hbase,
      if_neg (by simpa using hcloses)]

theorem take (h : Drawn B f w) {t : TokenSketch} (ht : t.Clean B) :
    Drawn B (fun base => (f base).take (t.ink base)) (w + t.weight) := by
  cases t with
  | text data => exact h.add (.text data)
  | comment data => exact h.add (.comment data)
  | doctype => exact h
  | start tag as selfClosing =>
    have hbefore := h.closeBefore hB ht
    have hvoid (base : String) : isVoidTag (tag.text base) = isVoidTag (tag.text "") :=
      contains_text (by decide) tag base
    by_cases hleaf : (selfClosing || isVoidTag (tag.text "")) = true
    · obtain ⟨n, hink, hrest⟩ := hbefore.add (.element tag as [])
      refine ⟨n, fun base hbase => ?_, hrest⟩
      rw [← hink base hbase, TokenSketch.ink, Nest.take, hvoid, if_pos hleaf]
      rfl
    · obtain ⟨n, hink, hrest⟩ := hbefore.openElement ht as
      refine ⟨n, fun base hbase => ?_, hrest⟩
      rw [← hink base hbase, TokenSketch.ink, Nest.take, hvoid, if_neg hleaf]
  | stop tag =>
    obtain ⟨n, hink, hweight, hclean⟩ := h
    have hfind (base : String) (hbase : base ∈ B) :
        (f base).opened.findIdx? (·.tag == tag.text base) = n.opened.findIdx? (·.tag == tag) := by
      rw [hink base hbase, NestSketch.ink, List.findIdx?_map]
      refine findIdx?_congr fun e he => ?_
      rw [Bool.beq_eq_decide_eq, Function.comp_apply, Bool.beq_eq_decide_eq, decide_eq_decide]
      exact (hclean e he).text_eq_text_iff hB ht hbase
    have hdrawn : Drawn B f (w + tag.weight) :=
      ⟨n, hink, hweight.trans (Nat.le_add_right w _), hclean⟩
    cases hfound : n.opened.findIdx? (·.tag == tag) with
    | none =>
      refine ⟨n, fun base hbase => ?_, hweight.trans (Nat.le_add_right w _), hclean⟩
      rw [TokenSketch.ink, Nest.take, hfind base hbase, hfound, hink base hbase]
    | some i =>
      obtain ⟨n', hink', hrest⟩ := hdrawn.close (i + 1)
      refine ⟨n', fun base hbase => ?_, hrest⟩
      rw [← hink' base hbase, TokenSketch.ink, Nest.take, hfind base hbase, hfound]

theorem takeAll (h : Drawn B f w) {ts : List TokenSketch} (hts : ∀ t ∈ ts, t.Clean B) :
    Drawn B (fun base => (ts.map (TokenSketch.ink base)).foldl Nest.take (f base))
      (w + TokenSketch.weightAll ts) := by
  induction ts generalizing f w with
  | nil => exact h
  | cons t ts ih =>
    obtain ⟨ht, hts⟩ := List.forall_mem_cons.1 hts
    have hrest := ih (h.take hB ht) hts
    rwa [Nat.add_assoc] at hrest

omit hB in
theorem exists_trees (h : Drawn B f w) : ∃ ts : List TreeSketch,
    (∀ base ∈ B, (f base).trees = TreeSketch.inkAll base ts) ∧ TreeSketch.weightAll ts ≤ w := by
  obtain ⟨n, hink, hweight, hclean⟩ := h
  obtain ⟨n', hink', hweight', -⟩ := close (f := f) ⟨n, hink, hweight, hclean⟩ n.opened.length
  refine ⟨n'.outside.reverse, fun base hbase => ?_, ?_⟩
  · have hlength : (f base).opened.length = n.opened.length := by
      rw [hink base hbase, NestSketch.ink, List.length_map]
    rw [Nest.trees, hlength, hink' base hbase, TreeSketch.inkAll_reverse]
    rfl
  · rw [TreeSketch.weightAll_reverse]
    exact (Nat.le_add_left _ _).trans hweight'

end Nest.Drawn

/-! ### Joining texts -/

namespace TreeSketch

variable {B : Set String}

theorem exists_joinText (hB : ∀ base ∈ B, IsBase base) (t : TreeSketch) (ts : List TreeSketch) :
    ∃ us : List TreeSketch,
      (∀ base ∈ B, Tree.joinText (t.ink base) (inkAll base ts) = inkAll base us) ∧
      weightAll us = t.weight + weightAll ts := by
  cases t with
  | element | comment => exact ⟨_ :: ts, fun _ _ => rfl, rfl⟩
  | text X =>
    have hone : (∀ Y us, ts ≠ text Y :: us) → ∃ us : List TreeSketch,
        (∀ base ∈ B, Tree.joinText (ink base (text X)) (inkAll base ts) = inkAll base us) ∧
          weightAll us = X.weight + weightAll ts := by
      intro hts
      have hjoin (base : String) : Tree.joinText (ink base (text X)) (inkAll base ts) =
          if (X.text base).isEmpty then inkAll base ts else inkAll base (text X :: ts) := by
        cases ts with
        | nil => rfl
        | cons u us =>
          cases u with
          | text Y => exact absurd rfl (hts Y us)
          | element | comment => rfl
      by_cases hX : X = []
      · refine ⟨ts, fun base hbase => ?_, by simp [hX]⟩
        rw [hjoin, if_pos ((isEmpty_text (hB base hbase)).2 hX)]
      · refine ⟨text X :: ts, fun base hbase => ?_, rfl⟩
        rw [hjoin, if_neg (mt (isEmpty_text (hB base hbase)).1 hX)]
    cases ts with
    | nil => exact hone (by simp)
    | cons u us =>
      cases u with
      | element | comment => exact hone (by simp)
      | text Y =>
        refine ⟨text (X ++ Y) :: us, fun base _ => ?_, ?_⟩
        · simp [inkAll, ink, Tree.joinText, Sketch.text, String.ofList_append]
        · simp [weightAll, weight, Nat.add_assoc]

mutual

theorem exists_joined (hB : ∀ base ∈ B, IsBase base) (t : TreeSketch) : ∃ u : TreeSketch,
    (∀ base ∈ B, (t.ink base).joined = u.ink base) ∧ u.weight = t.weight := by
  cases t with
  | text | comment => exact ⟨_, fun _ _ => rfl, rfl⟩
  | element tag as cs =>
    obtain ⟨ds, hink, hweight⟩ := exists_joinedAll hB cs
    refine ⟨element tag as ds, fun base hbase => ?_, by rw [weight, weight, hweight]⟩
    rw [ink, Tree.joined, hink base hbase, ink]

theorem exists_joinedAll (hB : ∀ base ∈ B, IsBase base) (ts : List TreeSketch) :
    ∃ us : List TreeSketch,
      (∀ base ∈ B, Tree.joinedAll (inkAll base ts) = inkAll base us) ∧
      weightAll us = weightAll ts := by
  cases ts with
  | nil => exact ⟨[], fun _ _ => rfl, rfl⟩
  | cons t ts =>
    obtain ⟨u, hu, hweight⟩ := exists_joined hB t
    obtain ⟨us, hus, hweights⟩ := exists_joinedAll hB ts
    obtain ⟨vs, hvs, hjoined⟩ := exists_joinText hB u us
    refine ⟨vs, fun base hbase => ?_, by rw [hjoined, hweight, hweights, weightAll]⟩
    rw [inkAll, Tree.joinedAll, hu base hbase, hus base hbase, hvs base hbase]

end

end TreeSketch

/-! ### The trees of a template -/

/-- The tag of the token, if it has one, has no marker of the base in it. -/
def Token.Lacks (base : String) : Token → Prop
  | start tag _ _ | stop tag => Marker.Absent base tag.toList
  | text _ | comment _ | doctype => True

/-- The trees of a template in which the base is left open. -/
theorem Template.exists_trees {B : Set String} (hB : ∀ base ∈ B, IsBase base)
    {segments : List String}
    (hfraction : EndsInFraction segments →
      (∀ base ∈ B, CompletesFraction base) ∨ ∀ base ∈ B, ¬ CompletesFraction base)
    (htags : ∀ base ∈ B, ∃ other ∈ B, ∀ t ∈ Token.ofMarkup (source other segments), t.Lacks base) :
    ∃ ts : List TreeSketch,
      (∀ base ∈ B, Tree.ofMarkup (source base segments) = TreeSketch.inkAll base ts) ∧
      TreeSketch.weightAll ts ≤ holeCount segments := by
  obtain ⟨tokens, htokens, hweight⟩ := exists_tokens hB hfraction
  have hclean : ∀ t ∈ tokens, t.Clean B := by
    intro t ht
    have hlacks (base : String) (hbase : base ∈ B) : ∃ other ∈ B, (t.ink other).Lacks base := by
      obtain ⟨other, hother, hlacks⟩ := htags base hbase
      rw [htokens other hother] at hlacks
      exact ⟨other, hother, hlacks _ (List.mem_map_of_mem ht)⟩
    cases t with
    | text | comment | doctype => trivial
    | start tag | stop tag =>
      intro base hbase
      obtain ⟨other, hother, habsent⟩ := hlacks base hbase
      exact ⟨other, hother, by rwa [TokenSketch.ink, Token.Lacks, toList_sketchText] at habsent⟩
  have hempty : Nest.Drawn B (fun _ => .empty) 0 :=
    ⟨⟨[], []⟩, fun _ _ => rfl, le_rfl, by simp⟩
  obtain ⟨trees, htrees, hle⟩ := (hempty.takeAll hB hclean).exists_trees
  obtain ⟨joined, hjoined, hjoinedWeight⟩ := TreeSketch.exists_joinedAll hB trees
  refine ⟨joined, fun base hbase => ?_, by omega⟩
  rw [Tree.ofMarkup, htokens base hbase, Tree.ofTokens, htrees base hbase, hjoined base hbase]

end LiveMarkup
