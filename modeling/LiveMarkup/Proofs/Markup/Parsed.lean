import LiveMarkup.Proofs.Forest.Joining
import LiveMarkup.Proofs.Markup.Drafts
import LiveMarkup.Proofs.Markup.RoundTrip
import LiveMarkup.Proofs.Markup.Tags

/-!
# What a fragment that is read contains

The fragment that is built from tokens has exactly one node for every start tag, every text and
every comment, in the order of the tokens and with what they say, however the tags are nested
(`Forest.rows_build`).  The fragment that is parsed from markup is this one with its texts joined:
it looks like the fragment of `Tree.ofMarkup` (`Forest.exists_parse`), so its text is what the texts
of the markup say.
-/

namespace LiveMarkup

/-- Every tag of markup is read with different names in small letters. -/
theorem Token.named_ofMarkup (markup : String) : ∀ t ∈ ofMarkup markup, t.Named := by
  intro t ht
  have hsorted := sorted_ofMarkup markup t ht
  have hsmall := smallTag_ofMarkup markup t ht
  cases t with
  | start tag attributes selfClosing => exact ⟨hsmall, hsorted.small, hsorted.nodup⟩
  | stop tag | text data | comment data | doctype => trivial

namespace Forest

variable {f : Forest}

/-- A planted fragment whose texts are joined looks like the joined trees. -/
theorem snapshot_normalize_plantFragment (f : Forest) (ts : List Tree) :
    ((f.plantFragment ts).2.normalize f.size).snapshot f.size = .fragment (Tree.joinedAll ts) := by
  obtain ⟨Ls, rfl⟩ := exists_trees_eq ts
  obtain ⟨-, hkind, -, -, hlayout⟩ := f.holdsBelow_plantFragment Ls
  rw [hlayout.snapshot_normalize hkind (Labelled.nodup_cons_labels_numberedAll f.size Ls),
    Labelled.trees_numberedAll]

/-- Parsing markup never fails, and the fragment looks like the trees of the markup. -/
theorem exists_parse (hf : f.Sound) (markup : String) :
    ∃ g, f.parse markup = .ok (f.size, g) ∧ g.Sound ∧
      g = (f.plantFragment (Tree.ofTokens (Token.ofMarkup markup))).2.normalize f.size ∧
      g.snapshot f.size = .fragment (Tree.ofMarkup markup) := by
  have hnamed := Tree.namedAll_ofTokens (Token.sorted_ofMarkup markup)
  have hbuild := build_eq hf (Token.named_ofMarkup markup)
  have hroot : (f.plantFragment (Tree.ofTokens (Token.ofMarkup markup))).1 = f.size := rfl
  refine ⟨_, ?_, (hf.plantFragment hnamed).normalize f.size, rfl,
    snapshot_normalize_plantFragment f _⟩
  rw [parse, hbuild]
  simp only [hroot]

/-- The fragment that is built from tokens lists one node for every start tag, text and comment, in
their order and with what they say; end tags and document types contribute none.  So the text of the
fragment that is parsed from markup is what the texts of the markup say. -/
theorem rows_build (hf : f.Sound) :
    (∀ ts : List Token, (∀ t ∈ ts, t.Named) →
      ∃ g, f.build ts = .ok (f.size, g) ∧ g = (f.plantFragment (Tree.ofTokens ts)).2 ∧
        (g.snapshot f.size).rows.map Row.flat = .fragment 0 :: ts.filterMap Token.row?) ∧
    ∀ markup : String,
      ∃ g, f.parse markup = .ok (f.size, g) ∧
        g.snapshot f.size = (f.plantFragment (Tree.ofMarkup markup)).2.snapshot f.size ∧
        (g.snapshot f.size).text =
          String.join ((Token.ofMarkup markup).filterMap Token.word?) := by
  constructor
  · intro ts hts
    refine ⟨(f.plantFragment (Tree.ofTokens ts)).2, build_eq hf hts, rfl, ?_⟩
    have hsnapshot : (f.plantFragment (Tree.ofTokens ts)).2.snapshot f.size =
        .fragment (Tree.ofTokens ts) := snapshot_plantFragment f _
    rw [hsnapshot, Snapshot.rows, List.map_cons, Tree.map_flat_rowsAll, Tree.outlineAll_ofTokens]
    rfl
  · intro markup
    obtain ⟨g, hparse, -, -, hsnapshot⟩ := exists_parse hf markup
    refine ⟨g, hparse, hsnapshot.trans (snapshot_plantFragment f _).symm, ?_⟩
    rw [hsnapshot]
    exact Tree.innerTexts_ofMarkup markup

/-- Tokens with a stray end tag, a paragraph that is ended by the next one, and elements that are
left open. -/
def looseTokens : List Token :=
  [.start "p" [⟨"class", "a"⟩, ⟨"id", "x"⟩] false, .text "One", .stop "b", .doctype,
    .start "p" [] false, .text "Two", .start "i" [] false, .comment "note", .start "br" [] false,
    .stop "p", .text "Three"]

/-- The nodes of loose tokens stand in their order. -/
theorem rows_build_looseTokens :
    (∀ t ∈ looseTokens, t.Named) ∧
      ∃ g, Forest.empty.build looseTokens = .ok (0, g) ∧
        (g.snapshot 0).rows.map Row.flat = .fragment 0 :: looseTokens.filterMap Token.row? := by
  have hnamed : ∀ t ∈ looseTokens, t.Named := by decide +kernel
  obtain ⟨g, hbuild, -, hrows⟩ := (rows_build Sound.empty).1 looseTokens hnamed
  exact ⟨hnamed, g, hbuild, hrows⟩

end Forest

end LiveMarkup
