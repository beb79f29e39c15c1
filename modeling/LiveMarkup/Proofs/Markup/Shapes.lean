import LiveMarkup.Page.Command
import LiveMarkup.Proofs.Forest.Addresses
import LiveMarkup.Proofs.Markup.Parsed
import LiveMarkup.Proofs.Text.ByteOrder

/-!
# The shape of what is read

Whatever markup is read, its trees are nested as markup nests them (`Tree.Nested`): void elements
are empty, a list item, an option or a paragraph does not stand right inside one of its tag, and the
attributes of an element are in the order of the bytes of their names, no two of one name.  The
trees under construction keep this shape together with the stack of open elements
(`Nest.Nested.take`): a start tag that would open an element right inside one of its tag closes that
one first, and there is no other of that tag right outside of it.

Joining texts keeps the shape, and leaves no text empty or next to another (`Tree.Separate`).  So a
fragment that is parsed has this shape, and no node of it but texts that have been joined to others
is left outside (`Forest.shaped_parse`).
-/

namespace LiveMarkup

namespace Tree

/-! ### Nested trees -/

mutual

/-- Void elements are empty, no element of a tag that ends itself stands right inside one of its
tag, and attributes are in the order of the bytes of their names. -/
def Nested : Tree → Prop
  | element tag attributes children =>
    (isVoidTag tag = true → children = []) ∧
      (tag ∈ selfEndingTags → ∀ c ∈ children, c.tag? ≠ some tag) ∧
      attributes.Pairwise (fun a b => bytes a.name < bytes b.name) ∧ NestedAll children
  | text _ => True
  | comment _ => True

/-- All trees are nested as markup nests them. -/
def NestedAll : List Tree → Prop
  | [] => True
  | t :: ts => t.Nested ∧ NestedAll ts

end

theorem nestedAll_iff {ts : List Tree} : NestedAll ts ↔ ∀ t ∈ ts, t.Nested := by
  induction ts with
  | nil => simp [NestedAll]
  | cons t ts ih => simp [NestedAll, ih]

/-! ### Separate texts -/

mutual

/-- No text below a tree is empty or right after another. -/
def Separate : Tree → Prop
  | element _ _ children => SeparateAll children
  | text data => data ≠ ""
  | comment _ => True

/-- No text among siblings or below them is empty or right after another. -/
def SeparateAll : List Tree → Prop
  | [] => True
  | t :: ts =>
    t.Separate ∧ (t.isText = true → ∀ u ∈ ts.head?, u.isText = false) ∧ SeparateAll ts

end

/-! ### Joining texts -/

theorem tag?_joined (t : Tree) : t.joined.tag? = t.tag? := by
  cases t <;> rfl

/-- What joining leaves is text or one of the trees, joined inside. -/
theorem mem_joinedAll {t : Tree} {ts : List Tree} (h : t ∈ joinedAll ts) :
    t.isText = true ∨ ∃ u ∈ ts, t = u.joined := by
  induction ts with
  | nil => cases h
  | cons u us ih =>
    have hrest : t ∈ joinedAll us → t.isText = true ∨ ∃ v ∈ u :: us, t = v.joined := fun hin =>
      (ih hin).imp id fun ⟨v, hv, e⟩ => ⟨v, List.mem_cons_of_mem u hv, e⟩
    rw [joinedAll] at h
    unfold joinText at h
    split at h
    · next heq =>
      rcases List.mem_cons.1 h with rfl | hin
      · exact Or.inl rfl
      · exact hrest (heq ▸ List.mem_cons_of_mem _ hin)
    · split_ifs at h
      · exact hrest h
      · rcases List.mem_cons.1 h with rfl | hin
        · exact Or.inl rfl
        · exact hrest hin
    · rcases List.mem_cons.1 h with rfl | hin
      · exact Or.inr ⟨u, List.mem_cons_self, rfl⟩
      · exact hrest hin

mutual

/-- Joining texts keeps elements nested. -/
theorem nested_joined {t : Tree} (h : t.Nested) : t.joined.Nested := by
  cases t with
  | text data | comment data => trivial
  | element tag attributes children =>
    obtain ⟨hvoid, hself, hsorted, hchildren⟩ := h
    refine ⟨fun hv => ?_, fun htag c hc => ?_, hsorted, nestedAll_joinedAll hchildren⟩
    · rw [hvoid hv]
      rfl
    · rcases mem_joinedAll hc with htext | ⟨u, hu, rfl⟩
      · cases c with
        | text data => simp [tag?]
        | element | comment => cases htext
      · rw [tag?_joined]
        exact hself htag u hu

theorem nestedAll_joinedAll {ts : List Tree} (h : NestedAll ts) : NestedAll (joinedAll ts) := by
  cases ts with
  | nil => trivial
  | cons t ts =>
    have ht := nested_joined h.1
    have hts := nestedAll_joinedAll h.2
    rw [joinedAll]
    unfold joinText
    split
    · next heq =>
      rw [heq] at hts
      exact ⟨trivial, hts.2⟩
    · split_ifs
      · exact hts
      · exact ⟨trivial, hts⟩
    · exact ⟨ht, hts⟩

end

/-- A text in front of separate siblings that do not begin with one. -/
theorem separateAll_text (data : String) {ts : List Tree} (hts : SeparateAll ts)
    (hhead : ∀ u ∈ ts.head?, u.isText = false) :
    SeparateAll (if data.isEmpty then ts else text data :: ts) := by
  split_ifs with hempty
  · exact hts
  · exact ⟨fun e => hempty (by simp [e]), fun _ => hhead, hts⟩

/-- A tree in front of separate siblings. -/
theorem separateAll_joinText {t : Tree} {ts : List Tree} (ht : t.isText = true ∨ t.Separate)
    (hts : SeparateAll ts) : SeparateAll (joinText t ts) := by
  cases t with
  | element | comment =>
    exact ⟨ht.resolve_left (by simp [isText]), by simp [isText], hts⟩
  | text a =>
    cases ts with
    | nil => exact separateAll_text a hts (by simp)
    | cons u us =>
      cases u with
      | element | comment => exact separateAll_text a hts (by simp [isText])
      | text b =>
        obtain ⟨hdata, hnext, hrest⟩ := hts
        exact ⟨fun e => hdata (String.append_eq_empty_iff.1 e).2, hnext, hrest⟩

mutual

/-- Joined texts are separate. -/
theorem separate_joined (t : Tree) : t.joined.isText = true ∨ t.joined.Separate := by
  cases t with
  | text data => exact Or.inl rfl
  | comment data => exact Or.inr trivial
  | element tag attributes children => exact Or.inr (separateAll_joinedAll children)

theorem separateAll_joinedAll (ts : List Tree) : SeparateAll (joinedAll ts) := by
  cases ts with
  | nil => trivial
  | cons t ts => exact separateAll_joinText (separate_joined t) (separateAll_joinedAll ts)

end

end Tree

/-! ### Nesting tokens -/

/-- A start tag with attributes in the order of the bytes of their names. -/
def Token.Ordered : Token → Prop
  | start _ attributes _ => attributes.Pairwise (fun a b => bytes a.name < bytes b.name)
  | stop _ | text _ | comment _ | doctype => True

theorem Token.Sorted.ordered {t : Token} (h : t.Sorted) : t.Ordered := by
  cases t with
  | start tag attributes selfClosing => exact h.sorted.imp bytes_lt_bytes
  | stop tag | text data | comment data | doctype => trivial

/-- An element that is open can hold what it holds. -/
structure OpenElement.Nested (e : OpenElement) : Prop where
  notVoid : isVoidTag e.tag = false
  ordered : e.attributes.Pairwise (fun a b => bytes a.name < bytes b.name)
  self : e.tag ∈ selfEndingTags → ∀ c ∈ e.children, c.tag? ≠ some e.tag
  children : Tree.NestedAll e.children

theorem OpenElement.Nested.tree {e : OpenElement} (h : e.Nested) : e.tree.Nested := by
  refine ⟨fun hv => absurd hv (by simp [h.notVoid]), fun htag c hc => ?_, h.ordered, ?_⟩
  · exact h.self htag c (List.mem_reverse.1 hc)
  · exact Tree.nestedAll_iff.2 fun c hc => Tree.nestedAll_iff.1 h.children c (List.mem_reverse.1 hc)

/-- An element with the tag `tag` may be added right inside the innermost of the open elements. -/
def OpenElement.Admits (es : List OpenElement) (tag : String) : Prop :=
  tag ∈ selfEndingTags → es.head?.map OpenElement.tag ≠ some tag

namespace Nest

/-- Trees under construction are nested as markup nests them, and so are the open elements in each
other. -/
structure Nested (n : Nest) : Prop where
  opened : ∀ e ∈ n.opened, e.Nested
  chain : ∀ e es, e :: es <:+ n.opened → OpenElement.Admits es e.tag
  outside : Tree.NestedAll n.outside

variable {n : Nest}

theorem nested_empty : Nested empty :=
  ⟨by simp [empty], fun e es h => by simp [empty] at h, trivial⟩

/-- A nested tree is added where its tag is admitted. -/
theorem Nested.add (h : n.Nested) {t : Tree} (ht : t.Nested)
    (htag : ∀ tag ∈ t.tag?, OpenElement.Admits n.opened tag) : (n.add t).Nested := by
  obtain ⟨_ | ⟨e, es⟩, outside⟩ := n
  · exact ⟨h.opened, h.chain, ht, h.outside⟩
  · obtain ⟨he, hes⟩ := List.forall_mem_cons.1 h.opened
    have he' : OpenElement.Nested { e with children := t :: e.children } := by
      refine ⟨he.notVoid, he.ordered, fun hself c hc => ?_, ht, he.children⟩
      rcases List.mem_cons.1 hc with rfl | hc
      · exact fun heq => htag e.tag heq hself rfl
      · exact he.self hself c hc
    refine ⟨List.forall_mem_cons.2 ⟨he', hes⟩, fun e' es' hsuffix => ?_, h.outside⟩
    rcases List.suffix_cons_iff.1 hsuffix with heq | hsuffix
    · obtain ⟨rfl, rfl⟩ := List.cons.inj heq
      exact h.chain e es' (List.suffix_refl _)
    · exact h.chain e' es' (hsuffix.trans (List.suffix_cons e es))

/-- The innermost element is closed where it stands. -/
theorem Nested.close (h : n.Nested) (count : ℕ) : (n.close count).Nested := by
  induction count generalizing n with
  | zero => exact h
  | succ count ih =>
    obtain ⟨_ | ⟨e, es⟩, outside⟩ := n
    · exact h
    · obtain ⟨he, hes⟩ := List.forall_mem_cons.1 h.opened
      have hrest : Nested ⟨es, outside⟩ :=
        ⟨hes, fun e' es' hs => h.chain e' es' (hs.trans (List.suffix_cons e es)), h.outside⟩
      refine ih (hrest.add he.tree fun tag htag => ?_)
      obtain rfl : e.tag = tag := Option.some.inj htag
      exact h.chain e es (List.suffix_refl _)

/-- After what a start tag ends has been closed, its element is admitted: no other element of its
tag stands right outside of the one that has been closed. -/
theorem Nested.admits_closeBefore (h : n.Nested) (tag : String) :
    OpenElement.Admits (n.closeBefore tag).opened tag := by
  intro hself
  unfold closeBefore
  split_ifs with hends
  · obtain ⟨_ | ⟨e, es⟩, outside⟩ := n
    · simp at hends
    · obtain rfl : e.tag = tag := by simpa using (Bool.and_eq_true_iff.1 hends).2
      have hadmits := h.chain e es (List.suffix_refl _) hself
      rwa [← head_add ⟨es, outside⟩ e.tree] at hadmits
  · simpa [hself] using hends

theorem Nested.closeBefore (h : n.Nested) (tag : String) : (n.closeBefore tag).Nested := by
  unfold Nest.closeBefore
  split_ifs
  · exact h.close 1
  · exact h

/-- An element is opened where its tag is admitted. -/
theorem Nested.openElement (h : n.Nested) {tag : String} {as : List Attribute}
    (hv : isVoidTag tag = false)
    (has : as.Pairwise (fun a b => bytes a.name < bytes b.name))
    (htag : OpenElement.Admits n.opened tag) : (n.openElement tag as).Nested := by
  refine ⟨List.forall_mem_cons.2 ⟨⟨hv, has, by simp, trivial⟩, h.opened⟩, fun e es hs => ?_,
    h.outside⟩
  rcases List.suffix_cons_iff.1 hs with heq | hs
  · obtain ⟨rfl, rfl⟩ := List.cons.inj heq
    exact htag
  · exact h.chain e es hs

/-- Every token keeps the shape. -/
theorem Nested.take (h : n.Nested) {t : Token} (ht : t.Ordered) : (n.take t).Nested := by
  cases t with
  | doctype => exact h
  | text data => exact h.add (t := .text data) trivial (by simp [Tree.tag?])
  | comment data => exact h.add (t := .comment data) trivial (by simp [Tree.tag?])
  | stop tag =>
    simp only [Nest.take]
    split
    · exact h.close _
    · exact h
  | start tag as selfClosing =>
    have hbefore := h.closeBefore tag
    have hadmits := h.admits_closeBefore tag
    simp only [Nest.take]
    split_ifs with hclosed
    · refine hbefore.add ⟨fun _ => rfl, by simp, ht, trivial⟩ fun tag' htag' => ?_
      obtain rfl : tag = tag' := Option.some.inj htag'
      exact hadmits
    · have hv : isVoidTag tag = false := by simp_all
      exact hbefore.openElement hv ht hadmits

end Nest

namespace Tree

/-- The trees that tokens describe are nested as markup nests them. -/
theorem nestedAll_ofTokens {ts : List Token} (h : ∀ t ∈ ts, t.Ordered) :
    NestedAll (ofTokens ts) := by
  have hfold : ∀ {n : Nest}, n.Nested → (ts.foldl Nest.take n).Nested := by
    induction ts with
    | nil => exact id
    | cons t ts ih =>
      obtain ⟨ht, hts⟩ := List.forall_mem_cons.1 h
      exact fun hn => ih hts (hn.take ht)
  have hclosed := (hfold Nest.nested_empty).close (ts.foldl Nest.take .empty).opened.length
  exact nestedAll_iff.2 fun t ht =>
    nestedAll_iff.1 hclosed.outside t (List.mem_reverse.1 ht)

/-- Trees that are nested as markup nests them, with separate texts. -/
structure Shaped (ts : List Tree) : Prop where
  nested : NestedAll ts
  separate : SeparateAll ts

/-- The trees that tokens describe have the shape of markup when their texts are joined. -/
theorem shaped_ofTokens {ts : List Token} (h : ∀ t ∈ ts, t.Ordered) :
    Shaped (joinedAll (ofTokens ts)) :=
  ⟨nestedAll_joinedAll (nestedAll_ofTokens h), separateAll_joinedAll _⟩

/-- The trees that markup describes have the shape of markup. -/
theorem shaped_ofMarkup (markup : String) : Shaped (ofMarkup markup) :=
  shaped_ofTokens fun t ht => (Token.sorted_ofMarkup markup t ht).ordered

end Tree

namespace Labelled

variable {α : Type}

/-! ### What joining texts leaves in place -/

mutual

/-- The labels of a tree without those of texts. -/
def standing : Labelled α → List α
  | element l _ as cs => l :: as.map Prod.fst ++ standingAll cs
  | text _ _ => []
  | comment l _ => [l]

/-- The labels of several trees without those of texts. -/
def standingAll : List (Labelled α) → List α
  | [] => []
  | L :: Ls => L.standing ++ standingAll Ls

end

theorem standingAll_joinText (L : Labelled α) (Ls : List (Labelled α)) :
    standingAll (joinText L Ls) = L.standing ++ standingAll Ls := by
  unfold joinText
  split
  · rfl
  · split_ifs <;> rfl
  · rfl

mutual

theorem standing_joined (L : Labelled α) : L.joined.standing = L.standing := by
  cases L with
  | text l s | comment l s => rfl
  | element l tag as cs => rw [joined, standing, standing, standingAll_joinedAll cs]

/-- Joining texts leaves everything else where it is. -/
theorem standingAll_joinedAll (Ls : List (Labelled α)) :
    standingAll (joinedAll Ls) = standingAll Ls := by
  cases Ls with
  | nil => rfl
  | cons L Ls =>
    rw [joinedAll, standingAll_joinText, standing_joined L, standingAll_joinedAll Ls, standingAll]

end

mutual

theorem standing_subset_labels (L : Labelled α) : L.standing ⊆ L.labels := by
  cases L with
  | text l s => exact List.nil_subset _
  | comment l s => exact List.Subset.refl _
  | element l tag as cs =>
    exact List.append_subset.2 ⟨List.subset_append_left _ _,
      List.Subset.trans (standingAll_subset_labelsAll cs) (List.subset_append_right _ _)⟩

theorem standingAll_subset_labelsAll (Ls : List (Labelled α)) : standingAll Ls ⊆ labelsAll Ls := by
  cases Ls with
  | nil => exact List.nil_subset _
  | cons L Ls =>
    exact List.append_subset.2
      ⟨List.Subset.trans (standing_subset_labels L) (List.subset_append_left _ _),
        List.Subset.trans (standingAll_subset_labelsAll Ls) (List.subset_append_right _ _)⟩

end

end Labelled

namespace Forest

variable {α : Type} {f : Forest} {ι : α → NodeId} {q : Option NodeId}

mutual

/-- A node of a layout that is no text keeps its place when texts are joined. -/
theorem Holds.standing {q : Option NodeId} {L : Labelled α} (h : Holds f ι q L) {l : α}
    (hl : l ∈ L.labels) (hk : f.kind (ι l) ≠ .text) : l ∈ L.standing := by
  cases L with
  | text m s =>
    obtain rfl : l = m := by simpa [Labelled.labels] using hl
    exact absurd h.kind_eq hk
  | comment m s => exact hl
  | element m tag as cs =>
    rcases List.mem_append.1 hl with hl | hl
    · exact List.mem_append_left _ hl
    · exact List.mem_append_right _ (HoldsAll.standing h.2.2 hl hk)

theorem HoldsAll.standing {q : Option NodeId} {Ls : List (Labelled α)} (h : HoldsAll f ι q Ls)
    {l : α} (hl : l ∈ Labelled.labelsAll Ls) (hk : f.kind (ι l) ≠ .text) :
    l ∈ Labelled.standingAll Ls := by
  cases Ls with
  | nil => cases hl
  | cons L Ls =>
    rcases List.mem_append.1 hl with hl | hl
    · exact List.mem_append_left _ (Holds.standing h.1 hl hk)
    · exact List.mem_append_right _ (HoldsAll.standing h.2 hl hk)

end

theorem kind_joinSiblings {deeper : Forest → NodeId → Forest}
    (hdeeper : ∀ (f : Forest) (n m : NodeId), (deeper f n).kind m = f.kind m) (f : Forest)
    (ns : List NodeId) (m : NodeId) : (joinSiblings deeper f ns).kind m = f.kind m := by
  have habsorb : ∀ (f : Forest) (n : NodeId) (rest : List NodeId),
      (f.absorb n rest).2.kind m = f.kind m := by
    intro f n rest
    induction rest generalizing f with
    | nil => rfl
    | cons k rest ih =>
      rw [Forest.absorb]
      split_ifs
      · exact (ih _).trans (by simp)
      · rfl
  fun_induction Forest.joinSiblings deeper f ns with
  | case1 => rfl
  | case2 f n ns _ joined ih =>
    refine Eq.trans ih ?_
    split_ifs
    · exact (kind_detach ..).trans (habsorb f n ns)
    · exact habsorb f n ns
  | case3 f n ns _ ih => exact ih.trans (hdeeper f n m)

/-- Joining texts changes no kind. -/
theorem kind_normalize (f : Forest) (n m : NodeId) : (f.normalize n).kind m = f.kind m := by
  unfold Forest.normalize
  generalize f.size + 1 = fuel
  induction fuel generalizing f n m with
  | zero => rfl
  | succ fuel ih => exact kind_joinSiblings (fun f n m => ih f n m) f (f.children n) m

/-- Every node below a planted fragment has a label. -/
theorem exists_label_plantFragment (f : Forest) (Ls : List (Labelled α)) {n : NodeId}
    (hgt : f.size < n) (hlt : n < (f.plantFragment (Labelled.trees Ls)).2.size) :
    ∃ l ∈ Labelled.labelsAll (Labelled.numberedAll (f.size + 1) Ls), l.1 = n := by
  rw [← List.mem_map, Labelled.fst_labelsAll_numbered, List.mem_range'_1]
  rw [size_plantFragment] at hlt
  exact ⟨hgt, hlt⟩

/-- All nodes that are planted as a fragment lie in it. -/
theorem inside_plantFragment (f : Forest) (ts : List Tree) {n : NodeId} (hle : f.size ≤ n)
    (hlt : n < (f.plantFragment ts).2.size) : (f.plantFragment ts).2.Inside f.size n := by
  obtain ⟨Ls, rfl⟩ := exists_trees_eq ts
  obtain ⟨-, -, -, -, hlayout⟩ := f.holdsBelow_plantFragment Ls
  rcases Nat.eq_or_lt_of_le hle with rfl | hgt
  · exact Or.inl (Above.refl _)
  · obtain ⟨l, hl, rfl⟩ := exists_label_plantFragment f Ls hgt hlt
    exact hlayout.holds.inside l hl

/-- Of these nodes, all but texts lie in the fragment after its texts have been joined. -/
theorem inside_normalize_plantFragment (f : Forest) (ts : List Tree) {n : NodeId}
    (hle : f.size ≤ n) (hlt : n < (f.plantFragment ts).2.size)
    (hk : (f.plantFragment ts).2.kind n ≠ .text) :
    ((f.plantFragment ts).2.normalize f.size).Inside f.size n := by
  obtain ⟨Ls, rfl⟩ := exists_trees_eq ts
  obtain ⟨-, -, -, -, hlayout⟩ := f.holdsBelow_plantFragment Ls
  have hnodup := Labelled.nodup_cons_labels_numberedAll f.size Ls
  rcases Nat.eq_or_lt_of_le hle with rfl | hgt
  · exact Or.inl (Above.refl _)
  · obtain ⟨l, hl, rfl⟩ := exists_label_plantFragment f Ls hgt hlt
    have hstanding := hlayout.holds.standing hl hk
    rw [← Labelled.standingAll_joinedAll] at hstanding
    exact (hlayout.normalize hnodup).1.holds.inside l
      (Labelled.standingAll_subset_labelsAll _ hstanding)

theorem fst_plantFragment (f : Forest) (ts : List Tree) : (f.plantFragment ts).1 = f.size := rfl

/-- The nodes of a fragment whose texts have been joined are those that were there before. -/
theorem size_normalize_plantFragment (f : Forest) (ts : List Tree) :
    ((f.plantFragment ts).2.normalize f.size).size = (f.plantFragment ts).2.size := by
  obtain ⟨Ls, rfl⟩ := exists_trees_eq ts
  obtain ⟨-, -, -, -, hlayout⟩ := f.holdsBelow_plantFragment Ls
  exact (hlayout.normalize (Labelled.nodup_cons_labels_numberedAll f.size Ls)).2.size_eq

/-- The command that parses plants the trees of the markup. -/
theorem on_parse (p : Page) (markup : String) (as : Option String) (brief : Bool) :
    ∃ reply q, (PageAction.ofCommand (.parse markup as brief)).on p = (.ok reply, q) ∧
      q.forest = (p.forest.plantFragment (Tree.ofMarkup markup)).2 := by
  rw [PageAction.ofCommand]
  generalize Tree.ofMarkup markup = ts
  cases brief <;> exact ⟨_, _, rfl, rfl⟩

/-- Whatever markup is parsed, parsing succeeds and the fragment has the shape of markup: void
elements are empty, no list item, option or paragraph stands right inside one of its tag, attributes
are in the order of the bytes of their names, and no text is empty or next to another.  All nodes
that are made lie in the fragment but texts that have been joined to others; and the command that
parses plants a fragment that looks the same, and nothing else. -/
theorem shaped_parse {p : Page} (hp : p.forest.Sound) (markup : String) :
    ∃ ts, Tree.Shaped ts ∧
      (∃ g, p.forest.parse markup = .ok (p.forest.size, g) ∧ g.Sound ∧
        g.snapshot p.forest.size = .fragment ts ∧
        ∀ n, p.forest.size ≤ n → n < g.size → g.kind n ≠ .text → g.Inside p.forest.size n) ∧
      ∀ as brief, ∃ reply q,
        (PageAction.ofCommand (.parse markup as brief)).on p = (.ok reply, q) ∧
        q.forest.snapshot p.forest.size = .fragment ts ∧
        ∀ n, p.forest.size ≤ n → n < q.forest.size → q.forest.Inside p.forest.size n := by
  have hshaped := Tree.shaped_ofMarkup markup
  obtain ⟨g, hparse, hsound, hg, hread⟩ := exists_parse hp markup
  have hon := on_parse p markup
  generalize Tree.ofMarkup markup = ts at hshaped hread hon
  refine ⟨ts, hshaped, ⟨g, hparse, hsound, hread, fun n hle hlt hk => ?_⟩,
    fun as brief => ?_⟩
  · subst hg
    rw [kind_normalize] at hk
    rw [size_normalize_plantFragment] at hlt
    exact inside_normalize_plantFragment p.forest _ hle hlt hk
  · obtain ⟨reply, q, hq, hforest⟩ := hon as brief
    have hsnapshot := snapshot_plantFragment p.forest ts
    rw [fst_plantFragment, ← hforest] at hsnapshot
    refine ⟨reply, q, hq, hsnapshot, fun n hle hlt => ?_⟩
    rw [hforest] at hlt ⊢
    exact inside_plantFragment p.forest ts hle hlt

/-- A page is sound at first, whatever it shows. -/
theorem sound_ofMarkup (markup : String) : (Page.ofMarkup markup).forest.Sound := by
  have hbody : ∀ ts, Tree.NamedAll ts → (Forest.empty.plant (.element "body" [] ts)).2.Sound :=
    fun ts hts => Sound.empty.plant _ ⟨by simp, by simp, hts⟩
  exact hbody _ (Tree.namedAll_ofMarkup markup)

/-- Markup with a stray end tag, list items that are not ended, a void element that is, attributes
out of order, and texts around what is dropped. -/
def looseMarkup : String :=
  "<ul><li id=a class=b id=c>One<li>Two</ul></p>x<!doctype html>y<br></br><p>"

/-- Parsing loose markup gives the shape of markup. -/
theorem shaped_parse_looseMarkup :
    Page.fresh.forest.Sound ∧ ∃ ts g, Tree.Shaped ts ∧
      Page.fresh.forest.parse looseMarkup = .ok (Page.fresh.forest.size, g) ∧
      g.snapshot Page.fresh.forest.size = .fragment ts := by
  have hsound : Page.fresh.forest.Sound := sound_ofMarkup Page.shellMarkup
  obtain ⟨ts, hshaped, ⟨g, hparse, -, hsnapshot, -⟩, -⟩ := shaped_parse hsound looseMarkup
  exact ⟨hsound, ts, g, hshaped, hparse, hsnapshot⟩

end Forest

end LiveMarkup
