import Mathlib.Data.List.Forall2
import LiveMarkup.Proofs.Forest.History
import LiveMarkup.Proofs.Forest.Splicing
import LiveMarkup.Proofs.Markup.Outline

/-!
# Building a fragment node by node

`Forest.build` takes tokens one by one and makes the nodes of a fragment as it goes: it keeps the
stack of the open elements, innermost first, creates each node, sets its attributes, and appends it
to the innermost open element with the operations that check what they are given.  `Forest.parse`
builds markup and joins the texts that stand side by side.

Nothing is ever refused, and the forest is, node for node, the one in which the trees of
`Tree.ofTokens` are planted (`Forest.build_eq`).  The invariant is `Nest.sketch`: the open elements
are the nodes down the right edge of the fragment, each the last child of the one before it, so
that planting an element that is closed comes to the same as having filled it where it stood
(`Forest.plantBelow_linkChild`).
-/

namespace LiveMarkup

/-! ### Drafts -/

/-- A fragment that is being built, with its open elements, innermost first. -/
structure Draft where
  forest : Forest
  root : NodeId
  opened : List NodeId

namespace Forest

/-- Sets attributes one after the other, until one is refused. -/
def setAttrs (f : Forest) (n : NodeId) : List Attribute → Edit Unit
  | [] => (.ok (), f)
  | a :: as =>
    match f.setAttr n a.name a.value with
    | (.ok (), f) => f.setAttrs n as
    | refused => refused

end Forest

namespace Draft

/-- The node that the next one goes to. -/
def current (d : Draft) : NodeId := d.opened.headD d.root

/-- The tag of an element. -/
def tagOf (d : Draft) (n : NodeId) : String := (d.forest.kind n).tag

/-- Closes the innermost open element if a start tag `tag` ends it. -/
def closeBefore (d : Draft) (tag : String) : Draft :=
  if selfEndingTags.contains tag && d.opened.head?.map d.tagOf == some tag then
    { d with opened := d.opened.drop 1 }
  else d

/-- Appends the node `n` of the forest `f` to the current node. -/
def add (d : Draft) (f : Forest) (n : NodeId) : Except Fault Draft :=
  match f.append d.current n with
  | (.ok (), f) => .ok { d with forest := f }
  | (.error fault, _) => .error fault

/-- Creates an element and appends it; it stays open unless it cannot hold anything. -/
def start (d : Draft) (tag : String) (attributes : List Attribute) (selfClosing : Bool) :
    Except Fault Draft :=
  let (n, f) := d.forest.create (.element tag.toLower) ""
  match f.setAttrs n attributes with
  | (.error fault, _) => .error fault
  | (.ok (), f) =>
    match d.add f n with
    | .error fault => .error fault
    | .ok d =>
      .ok (if selfClosing || isVoidTag tag then d else { d with opened := n :: d.opened })

/-- Creates a text or a comment and appends it. -/
def leaf (d : Draft) (kind : Kind) (data : String) : Except Fault Draft :=
  let (n, f) := d.forest.create kind data
  d.add f n

/-- Takes one token. -/
def take (d : Draft) : Token → Except Fault Draft
  | .start tag attributes selfClosing => (d.closeBefore tag).start tag attributes selfClosing
  | .stop tag =>
    match d.opened.findIdx? (d.tagOf · == tag) with
    | some i => .ok { d with opened := d.opened.drop (i + 1) }
    | none => .ok d
  | .text data => d.leaf .text data
  | .comment data => d.leaf .comment data
  | .doctype => .ok d

end Draft

namespace Forest

/-- Builds the fragment that tokens describe. -/
def build (f : Forest) (ts : List Token) : Except Fault (NodeId × Forest) :=
  let (n, f) := f.create .fragment ""
  match ts.foldlM Draft.take ⟨f, n, []⟩ with
  | .ok d => .ok (d.root, d.forest)
  | .error fault => .error fault

/-- Builds the fragment that markup describes and joins its texts. -/
def parse (f : Forest) (markup : String) : Except Fault (NodeId × Forest) :=
  match f.build (Token.ofMarkup markup) with
  | .ok (n, f) => .ok (n, f.normalize n)
  | .error fault => .error fault

/-! ### Linking a node before or after filling it -/

variable {f g : Forest} {m n p c : NodeId}

theorem ext_cell (hs : f.size = g.size) (h : ∀ m, f.cell m = g.cell m) : f = g := by
  obtain ⟨cs⟩ := f
  obtain ⟨ds⟩ := g
  rw [Forest.mk.injEq]
  refine Array.ext hs fun i hi hi' => ?_
  simpa [cell, hi, hi'] using h i

/-- Changing a node and adding another may be done in either order. -/
theorem modify_push {change : Cell → Cell} (hn : n < f.size) (x : Cell) :
    (f.modify n change).push x = (f.push x).modify n change := by
  refine ext_cell (by simp) fun m => ?_
  simp only [cell_push, cell_modify, size_modify, size_push, Nat.lt_succ_of_lt hn, hn, and_true,
    Nat.ne_of_lt hn, if_false]
  by_cases hm : m = n
  · simp [hm, Nat.ne_of_lt hn]
  · simp [hm]

/-- Changes of different nodes, or of different sides of one node, may be made in either order. -/
theorem modify_comm {change change' : Cell → Cell}
    (h : m = n → ∀ x, change (change' x) = change' (change x)) :
    (f.modify m change).modify n change' = (f.modify n change').modify m change := by
  refine ext_cell (by simp) fun k => ?_
  simp only [cell_modify, size_modify]
  by_cases hmn : m = n
  · subst hmn
    by_cases hk : k = m ∧ m < f.size
    · simp [hk, h rfl]
    · simp [hk]
  · by_cases hkm : k = m
    · simp [hkm, hmn]
    · simp [hkm, Ne.symm hmn]

theorem setParent_setParent (f : Forest) (hmn : m ≠ n) (q r : Option NodeId) :
    (f.setParent m q).setParent n r = (f.setParent n r).setParent m q :=
  modify_comm fun e => absurd e hmn

theorem setChildren_setChildren (f : Forest) (hmn : m ≠ n) (as bs : List NodeId → List NodeId) :
    (f.setChildren m as).setChildren n bs = (f.setChildren n bs).setChildren m as :=
  modify_comm fun e => absurd e hmn

theorem setChildren_setParent (f : Forest) (m n : NodeId) (as : List NodeId → List NodeId)
    (q : Option NodeId) :
    (f.setChildren m as).setParent n q = (f.setParent n q).setChildren m as :=
  modify_comm fun _ _ => rfl

theorem setParent_setAttributes (f : Forest) (m n : NodeId) (q : Option NodeId)
    (as : List NodeId → List NodeId) :
    (f.setParent m q).setAttributes n as = (f.setAttributes n as).setParent m q :=
  modify_comm fun _ _ => rfl

theorem setChildren_setAttributes (f : Forest) (m n : NodeId) (as bs : List NodeId → List NodeId) :
    (f.setChildren m as).setAttributes n bs = (f.setAttributes n bs).setChildren m as :=
  modify_comm fun _ _ => rfl

section Linked

theorem size_linkChild (f : Forest) (p c : NodeId) : (f.linkChild p c).size = f.size := by
  simp [linkChild]

/-- Links of different nodes to different ones may be made in either order. -/
theorem linkChild_linkChild {q d : NodeId} (f : Forest) (hpq : p ≠ q) (hcd : c ≠ d) :
    (f.linkChild p c).linkChild q d = (f.linkChild q d).linkChild p c := by
  rw [linkChild, linkChild, setChildren_setParent, setChildren_setChildren _ hpq,
    setParent_setParent _ hcd, ← setChildren_setParent]
  rfl

variable (hp : p < f.size) (hc : c < f.size)

include hp hc

theorem create_linkChild (k : Kind) (s : String) :
    (f.linkChild p c).create k s = ((f.create k s).1, (f.create k s).2.linkChild p c) := by
  refine Prod.ext (size_linkChild f p c) ?_
  simp only [create, linkChild, setParent, setChildren]
  rw [modify_push (by simpa using hp), modify_push hc]

theorem plantAttr_linkChild (n : NodeId) (a : Attribute) :
    (f.linkChild p c).plantAttr n a = (f.plantAttr n a).linkChild p c := by
  have hnew : c ≠ f.size := Nat.ne_of_lt hc
  rw [plantAttr, create_linkChild hp hc]
  simp only [fst_create]
  rw [linkChild, setChildren_setParent, setParent_setParent _ hnew, setChildren_setAttributes,
    setParent_setAttributes]
  rfl

theorem plantOpen_linkChild (tag : String) (as : List Attribute) :
    (f.linkChild p c).plantOpen tag as = (f.plantOpen tag as).linkChild p c := by
  have hfold : ∀ (as : List Attribute) {g : Forest}, p < g.size → c < g.size →
      as.foldl (fun g a => g.plantAttr f.size a) (g.linkChild p c) =
        (as.foldl (fun g a => g.plantAttr f.size a) g).linkChild p c := by
    intro as
    induction as with
    | nil => exact fun _ _ => rfl
    | cons a as ih =>
      intro g hpg hcg
      have hsize : g.size ≤ (g.plantAttr f.size a).size := by simp [plantAttr]
      rw [List.foldl_cons, plantAttr_linkChild hpg hcg, ih (hpg.trans_le hsize)
        (hcg.trans_le hsize)]
      rfl
  rw [plantOpen, create_linkChild hp hc, size_linkChild]
  exact hfold as (by simpa using Nat.lt_succ_of_lt hp) (by simpa using Nat.lt_succ_of_lt hc)

end Linked

mutual

/-- Linking two old nodes and planting a tree may be done in either order. -/
theorem plant_linkChild {f : Forest} (hp : p < f.size) (hc : c < f.size) (t : Tree) :
    (f.linkChild p c).plant t = ((f.plant t).1, (f.plant t).2.linkChild p c) := by
  cases t with
  | text data | comment data =>
    rw [plant, plant]
    exact create_linkChild hp hc _ _
  | element tag as cs =>
    have hlt := lt_size_plantOpen f tag as
    rw [plant_element, plant_element, plantOpen_linkChild hp hc, size_linkChild,
      plantBelow_linkChild (hp.trans hlt) (hc.trans hlt) (Nat.ne_of_lt hp) hlt]

/-- A node may be linked before it is filled or afterwards. -/
theorem plantBelow_linkChild {f : Forest} {q : NodeId} (hp : p < f.size) (hc : c < f.size)
    (hpq : p ≠ q) (hq : q < f.size) (ts : List Tree) :
    (f.linkChild p c).plantBelow q ts = (f.plantBelow q ts).linkChild p c := by
  cases ts with
  | nil => rw [plantBelow, plantBelow]
  | cons t ts =>
    obtain ⟨hroot, hlt, hg⟩ := grows_plant f t
    have hcd : c ≠ (f.plant t).1 := hroot ▸ Nat.ne_of_lt hc
    have hsize : f.size ≤ ((f.plant t).2.linkChild q (f.plant t).1).size := by
      rw [size_linkChild]
      exact hlt.le
    rw [plantBelow, plantBelow, plant_linkChild hp hc t]
    simp only
    rw [linkChild_linkChild _ hpq hcd, plantBelow_linkChild (hp.trans_le hsize)
      (hc.trans_le hsize) hpq (hq.trans_le hsize) ts]

end

theorem plantBelow_concat (f : Forest) (p : NodeId) (ts : List Tree) (t : Tree) :
    f.plantBelow p (ts ++ [t]) =
      ((f.plantBelow p ts).plant t).2.linkChild p ((f.plantBelow p ts).plant t).1 := by
  induction ts generalizing f with
  | nil => rfl
  | cons u us ih =>
    rw [List.cons_append, plantBelow, plantBelow]
    exact ih _

/-- A node that is planted is loose below every node that was there before. -/
theorem Sound.loose_plant (hf : f.Sound) (hp : p < f.size) (t : Tree) :
    Loose (f.plant t).2 p (f.plant t).1 := by
  obtain ⟨hroot, hlt, hg⟩ := grows_plant f t
  obtain ⟨ha, hfr, hl⟩ := plant_root f t
  exact hroot ▸ ⟨hlt, ha, hfr, by rw [parent_eq_link, hl, ite_self],
    fun h => absurd (lt_size_of_above hf hg hp h) (Nat.lt_irrefl _)⟩

theorem linkChild_eq_insertAt (f : Forest) (p c : NodeId) :
    f.linkChild p c = f.insertAt p (f.children p).length c := by
  refine modify_congr ?_
  have hlen : ((f.setParent c (some p)).cell p).children = f.children p :=
    children_setParent f p c _
  simp [hlen]

/-- Setting attributes with new names plants them. -/
theorem setAttrs_eq (hn : (f.kind n).isElement = true) {as : List Attribute}
    (hs : ∀ a ∈ as, IsSmall a.name) (hd : (as.map Attribute.name).Nodup)
    (hnew : ∀ b ∈ f.attributes n, b < f.size ∧ (f.kind b).attrName ∉ as.map Attribute.name) :
    f.setAttrs n as = (.ok (), as.foldl (fun f a => f.plantAttr n a) f) := by
  induction as generalizing f with
  | nil => rfl
  | cons a as ih =>
    have hns : n < f.size := lt_size_of_isElement hn
    have hg := growsAt_plantAttr (f := f) a hns
    obtain ⟨ha, hd⟩ := List.nodup_cons.1 hd
    have hsmall : a.name.toLower = a.name := hs a List.mem_cons_self
    have hnone : f.attrNode n a.name = none := by
      rw [attrNode, List.find?_eq_none]
      intro b hb hbname
      rw [hsmall, beq_iff_eq] at hbname
      exact (hnew b hb).2 (hbname ▸ List.mem_cons_self)
    have hset : f.setAttr n a.name a.value = (.ok (), f.plantAttr n a) := by
      simp only [setAttr, requireElement, hn, if_true, hnone, hsmall, plantAttr]
    rw [setAttrs, hset, List.foldl_cons]
    refine ih (by rwa [hg.kind_eq]) (fun b hb => hs b (List.mem_cons_of_mem _ hb)) hd
      fun b hb => ?_
    rw [attributes_plantAttr a hns, List.mem_append, List.mem_singleton] at hb
    have hsize : (f.plantAttr n a).size = f.size + 1 := by simp [plantAttr]
    rcases hb with hb | rfl
    · obtain ⟨hbs, hbname⟩ := hnew b hb
      refine ⟨hsize ▸ Nat.lt_succ_of_lt hbs, ?_⟩
      have hkind : (f.plantAttr n a).kind b = f.kind b := by
        simp [plantAttr, kind_create, Nat.ne_of_lt hbs]
      rw [hkind]
      exact fun h => hbname (List.mem_cons_of_mem _ h)
    · refine ⟨hsize ▸ Nat.lt_succ_self _, ?_⟩
      simpa [plantAttr, kind_create, Kind.attrName] using ha

end Forest

/-! ### The nodes of trees under construction -/

/-- A start tag that does not repeat the name of an attribute; all names are in small letters. -/
def Token.Named : Token → Prop
  | start tag attributes _ =>
    IsSmall tag ∧ (∀ a ∈ attributes, IsSmall a.name) ∧ (attributes.map Attribute.name).Nodup
  | stop _ | text _ | comment _ | doctype => True

instance (t : Token) : Decidable t.Named :=
  match t with
  | .start tag attributes _ =>
    have (s : String) : Decidable (IsSmall s) := inferInstanceAs (Decidable (s.toLower = s))
    inferInstanceAs (Decidable (IsSmall tag ∧ (∀ a ∈ attributes, IsSmall a.name) ∧
      (attributes.map Attribute.name).Nodup))
  | .stop _ | .text _ | .comment _ | .doctype => inferInstanceAs (Decidable True)

namespace Nest

open Forest

/-- The draft that holds the open elements `es`, innermost first, and the trees outside of them. -/
def sketchOf (f : Forest) (outside : List Tree) : List OpenElement → Draft
  | [] => ⟨(f.create .fragment "").2.plantBelow f.size outside.reverse, f.size, []⟩
  | e :: es =>
    let d := sketchOf f outside es
    let g := (d.forest.plantOpen e.tag e.attributes).linkChild d.current d.forest.size
    ⟨g.plantBelow d.forest.size e.children.reverse, d.root, d.forest.size :: d.opened⟩

/-- The draft of trees under construction. -/
def sketch (n : Nest) (f : Forest) : Draft := sketchOf f n.outside n.opened

/-- A draft in which the open elements `es` stand. -/
structure Stands (d : Draft) (es : List OpenElement) : Prop where
  opened : List.Forall₂ (fun n (e : OpenElement) => d.forest.kind n = .element e.tag) d.opened es
  root : d.forest.kind d.root = .fragment

variable {f : Forest} {d : Draft} {es : List OpenElement}

theorem Stands.holdsChildren (h : Stands d es) :
    (d.forest.kind d.current).holdsChildren = true := by
  obtain ⟨hopened, hroot⟩ := h
  rw [Draft.current]
  generalize d.opened = ns at hopened
  cases hopened with
  | nil =>
    rw [List.headD_nil, hroot]
    rfl
  | cons hn _ =>
    rw [List.headD_cons, hn]
    rfl

theorem Stands.current_lt (h : Stands d es) : d.current < d.forest.size :=
  lt_size_of_holdsChildren h.holdsChildren

/-- A draft stands while its forest grows at one node. -/
theorem Stands.grow (h : Stands d es) {g : Forest} {p : NodeId} {cs : List NodeId}
    (hg : GrowsAt d.forest g p cs) : Stands { d with forest := g } es := by
  have hkind : ∀ n k, d.forest.kind n = k → k.holdsChildren = true → g.kind n = k := by
    rintro n _ rfl hk
    by_cases hn : n = p
    · exact hn ▸ hg.kind_eq
    · rw [kind, kind, hg.cell_eq (lt_size_of_holdsChildren hk) hn]
  exact ⟨h.opened.imp fun n e hn => hkind n _ hn rfl, hkind _ _ h.root rfl⟩

/-- The element that is opened last, without children. -/
theorem Stands.start (h : Stands d es) (tag : String) (as : List Attribute) :
    Stands ⟨(d.forest.plantOpen tag as).linkChild d.current d.forest.size, d.root,
      d.forest.size :: d.opened⟩ (⟨tag, as, []⟩ :: es) := by
  have hopen := growsAt_plantOpen d.forest tag as
  have hgrows := hopen.grows_of_create
  have hlt := h.current_lt
  have hlink := growsAt_linkChild (hlt.trans_le hgrows.size_le) le_rfl (hgrows.growsAt hlt) hlt
  obtain ⟨hopened, hroot⟩ := h.grow hlink
  refine ⟨List.Forall₂.cons ?_ hopened, hroot⟩
  simp only [linkChild, kind_setChildren, kind_setParent]
  rw [hopen.kind_eq, kind_create, if_pos rfl]

/-- Trees under construction stand in their draft. -/
theorem stands_sketchOf (f : Forest) (outside : List Tree) (es : List OpenElement) :
    Stands (sketchOf f outside es) es := by
  induction es with
  | nil =>
    have hfirst : Stands ⟨(f.create .fragment "").2, f.size, []⟩ [] :=
      ⟨List.Forall₂.nil, by simp [kind_create]⟩
    obtain ⟨cs, hg⟩ := growsAt_plantBelow (f.create .fragment "").2 f.size outside.reverse (by simp)
    exact hfirst.grow hg
  | cons e es ih =>
    have hstart := ih.start e.tag e.attributes
    obtain ⟨cs, hg⟩ := growsAt_plantBelow _ _ e.children.reverse hstart.current_lt
    obtain ⟨hopened, hroot⟩ := hstart.grow hg
    cases hopened with
    | cons hn hopened => exact ⟨List.Forall₂.cons hn hopened, hroot⟩

theorem stands_sketch (n : Nest) (f : Forest) : Stands (n.sketch f) n.opened :=
  stands_sketchOf f n.outside n.opened

/-! ### Adding and closing -/

/-- A tree that is added is planted and linked to the current node. -/
theorem sketch_add (n : Nest) (f : Forest) (t : Tree) :
    (n.add t).sketch f =
      { n.sketch f with
        forest := ((n.sketch f).forest.plant t).2.linkChild (n.sketch f).current
          ((n.sketch f).forest.plant t).1 } := by
  obtain ⟨_ | ⟨e, es⟩, outside⟩ := n <;>
    simp [sketch, Nest.add, sketchOf, plantBelow_concat, Draft.current]

/-- The element that is closed stands where it is added. -/
theorem sketch_close_one (n : Nest) (f : Forest) :
    (n.close 1).sketch f = { n.sketch f with opened := (n.sketch f).opened.drop 1 } := by
  obtain ⟨_ | ⟨e, es⟩, outside⟩ := n
  · rfl
  · have hadd : Nest.close ⟨e :: es, outside⟩ 1 = Nest.add ⟨es, outside⟩ e.tree := rfl
    rw [hadd, sketch_add]
    have hstands := stands_sketchOf f outside es
    have hgrows := (growsAt_plantOpen (sketchOf f outside es).forest e.tag
      e.attributes).grows_of_create
    have hlt := lt_size_plantOpen (sketchOf f outside es).forest e.tag e.attributes
    simp only [sketch, sketchOf, OpenElement.tree, plant_element]
    rw [plantBelow_linkChild (hstands.current_lt.trans_le hgrows.size_le) hlt
      (Nat.ne_of_lt hstands.current_lt) hlt]
    rfl

/-- Closing elements leaves the nodes as they are. -/
theorem sketch_close (n : Nest) (f : Forest) (count : ℕ) :
    (n.close count).sketch f =
      { n.sketch f with opened := (n.sketch f).opened.drop count } := by
  induction count generalizing n with
  | zero => rfl
  | succ count ih =>
    have hstep : n.close (count + 1) = (n.close 1).close count := by
      obtain ⟨_ | ⟨e, es⟩, outside⟩ := n
      · cases count <;> rfl
      · rfl
    rw [hstep, ih, sketch_close_one, List.drop_drop, Nat.add_comm]

/-! ### Taking tokens -/

/-- The tags of the open nodes are the tags of the open elements. -/
theorem Stands.findIdx?_eq (h : Stands d es) (tag : String) :
    d.opened.findIdx? (d.tagOf · == tag) = es.findIdx? (·.tag == tag) := by
  obtain ⟨hopened, -⟩ := h
  generalize d.opened = ns at hopened
  induction hopened with
  | nil => rfl
  | cons hn _ ih =>
    rw [List.findIdx?_cons, List.findIdx?_cons, ih, Draft.tagOf, hn]
    rfl

theorem Stands.head?_eq (h : Stands d es) :
    d.opened.head?.map d.tagOf = es.head?.map OpenElement.tag := by
  obtain ⟨hopened, -⟩ := h
  generalize d.opened = ns at hopened
  cases hopened with
  | nil => rfl
  | cons hn _ => simp [Draft.tagOf, hn, Kind.tag]

theorem closeBefore_sketch (n : Nest) (f : Forest) (tag : String) :
    (n.sketch f).closeBefore tag = (n.closeBefore tag).sketch f := by
  rw [Draft.closeBefore, closeBefore, (n.stands_sketch f).head?_eq]
  split_ifs
  · rw [sketch_close]
  · rfl

/-- A new node that is planted from `t` is appended without a refusal. -/
theorem add_sketch (n : Nest) (hf : (n.sketch f).forest.Sound) {t : Tree} (ht : t.Named) :
    (n.sketch f).add ((n.sketch f).forest.plant t).2 ((n.sketch f).forest.plant t).1 =
        .ok ((n.add t).sketch f) ∧ ((n.add t).sketch f).forest.Sound := by
  have hstands := n.stands_sketch f
  have hkind :
      (((n.sketch f).forest.plant t).2.kind (n.sketch f).current).holdsChildren = true := by
    obtain ⟨-, -, hg⟩ := grows_plant (n.sketch f).forest t
    rw [kind, hg.cell_eq hstands.current_lt]
    exact hstands.holdsChildren
  have hloose := hf.loose_plant hstands.current_lt t
  have hsound := hf.plant t ht
  rw [Draft.add, hsound.append_of_loose hkind hloose, sketch_add, linkChild_eq_insertAt]
  refine ⟨rfl, ?_⟩
  simp only
  rw [← linkChild_eq_insertAt]
  exact hsound.linkChild hkind hloose

/-- The element that is opened is added, and stays open. -/
theorem sketch_openElement (n : Nest) (f : Forest) (tag : String) (as : List Attribute) :
    (n.openElement tag as).sketch f =
      { (n.add (.element tag as [])).sketch f with
        opened := (n.sketch f).forest.size :: (n.sketch f).opened } := by
  rw [sketch_add, plant_element]
  rfl

/-- A start tag creates an element with its attributes. -/
theorem setAttrs_create (g : Forest) {tag : String} {as : List Attribute} (htag : IsSmall tag)
    (hs : ∀ a ∈ as, IsSmall a.name) (hd : (as.map Attribute.name).Nodup) :
    (g.create (.element tag.toLower) "").2.setAttrs g.size as =
      (.ok (), (g.plant (.element tag as [])).2) := by
  have hsmall : tag.toLower = tag := htag
  have hnone : (g.create (.element tag) "").2.attributes g.size = [] := by
    rw [attributes_create, attributes_of_size_le le_rfl]
  rw [hsmall, setAttrs_eq (by simp [kind_create, Kind.isElement]) hs hd (by simp [hnone]),
    plant_element]
  rfl

/-- Taking a token never fails, and keeps the draft that of the trees under construction. -/
theorem take_sketch (n : Nest) (hf : (n.sketch f).forest.Sound) {t : Token} (ht : t.Named) :
    (n.sketch f).take t = .ok ((n.take t).sketch f) ∧ ((n.take t).sketch f).forest.Sound := by
  cases t with
  | doctype => exact ⟨rfl, hf⟩
  | text data => exact add_sketch (t := .text data) n hf trivial
  | comment data => exact add_sketch (t := .comment data) n hf trivial
  | stop tag =>
    rw [Draft.take, (n.stands_sketch f).findIdx?_eq, Nest.take]
    cases n.opened.findIdx? (·.tag == tag) with
    | none => exact ⟨rfl, hf⟩
    | some i => exact ⟨congrArg Except.ok (n.sketch_close f (i + 1)).symm, n.sketch_close f _ ▸ hf⟩
  | start tag as selfClosing =>
    obtain ⟨htag, hs, hd⟩ := ht
    have hbefore : ((n.closeBefore tag).sketch f).forest = (n.sketch f).forest := by
      unfold closeBefore
      split_ifs
      · rw [sketch_close]
      · rfl
    rw [Draft.take, closeBefore_sketch, Nest.take]
    generalize n.closeBefore tag = n' at hbefore ⊢
    have hf' : (n'.sketch f).forest.Sound := hbefore ▸ hf
    obtain ⟨hadd, hsound⟩ := add_sketch n' hf' (t := .element tag as []) ⟨hs, hd, trivial⟩
    have hroot := (grows_plant (n'.sketch f).forest (.element tag as [])).1
    simp only [Draft.start, fst_create, setAttrs_create _ htag hs hd]
    rw [hroot] at hadd
    rw [hadd]
    simp only
    split_ifs
    · exact ⟨rfl, hsound⟩
    · rw [sketch_openElement, sketch_add]
      rw [sketch_add] at hsound
      exact ⟨rfl, hsound⟩

/-- Taking tokens never fails. -/
theorem foldlM_take_sketch (n : Nest) (hf : (n.sketch f).forest.Sound) {ts : List Token}
    (hts : ∀ t ∈ ts, t.Named) :
    ts.foldlM Draft.take (n.sketch f) = .ok ((ts.foldl Nest.take n).sketch f) := by
  induction ts generalizing n with
  | nil => rfl
  | cons t ts ih =>
    obtain ⟨ht, hrest⟩ := List.forall_mem_cons.1 hts
    obtain ⟨htake, hsound⟩ := take_sketch n hf ht
    rw [List.foldlM_cons, htake, List.foldl_cons]
    exact ih _ hsound hrest

/-- The nodes of a draft are those of its trees. -/
theorem forest_sketch (n : Nest) (f : Forest) :
    (n.sketch f).forest = (f.plantFragment n.trees).2 := by
  have hnone : (n.close n.opened.length).opened = [] :=
    List.length_eq_zero_iff.1 ((length_opened_close n _).trans (Nat.sub_self _))
  have hclosed := congrArg Draft.forest (n.sketch_close f n.opened.length)
  rw [← hclosed, sketch, hnone]
  rfl

theorem root_sketch (n : Nest) (f : Forest) : (n.sketch f).root = f.size := by
  obtain ⟨es, outside⟩ := n
  induction es with
  | nil => rfl
  | cons e es ih => exact ih

end Nest

namespace Forest

/-- Building a fragment token by token never fails, and makes the same nodes as planting the trees
that the tokens describe. -/
theorem build_eq {f : Forest} (hf : f.Sound) {ts : List Token} (hts : ∀ t ∈ ts, t.Named) :
    f.build ts = .ok (f.plantFragment (Tree.ofTokens ts)) := by
  have hfirst : (Nest.empty.sketch f).forest.Sound := hf.create .fragment "" isSmall_empty
  have hfold := Nest.foldlM_take_sketch Nest.empty hfirst hts
  have hstart : Nest.empty.sketch f = ⟨(f.create .fragment "").2, f.size, []⟩ := rfl
  rw [hstart] at hfold
  simp only [build, fst_create, hfold, Nest.root_sketch, Nest.forest_sketch]
  rfl

end Forest

end LiveMarkup
