import LiveMarkup.Proofs.Forest.Insertion
import LiveMarkup.Proofs.Run.Drawing

/-!
# Values laid out flat

A value that consists of texts, numbers, nodes, nothing and lists of such values, nested to any
depth, is bound to a comment by putting its flattening in the place of the comment: a new text for
each text or number, a node or what is in a fragment, a new empty comment for nothing inside a list,
and for a list the flattenings of its items, one after the other.  Nothing at the place itself
leaves the comment there.  No other list of children changes, except that the fragments of the value
are empty afterwards (`Run.exists_unrolls`).
-/

namespace LiveMarkup

open Forest

variable {f g : Forest} {w w' : World} {c l m n p v : NodeId} {e : Expression}
  {ns drained held : List NodeId} {ps : List Program} {xs : List Piece}
  {inside : NodeId → List Piece}

/-! ### Flattenings -/

namespace Expression

mutual

/-- Whether a value consists of nothing, texts, numbers, nodes and lists. -/
def Immediate : Expression → Prop
  | empty => True
  | text _ => True
  | number _ => True
  | bigint _ => True
  | node _ => True
  | iterable items => ImmediateAll items
  | deferred _ => False
  | function _ => False
  | capability _ _ => False

/-- Whether several values consist of nothing, texts, numbers, nodes and lists. -/
def ImmediateAll : List Expression → Prop
  | [] => True
  | e :: es => e.Immediate ∧ ImmediateAll es

end

mutual

/-- What a value consists of, in order. -/
def flattening (f : Forest) : Expression → List Piece
  | empty => [.blank]
  | text s => [.text s]
  | number x => [.text x.text]
  | bigint i => [.text (toString i)]
  | node v => (f.brings v).map .node
  | iterable items => flatteningAll f items
  | deferred _ => []
  | function _ => []
  | capability _ _ => []

/-- What several values consist of, one after the other. -/
def flatteningAll (f : Forest) : List Expression → List Piece
  | [] => []
  | e :: es => e.flattening f ++ flatteningAll f es

end

/-- What takes the place of the comment `n`: the flattening, or the comment itself if the value is
nothing. -/
def unrolled (f : Forest) (n : NodeId) : Expression → List Piece
  | empty => [.node n]
  | e => e.flattening f

mutual

/-- Immediate values are shown as a whole, without anything that comes later. -/
theorem Immediate.pieces_eq : ∀ (e : Expression), e.Immediate →
    e.Showable ∧ e.lateCount = 0 ∧
      ∀ first, e.pieces (fun v => (f.brings v).map .node) first = e.flattening f
  | empty, _ => ⟨trivial, rfl, fun _ => rfl⟩
  | text _, _ => ⟨trivial, rfl, fun _ => rfl⟩
  | number _, _ => ⟨trivial, rfl, fun _ => rfl⟩
  | bigint _, _ => ⟨trivial, rfl, fun _ => rfl⟩
  | node _, _ => ⟨trivial, rfl, fun _ => rfl⟩
  | iterable items, he => ImmediateAll.pieces_eq items he
  | deferred _, he => he.elim
  | function _, he => he.elim
  | capability _ _, he => he.elim

theorem ImmediateAll.pieces_eq : ∀ (es : List Expression), ImmediateAll es →
    ShowableAll es ∧ lateCountAll es = 0 ∧
      ∀ first, piecesAll (fun v => (f.brings v).map .node) first es = flatteningAll f es
  | [], _ => ⟨trivial, rfl, fun _ => rfl⟩
  | e :: es, he => by
    obtain ⟨hshow, hlate, hpieces⟩ := Immediate.pieces_eq e he.1
    obtain ⟨hshow', hlate', hpieces'⟩ := ImmediateAll.pieces_eq es he.2
    refine ⟨⟨hshow, hshow'⟩, by rw [lateCountAll, hlate, hlate'], fun first => ?_⟩
    rw [piecesAll, flatteningAll, hpieces, hpieces']

end

mutual

theorem node_mem_flattening : ∀ (e : Expression), v ∈ e.heldNodes → c ∈ f.brings v →
    .node c ∈ e.flattening f
  | node u, hv, hc => by
    obtain rfl : v = u := List.mem_singleton.1 hv
    exact List.mem_map_of_mem hc
  | iterable items, hv, hc => node_mem_flatteningAll items hv hc
  | empty, hv, _ => nomatch hv
  | text _, hv, _ => nomatch hv
  | number _, hv, _ => nomatch hv
  | bigint _, hv, _ => nomatch hv
  | deferred _, hv, _ => nomatch hv
  | function _, hv, _ => nomatch hv
  | capability _ _, hv, _ => nomatch hv

/-- What a node of a value brings along is in the flattening. -/
theorem node_mem_flatteningAll : ∀ (es : List Expression), v ∈ heldNodesAll es →
    c ∈ f.brings v → .node c ∈ flatteningAll f es
  | [], hv, _ => nomatch hv
  | e :: es, hv, hc => by
    rcases List.mem_append.1 hv with hv | hv
    · exact List.mem_append_left _ (node_mem_flattening e hv hc)
    · exact List.mem_append_right _ (node_mem_flatteningAll es hv hc)

end

end Expression

namespace Forest

/-- What a node of `g` has to be to stand for a piece.  The texts and the empty comments are new. -/
def Stands (f g : Forest) (l : NodeId) : Piece → Prop
  | .text s => f.size ≤ l ∧ l < g.size ∧ g.kind l = .text ∧ g.data l = s
  | .blank => f.size ≤ l ∧ l < g.size ∧ g.kind l = .comment ∧ g.data l = ""
  | .node v => l = v
  | .slot _ => False

/-- The nodes `ns` stand in the place of `n` among the children of `p`, one for each piece of the
flattening of `e`, and the fragments of `e` are empty.  Nothing else changes. -/
structure Unrolls (f g : Forest) (p n : NodeId) (e : Expression) (ns : List NodeId) : Prop where
  stands : List.Forall₂ (Stands f g) ns (e.unrolled f n)
  children_eq {as bs : List NodeId} : f.children p = as ++ n :: bs → g.children p = as ++ ns ++ bs
  children_fragment {v : NodeId} : v ∈ e.heldNodes → f.kind v = .fragment → g.children v = []
  children_other {m : NodeId} : m ≠ p → (m ∈ e.heldNodes → f.kind m ≠ .fragment) →
    g.children m = f.children m
  link_eq {m : NodeId} : m < f.size →
    g.link m = if m ∈ ns then some p else if m = n then none else f.link m
  rearranges : Rearranges f g
  sound : g.Sound

/-! ### What else is at the place -/

theorem link_of_isAttr (ha : (f.kind m).isAttr = true) : f.link m = f.owner m := by
  rw [owner_eq_link, if_pos ha]

theorem link_of_not_isAttr (ha : ¬ (f.kind m).isAttr = true) : f.link m = f.parent m := by
  rw [parent_eq_link, if_neg ha]

namespace Redraws

variable (hf : f.Sound) (hr : Redraws f g n ns drained) (hn : f.parent n = some p)

include hf hr hn

/-- The links after a place has been redrawn with all that was in the emptied fragments. -/
theorem link_eq (hre : Rearranges f g) (hp : p ∉ drained)
    (hdrained : ∀ v ∈ drained, ∀ c ∈ f.children v, c ∈ ns) (hm : m < f.size) :
    g.link m = if m ∈ ns then some p else if m = n then none else f.link m := by
  have hkind : g.kind m = f.kind m := hr.kind_eq hm
  split_ifs with hin hmn
  · have hparent : g.parent m = some p := hr.parent_of_mem hf hn hp hin
    rw [link_of_not_isAttr (not_isAttr_of_parent hparent), hparent]
  · subst hmn
    have ha : ¬ (g.kind m).isAttr = true := hkind ▸ not_isAttr_of_parent hn
    rw [link_of_not_isAttr ha]
    refine Option.eq_none_iff_forall_ne_some.2 fun q hq => ?_
    rcases mem_replaced.1 (hr.parent_eq_some_iff.1 hq).2 with ⟨-, hne⟩ | ⟨-, hin'⟩
    · exact hne rfl
    · exact hin hin'
  · by_cases ha : (f.kind m).isAttr = true
    · rw [link_of_isAttr (hkind ▸ ha), link_of_isAttr ha, hre.owner_eq hf hr.sound]
    · rw [link_of_not_isAttr (hkind ▸ ha), link_of_not_isAttr ha]
      refine Option.ext fun q => ?_
      rw [hr.parent_eq_some_iff, mem_replaced, ← hf.mem_children_iff]
      constructor
      · rintro ⟨-, ⟨hmq, -⟩ | ⟨-, hin'⟩⟩
        · exact hmq
        · exact absurd hin' hin
      · exact fun hmq => ⟨fun hq => hin (hdrained q hq m hmq), Or.inl ⟨hmq, hmn⟩⟩

/-- A node that was there before and is now at the place had no parent, or it comes from a fragment
that is empty now. -/
theorem parent_of_mem_of_lt (hp : p ∉ drained) (hout : n ∉ ns) (hl : l ∈ ns) :
    f.parent l = none ∨ ∃ q ∈ drained, f.parent l = some q := by
  rcases hparent : f.parent l with _ | q
  · exact Or.inl rfl
  · refine Or.inr ⟨q, ?_, rfl⟩
    by_contra hq
    have hln : l ≠ n := by
      rintro rfl
      exact hout hl
    have hlq : l ∈ f.children q := hf.mem_children_iff.2 hparent
    have hgq : g.parent l = some q := hr.parent_eq_some_iff.2 ⟨hq, mem_replaced.2 (.inl ⟨hlq, hln⟩)⟩
    obtain rfl : p = q := Option.some.inj ((hr.parent_of_mem hf hn hp hl).symm.trans hgq)
    -- Then it is twice among the children of `p`, at its old place and at the place of `n`.
    obtain ⟨as, bs, hc⟩ := List.append_of_mem (hf.mem_children_iff.2 hn)
    obtain ⟨has, hbs⟩ := hf.notMem_of_children_eq hc
    have hnodup := hr.sound.nodup_children p
    rw [hr.children_eq, if_neg hp, hc, replaced_append_cons has hbs] at hnodup
    rw [hc] at hlq
    obtain ⟨hleft, -, hapart⟩ := List.nodup_append.1 hnodup
    rcases List.mem_append.1 hlq with hlas | hlbs
    · exact (List.nodup_append.1 hleft).2.2 l hlas l hl rfl
    · have hlbs' : l ∈ bs := (List.mem_cons.1 hlbs).resolve_left hln
      exact hapart l (List.mem_append_right as hl) l hlbs' rfl

end Redraws

namespace Rearranges

variable (hn : f.kind n = .comment)

include hn

theorem placeText (kind s : String) : Rearranges f (f.placeText n kind s).2 := by
  simp only [Forest.placeText, hn, snd_placed]
  exact (create f .text s).trans (replaceWith _ n _)

theorem placeNode (v : NodeId) : Rearranges f (f.placeNode n v).2 := by
  have helement : ¬ (f.kind n).isElement = true := by simp [hn, Kind.isElement]
  unfold Forest.placeNode
  by_cases ha : (f.kind v).isAttr = true
  · rw [if_pos ha, if_neg helement]
    exact refl f
  · simp only [if_neg ha, hn, snd_placed]
    exact replaceWith f n [v]

theorem remove : Rearranges f (f.remove n) := by
  rw [Run.remove_of_comment hn]
  exact detach f n

omit hn in
theorem addSlot (f : Forest) (p anchor : NodeId) : Rearranges f (f.addSlot p anchor).2.2 := by
  simp only [Forest.addSlot, snd_placed]
  exact (create f .comment "").trans (insertBefore _ p _ _)

end Rearranges

end Forest

namespace Run

variable {run : Runner} {binding : Binding → NodeId → Activity (Except RenderFault Unit)}
  {outcome : Except RenderFault Unit}

mutual

/-- Binding an immediate value to a comment only moves nodes, whether it is refused or not. -/
theorem rearranges_applyTo : ∀ (e : Expression) {n : NodeId} {w w' : World}
    {outcome : Except RenderFault Unit}, e.Immediate → w.forest.kind n = .comment →
    applyTo run binding n e w = some (outcome, w') → Rearranges w.forest w'.forest
  | .empty, n, w, w', outcome, _, _, h => by
    rw [applyTo] at h
    obtain ⟨-, rfl⟩ := Prod.mk.inj (Option.some.inj h)
    exact .refl _
  | .text s, n, w, w', outcome, _, hn, h => by
    rw [applyTo, place_eq_some_iff] at h
    obtain ⟨-, rfl⟩ := h
    exact .placeText hn _ _
  | .number x, n, w, w', outcome, _, hn, h => by
    rw [applyTo, place_eq_some_iff] at h
    obtain ⟨-, rfl⟩ := h
    exact .placeText hn _ _
  | .bigint i, n, w, w', outcome, _, hn, h => by
    rw [applyTo, place_eq_some_iff] at h
    obtain ⟨-, rfl⟩ := h
    exact .placeText hn _ _
  | .node v, n, w, w', outcome, _, hn, h => by
    rw [applyTo, place_eq_some_iff] at h
    obtain ⟨-, rfl⟩ := h
    exact .placeNode hn v
  | .iterable items, n, w, w', outcome, he, hn, h => by
    rw [applyTo, Activity.get_bind, hn] at h
    rcases hp : w.forest.parent n with _ | p
    · rw [hp] at h
      obtain ⟨-, rfl⟩ := Prod.mk.inj (Option.some.inj h)
      exact .refl _
    · rw [hp] at h
      obtain ⟨inner, w₁, hslots, hrest⟩ := Activity.bind_eq_some_iff.1 h
      have hitems := rearranges_applySlots items he hslots
      rcases inner with fault | u
      · obtain ⟨-, rfl⟩ := Prod.mk.inj (Option.some.inj hrest)
        exact hitems
      · obtain ⟨-, rfl⟩ := Prod.mk.inj (Option.some.inj hrest)
        have hn' : w₁.forest.kind n = .comment := (hitems.kind_eq (lt_size_of_parent hp)).trans hn
        exact hitems.trans (.remove hn')
  | .deferred _, _, _, _, _, he, _, _ => he.elim
  | .function _, _, _, _, _, he, _, _ => he.elim
  | .capability _ _, _, _, _, _, he, _, _ => he.elim

theorem rearranges_applySlots : ∀ (items : List Expression) {p anchor : NodeId} {w w' : World}
    {outcome : Except RenderFault Unit}, Expression.ImmediateAll items →
    applySlots run binding p anchor items w = some (outcome, w') → Rearranges w.forest w'.forest
  | [], p, anchor, w, w', outcome, _, h => by
    rw [applySlots] at h
    obtain ⟨-, rfl⟩ := Prod.mk.inj (Option.some.inj h)
    exact .refl _
  | item :: items, p, anchor, w, w', outcome, he, h => by
    obtain ⟨hslot, -, hkind⟩ := addSlot_views w.forest p anchor
    have hadd := Rearranges.addSlot w.forest p anchor
    rw [applySlots] at h
    simp only at h
    rcases heq : w.forest.addSlot p anchor with ⟨slot, fault | u, f⟩
    · rw [heq] at hadd h
      obtain ⟨-, rfl⟩ := Prod.mk.inj (Option.some.inj h)
      exact hadd
    · rw [heq] at hadd hslot hkind h
      obtain rfl : slot = w.forest.size := hslot
      obtain ⟨inner, w₁, hitem, hrest⟩ := Activity.bind_eq_some_iff.1 h
      have hfirst : Rearranges w.forest w₁.forest :=
        hadd.trans (rearranges_applyTo item (w := w.setForest f) he.1 hkind hitem)
      rcases inner with fault | u
      · obtain ⟨-, rfl⟩ := Prod.mk.inj (Option.some.inj hrest)
        exact hfirst
      · exact hfirst.trans (rearranges_applySlots items he.2 hrest)

end

/-! ### Nodes and pieces, one by one -/

theorem eq_of_mem_zip {α β : Type} {as : List α} {bs : List β} {a : α} {b b' : β}
    (hlen : as.length = bs.length) (hd : as.Nodup) (hb : (a, b) ∈ as.zip bs)
    (hb' : (a, b') ∈ as.zip bs) : b = b' := by
  have hfst : (as.zip bs).map Prod.fst = as := List.map_fst_zip hlen.le
  have hnodup : ((as.zip bs).map Prod.fst).Nodup := hfst.symm ▸ hd
  exact congrArg Prod.snd (List.inj_on_of_nodup_map hnodup hb hb' rfl)

theorem exists_mem_zip {α β : Type} {as : List α} {bs : List β} {b : β}
    (hlen : as.length = bs.length) (hb : b ∈ bs) : ∃ a, (a, b) ∈ as.zip bs := by
  have hsnd : (as.zip bs).map Prod.snd = bs := List.map_snd_zip hlen.ge
  rw [← hsnd] at hb
  obtain ⟨⟨a, b'⟩, hin, rfl⟩ := List.mem_map.1 hb
  exact ⟨a, hin⟩

section Place

variable (hd : Draws w held g [] ns drained xs)

include hd

/-- A node that is one of the pieces stands at its place. -/
theorem Draws.exists_zip_of_node_mem (hc : .node c ∈ xs) : (c, .node c) ∈ ns.zip xs := by
  obtain ⟨hlen, hdepicts⟩ := List.forall₂_iff_zip.1 hd.depicts
  obtain ⟨l, hl⟩ := exists_mem_zip hlen hc
  have heq : l = c := hdepicts hl
  rwa [heq] at hl

variable (hf : w.forest.Sound) (hr : Redraws w.forest g n ns drained)
  (hn : w.forest.parent n = some p) (hp : p ∉ drained) (hout : n ∉ ns)
  (hbrings : ∀ v ∈ held, ∀ c ∈ w.forest.brings v, .node c ∈ xs)

include hf hr hn hp hout hbrings

/-- A node at the place that was there before is one of the pieces. -/
theorem Draws.node_mem (hl : l ∈ ns) (hlt : l < w.forest.size) : .node l ∈ xs := by
  rcases hr.parent_of_mem_of_lt hf hn hp hout hl with hnone | ⟨q, hq, hparent⟩
  · have hfr : w.forest.kind l ≠ .fragment := by
      rw [← hr.kind_eq hlt]
      exact hr.sound.ne_fragment_of_parent (hr.parent_of_mem hf hn hp hl)
    refine hbrings l (hd.held_of_parent_eq_none hl hlt hnone) l ?_
    rw [brings, if_neg hfr]
    exact List.mem_singleton_self l
  · obtain ⟨hheld, hfr⟩ := hd.mem_drained_iff.1 hq
    refine hbrings q hheld l ?_
    rw [brings, if_pos hfr]
    exact hf.mem_children_iff.2 hparent

/-- The texts and the empty comments at the place are new. -/
theorem Draws.stands (hslot : ∀ k, .slot k ∉ xs) : List.Forall₂ (Stands w.forest g) ns xs := by
  obtain ⟨hlen, hdepicts⟩ := List.forall₂_iff_zip.1 hd.depicts
  refine List.forall₂_iff_zip.2 ⟨hlen, fun {l x} hin => ?_⟩
  obtain ⟨hl, hx⟩ := List.of_mem_zip hin
  have hnew (hne : x ≠ .node l) : w.forest.size ≤ l := by
    by_contra hlt
    have hnode := hd.node_mem hf hr hn hp hout hbrings hl (Nat.lt_of_not_le hlt)
    exact hne (eq_of_mem_zip hlen (hr.nodup hf hn hp) hin (hd.exists_zip_of_node_mem hnode))
  have hdepict := hdepicts hin
  cases x with
  | text s => exact ⟨hnew (by simp), hdepict⟩
  | blank => exact ⟨hnew (by simp), hdepict⟩
  | node v => exact hdepict
  | slot k => exact absurd hx (hslot k)

end Place

/-! ### Binding at a comment -/

section Comment

variable (he : e.Immediate) (hf : w.forest.Sound) (hk : w.forest.kind n = .comment)
  (hn : w.forest.parent n = some p)

include he hf hk hn

/-- An immediate value that is not nothing is drawn at a comment, whatever the data of the comment
is. -/
theorem exists_draws_at (hne : e ≠ .empty) (h : Offered inside w p e.heldNodes) :
    ∃ g ns drained,
      (∀ (run : Runner) (binding : Binding → NodeId → Activity (Except RenderFault Unit)),
        applyTo run binding n e w = some (.ok (), w.drawn g [])) ∧
      Redraws w.forest g n ns drained ∧
      Draws w e.heldNodes g [] ns drained (e.pieces inside w.taskCount) ∧ n ∉ ns := by
  cases e with
  | empty => exact absurd rfl hne
  | text s =>
    obtain ⟨g, ns, drained, hplace, hrest⟩ := exists_draws_text hf hk hn "text" s
    exact ⟨g, ns, drained, fun _ _ => by rw [applyTo, hplace], hrest⟩
  | number x =>
    obtain ⟨g, ns, drained, hplace, hrest⟩ := exists_draws_text hf hk hn "number" x.text
    exact ⟨g, ns, drained, fun _ _ => by rw [applyTo, hplace], hrest⟩
  | bigint i =>
    obtain ⟨g, ns, drained, hplace, hrest⟩ := exists_draws_text hf hk hn "bigint" (toString i)
    exact ⟨g, ns, drained, fun _ _ => by rw [applyTo, hplace], hrest⟩
  | node v =>
    obtain ⟨g, ns, drained, hplace, hrest⟩ := exists_draws_node hf hk hn h
    exact ⟨g, ns, drained, fun _ _ => by rw [applyTo, hplace], hrest⟩
  | iterable items =>
    obtain ⟨hshow, hlate, -⟩ := Expression.ImmediateAll.pieces_eq (f := w.forest) items he
    obtain ⟨g, ps, ns, drained, hslots, hlen, hr, hd⟩ := exists_draws_all items hshow hf hk hn h
    obtain rfl : ps = [] := List.length_eq_zero_iff.1 (hlen.trans hlate)
    obtain ⟨happly, hrest⟩ := hd.iterable hf hk hn h hr hslots
    exact ⟨g.remove n, ns, drained, happly, hrest⟩
  | deferred promise => exact he.elim
  | function b => exact he.elim
  | capability name value => exact he.elim

omit he hk in
/-- Nothing at the place itself leaves the comment there. -/
theorem unrolls_empty : Unrolls w.forest w.forest p n .empty [n] := by
  refine ⟨.cons rfl .nil, fun hc => by simpa using hc, fun hv => absurd hv List.not_mem_nil,
    fun _ _ => rfl, fun {m} _ => ?_, .refl _, hf⟩
  by_cases hm : m = n
  · subst hm
    rw [if_pos List.mem_cons_self, link_of_not_isAttr (not_isAttr_of_parent hn), hn]
  · rw [if_neg (by simpa using hm), if_neg hm]

/-- Binding an immediate value to a comment among the children of `p` succeeds if its nodes are
different, have no parent, are no attribute nodes and do not hold `p`.  The flattening of the value
takes the place of the comment. -/
theorem exists_unrolls (hd : e.heldNodes.Nodup) (hfree : ∀ v ∈ e.heldNodes, w.forest.Free p v) :
    ∃ g ns, (∀ run, apply run e n w = some (.ok (), w.setForest g)) ∧
      Unrolls w.forest g p n e ns := by
  by_cases hne : e = .empty
  · subst hne
    exact ⟨w.forest, [n], fun _ => by rw [apply, applyTo]; rfl, unrolls_empty hf hn⟩
  obtain ⟨-, hlate, hpieces⟩ := Expression.Immediate.pieces_eq (f := w.forest) e he
  have hoffered : Offered (fun v => (w.forest.brings v).map .node) w p e.heldNodes := by
    refine ⟨hd, fun {v} hv => hfree v hv, fun {v} _ => ?_⟩
    rw [fst_pickUp, List.forall₂_map_right_iff]
    exact List.forall₂_same.2 fun _ _ => rfl
  obtain ⟨g, ns, drained, happly, hr, hdraws, hout⟩ := exists_draws_at he hf hk hn hne hoffered
  have hp : p ∉ drained := not_mem_drained hoffered hdraws
  have hslot (k : ℕ) :
      .slot k ∉ e.pieces (fun v => (w.forest.brings v).map .node) w.taskCount := by
    rw [Expression.slot_mem_pieces, hlate]
    rintro (hlt | ⟨v, -, hin⟩)
    · omega
    · simp at hin
  rw [hpieces] at hdraws hslot
  have hbrings : ∀ v ∈ e.heldNodes, ∀ c ∈ w.forest.brings v, .node c ∈ e.flattening w.forest :=
    fun v hv c hc => Expression.node_mem_flattening e hv hc
  have hunrolled : e.unrolled w.forest n = e.flattening w.forest := by
    cases e with
    | empty => exact absurd rfl hne
    | _ => rfl
  have hre : Rearranges w.forest g :=
    rearranges_applyTo e he hk (happly (fun _ _ => none) (fun _ _ _ => none))
  refine ⟨g, ns, fun run => happly run (bind run), ?_, fun {as bs} hc => ?_, fun {v} hv hfr => ?_,
    fun {m} hm hkeeps => ?_, fun hm => hr.link_eq hf hn hre hp (fun v hv c hc => ?_) hm, hre,
    hr.sound⟩
  · rw [hunrolled]
    exact hdraws.stands hf hr hn hp hout hbrings hslot
  · obtain ⟨has, hbs⟩ := hf.notMem_of_children_eq hc
    rw [hr.children_eq, if_neg hp, hc, replaced_append_cons has hbs]
  · rw [hr.children_eq, if_pos (hdraws.mem_drained_iff.2 ⟨hv, hfr⟩)]
  · have hm' : m ∉ drained := fun hin =>
      hkeeps (hdraws.mem_drained_iff.1 hin).1 (hdraws.mem_drained_iff.1 hin).2
    rw [hr.children_eq, if_neg hm', replaced_of_not_mem]
    exact fun hin => hm (Option.some.inj ((hf.mem_children_iff.1 hin).symm.trans hn))
  · obtain ⟨hheld, hfr⟩ := hdraws.mem_drained_iff.1 hv
    have hin : c ∈ w.forest.brings v := by rwa [brings, if_pos hfr]
    exact (List.of_mem_zip (hdraws.exists_zip_of_node_mem (hbrings v hheld c hin))).1

end Comment

/-- A list with a comment and an item, a fragment with two nodes, another item, and a fragment with
nothing in it. -/
def markedList : List Operation :=
  [.element "ul", .comment "here", .element "li", .append 0 1, .append 0 2, .fragment, .text "b",
    .comment "", .append 3 4, .append 3 5, .element "li", .fragment]

/-- A list with lists in it, one of them without items. -/
def nestedValue : Expression :=
  .iterable [.text "a", .iterable [], .node 3, .empty, .iterable [.node 6, .node 7, .bigint 8]]

theorem exists_unrolls_nestedValue :
    ∃ g ns, (∀ run, apply run nestedValue 1
          ((World.fresh "").setForest (Forest.empty.performAll markedList)) =
        some (.ok (), (World.fresh "").setForest g)) ∧
      Unrolls (Forest.empty.performAll markedList) g 0 1 nestedValue ns ∧
      nestedValue.unrolled (Forest.empty.performAll markedList) 1 =
        [.text "a", .node 4, .node 5, .blank, .node 6, .text "8"] := by
  have hf : (Forest.empty.performAll markedList).Sound := Sound.empty.performAll (by decide +kernel)
  have he : nestedValue.Immediate := by
    simp [nestedValue, Expression.Immediate, Expression.ImmediateAll]
  have hfree : ∀ v ∈ nestedValue.heldNodes, (Forest.empty.performAll markedList).Free 0 v := by
    intro v hv
    have hmem : v = 3 ∨ v = 6 ∨ v = 7 := by
      simpa [nestedValue, Expression.heldNodes, Expression.heldNodesAll] using hv
    rcases hmem with rfl | rfl | rfl
    · exact ⟨by decide +kernel, by decide +kernel, by decide +kernel,
        fun h => absurd (hf.contains_iff.2 h) (by decide +kernel)⟩
    · exact ⟨by decide +kernel, by decide +kernel, by decide +kernel,
        fun h => absurd (hf.contains_iff.2 h) (by decide +kernel)⟩
    · exact ⟨by decide +kernel, by decide +kernel, by decide +kernel,
        fun h => absurd (hf.contains_iff.2 h) (by decide +kernel)⟩
  obtain ⟨g, ns, happly, hunrolls⟩ :=
    exists_unrolls (w := (World.fresh "").setForest (Forest.empty.performAll markedList)) (n := 1)
      (p := 0) he hf (by decide +kernel) (by decide +kernel) (by decide) hfree
  exact ⟨g, ns, happly, hunrolls, by decide +kernel⟩

end Run

end LiveMarkup
