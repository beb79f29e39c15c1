import LiveMarkup.Proofs.Run.Drawing

/-!
# Accounts of screens

`Screens.Shows` says that a world is what the account of its screens says.  Putting a value in the
place of a comment on a screen, mounting a value and saving the screen lead to worlds that are again
what the account says: `Shows.exists_fill`, `Shows.exists_mount` and `Shows.save`.
-/

namespace LiveMarkup

open Forest

variable {m : Mount} {s : Screens} {w w' : World} {f g : Forest} {k : ℕ} {l n p q v : NodeId}
  {x : Piece} {e : Expression} {ps : List Program}

/-! ### Pieces and nodes -/

/-- A piece in the middle of what nodes stand for belongs to a node in the middle. -/
theorem exists_append_of_forall₂ {α β : Type} {R : α → β → Prop} {ls : List α}
    {before after : List β} {y : β} (h : List.Forall₂ R ls (before ++ y :: after)) :
    ∃ as a bs, ls = as ++ a :: bs ∧
      List.Forall₂ R as before ∧ R a y ∧ List.Forall₂ R bs after := by
  induction before generalizing ls with
  | nil =>
    obtain ⟨a, bs, hay, hbs, rfl⟩ := List.forall₂_cons_right_iff.1 h
    exact ⟨[], a, bs, rfl, .nil, hay, hbs⟩
  | cons b before ih =>
    obtain ⟨c, cs, hcb, hcs, rfl⟩ := List.forall₂_cons_right_iff.1 h
    obtain ⟨as, a, bs, rfl, has, hay, hbs⟩ := ih hcs
    exact ⟨c :: as, a, bs, rfl, .cons hcb has, hay, hbs⟩

/-- Where a slot is among the pieces, its value is awaited. -/
theorem exists_awaits_of_forall₂ {ls : List NodeId} {cells : List Piece}
    (h : List.Forall₂ w.Depicts ls cells) (hk : .slot k ∈ cells) : ∃ n ∈ ls, w.Awaits k n := by
  obtain ⟨before, after, rfl⟩ := List.append_of_mem hk
  obtain ⟨as, n, bs, rfl, -, hn, -⟩ := exists_append_of_forall₂ h
  exact ⟨n, List.mem_append_right _ List.mem_cons_self, hn⟩

/-- No slot of a task is where its comment is not. -/
theorem not_mem_of_forall₂ {ls : List NodeId} {cells : List Piece}
    (h : List.Forall₂ w.Depicts ls cells) (hn : w.taskTarget? k = some n) (hout : n ∉ ls) :
    .slot k ∉ cells := fun hk => by
  obtain ⟨l, hl, hawaits⟩ := exists_awaits_of_forall₂ h hk
  exact hout (Option.some.inj (hn.symm.trans hawaits.target_eq) ▸ hl)

/-- A slot whose value is to take the place of a node is the piece that the node stands for. -/
theorem slot_eq_of_middle {as bs : List NodeId} {before after : List Piece}
    (has : List.Forall₂ w.Depicts as before) (hbs : List.Forall₂ w.Depicts bs after)
    (hd : (as ++ n :: bs).Nodup) (hn : w.taskTarget? k = some n)
    (hk : .slot k ∈ before ++ x :: after) : .slot k = x := by
  have hout : n ∉ as ++ bs := (List.nodup_middle.1 hd).notMem
  rw [List.mem_append, not_or] at hout
  rcases List.mem_append.1 hk with hk | hk
  · exact absurd hk (not_mem_of_forall₂ has hn hout.1)
  · exact (List.mem_cons.1 hk).resolve_right (not_mem_of_forall₂ hbs hn hout.2)

namespace Screens

/-- The world is what the account says: the container has its class, each node stands for the piece
that the account has in its place, and the values that are to come are awaited at different comments
that are on the screens or have no parent. -/
structure Shows (m : Mount) (s : Screens) (w : World) : Prop where
  sound : w.forest.Sound
  isElement : (w.forest.kind m.container).isElement = true
  class_eq : w.forest.attrValue m.container "class" = s.cls
  kind_saved {p : NodeId} : p ∈ s.saved → w.forest.kind p = .fragment
  depicts {p : NodeId} : p ∈ s.places m → List.Forall₂ w.Depicts (w.forest.children p) (s.cells p)
  mem_due {k : ℕ} : s.Shown m k → k ∈ s.due
  awaits {k : ℕ} : k ∈ s.due →
    ∃ n, w.Awaits k n ∧ (w.forest.parent n = none ∨ s.Shown m k)
  target_inj {j k : ℕ} : j ∈ s.due → k ∈ s.due → w.taskTarget? j = w.taskTarget? k → j = k
  hidden {k : ℕ} : k ∈ s.discarded → k < w.taskCount ∧ ¬ s.Shown m k

/-- A value can take a place at `p`: it consists of nothing, texts, nodes, lists and values that
come later, and its nodes can be put there and differ. -/
structure Admits (w : World) (p : NodeId) (e : Expression) : Prop where
  showable : e.Showable
  nodup : e.heldNodes.Nodup
  free {v : NodeId} : v ∈ e.heldNodes → w.forest.Free p v

/-- The comment `n` stands for the piece `x` at `p`, and no other node there does. -/
structure Spot (m : Mount) (s : Screens) (w : World) (p n : NodeId) (x : Piece) : Prop where
  place : p ∈ s.places m
  vacant : w.forest.Vacant p n
  depicts : w.Depicts n x
  exists_middle : ∃ as bs before after, w.forest.children p = as ++ n :: bs ∧
    s.cells p = before ++ x :: after ∧ x ∉ before ∧ x ∉ after ∧
    List.Forall₂ w.Depicts as before ∧ List.Forall₂ w.Depicts bs after

/-- The nodes `ns`, which stand for a value, have come in the place of `n` at `p`.  The other places
have not changed, but that the fragments that the value held are empty. -/
structure Lands (m : Mount) (s : Screens) (w w' : World) (p n : NodeId) (ns : List NodeId)
    (e : Expression) : Prop where
  mem_children : n ∈ w.forest.children p
  depicts : List.Forall₂ w'.Depicts ns (e.pieces (s.inside w) w.taskCount)
  children_place : w'.forest.children p = replaced n ns (w.forest.children p)
  children_eq {q : NodeId} : q ∈ s.places m → q ≠ p → w'.forest.children q =
    if q ∈ s.saved ∧ q ∈ e.heldNodes then [] else w.forest.children q
  class_eq : w'.forest.attrValue m.container "class" = w.forest.attrValue m.container "class"

/-- What happens leaves the screens alone: the container and the saved fragments keep their
children, and these and the comments that are awaited stay what they are. -/
structure Untouched (m : Mount) (s : Screens) (w w' : World) : Prop where
  sound : w'.forest.Sound
  size_le : w.forest.size ≤ w'.forest.size
  kind_eq {n : NodeId} : n < w.forest.size → w'.forest.kind n = w.forest.kind n
  class_eq : w'.forest.attrValue m.container "class" = w.forest.attrValue m.container "class"
  children_eq {p : NodeId} : p ∈ s.places m → w'.forest.children p = w.forest.children p
  data_eq {p n : NodeId} : p ∈ s.places m → n ∈ w.forest.children p →
    w'.forest.data n = w.forest.data n
  awaited {k : ℕ} {n : NodeId} : k ∈ s.due → w.taskTarget? k = some n →
    w'.forest.data n = w.forest.data n ∧ w'.forest.parent n = w.forest.parent n
  target_eq {k : ℕ} {n : NodeId} : w.taskTarget? k = some n → w'.taskTarget? k = some n
  taskCount_le : w.taskCount ≤ w'.taskCount

theorem Admits.ne (ha : Admits w p e) : p ∉ e.heldNodes := fun hin => (ha.free hin).ne rfl

theorem Spot.mem_cells (ht : s.Spot m w p n x) : x ∈ s.cells p := by
  obtain ⟨as, bs, before, after, -, hcells, -⟩ := ht.exists_middle
  rw [hcells]
  exact List.mem_append_right _ List.mem_cons_self

namespace Shows

variable (hs : s.Shows m w)

include hs

theorem container_not_mem : m.container ∉ s.saved := fun hin => by
  have helement := hs.isElement
  rw [hs.kind_saved hin] at helement
  cases helement

theorem lt_size (hp : p ∈ s.places m) : p < w.forest.size := by
  rcases List.mem_cons.1 hp with rfl | hp
  · exact lt_size_of_isElement hs.isElement
  · exact lt_size_of_holdsChildren (by rw [hs.kind_saved hp]; rfl)

/-- The slot of a task is at the comment where its value is awaited. -/
theorem exists_awaits (hp : p ∈ s.places m) (hk : .slot k ∈ s.cells p) :
    ∃ n, w.Awaits k n ∧ w.forest.parent n = some p := by
  obtain ⟨n, hin, hn⟩ := exists_awaits_of_forall₂ (hs.depicts hp) hk
  exact ⟨n, hn, hs.sound.mem_children_iff.1 hin⟩

theorem place_unique (hp : p ∈ s.places m) (hq : q ∈ s.places m) (hkp : .slot k ∈ s.cells p)
    (hkq : .slot k ∈ s.cells q) : q = p := by
  obtain ⟨n, hn, hparent⟩ := hs.exists_awaits hp hkp
  obtain ⟨n', hn', hparent'⟩ := hs.exists_awaits hq hkq
  obtain rfl : n = n' := Option.some.inj (hn.target_eq.symm.trans hn'.target_eq)
  exact Option.some.inj (hparent'.symm.trans hparent)

/-- The comments of different tasks stay different. -/
theorem target_inj_of_kept {j : ℕ}
    (hkeep : ∀ {k : ℕ} {l : NodeId}, w.taskTarget? k = some l → w'.taskTarget? k = some l)
    (hj : j ∈ s.due) (hk : k ∈ s.due) (h : w'.taskTarget? j = w'.taskTarget? k) : j = k := by
  obtain ⟨l, hl, -⟩ := hs.awaits hj
  obtain ⟨l', hl', -⟩ := hs.awaits hk
  rw [hkeep hl.target_eq, hkeep hl'.target_eq] at h
  exact hs.target_inj hj hk (hl.target_eq.trans (h.trans hl'.target_eq.symm))

/-- What leaves the screens alone leaves the account right. -/
theorem untouched (hu : s.Untouched m w w') : s.Shows m w' := by
  have hlt {p : NodeId} (hp : p ∈ s.places m) := hs.lt_size hp
  refine ⟨hu.sound, ?_, hu.class_eq.trans hs.class_eq, fun {p} hp => ?_, fun {p} hp => ?_,
    hs.mem_due, fun {k} hk => ?_, hs.target_inj_of_kept hu.target_eq, fun {k} hk => ?_⟩
  · rw [hu.kind_eq (hlt List.mem_cons_self)]
    exact hs.isElement
  · rw [hu.kind_eq (hlt (List.mem_cons_of_mem _ hp))]
    exact hs.kind_saved hp
  · rw [hu.children_eq hp]
    have hboth := (List.forall₂_and_left _ _).2 ⟨fun l hl => hu.data_eq hp hl, hs.depicts hp⟩
    refine hboth.imp fun l x hl => ?_
    exact hl.2.congr hu.size_le hu.kind_eq (fun _ => hl.1) fun _ => hu.target_eq
  · obtain ⟨n, hn, hwhere⟩ := hs.awaits hk
    obtain ⟨hdata, hparent⟩ := hu.awaited hk hn.target_eq
    refine ⟨n, hn.congr hu.size_le (hu.kind_eq hn.lt_size) hdata (hu.target_eq hn.target_eq), ?_⟩
    rwa [hparent]
  · obtain ⟨hk, hout⟩ := hs.hidden hk
    exact ⟨hk.trans_le hu.taskCount_le, hout⟩

theorem waiting?_eq (hk : k ∈ s.due) (hn : w.taskTarget? k = some n) : s.waiting? w n = some k := by
  rcases hj : s.waiting? w n with _ | j
  · exact absurd hn (by simpa using List.find?_eq_none.1 hj k hk)
  · obtain ⟨hjdue, hjn⟩ := of_waiting?_eq_some hj
    rw [hs.target_inj hjdue hk (hjn.trans hn.symm)]

/-! ### A value takes a place -/

/-- Each node stands for the pieces that it brings. -/
theorem depicts_inside (v : NodeId) :
    List.Forall₂ w.Depicts (w.forest.pickUp v).1 (s.inside w v) := by
  unfold inside
  split_ifs with hv
  · rw [(pickUp_of_fragment (hs.kind_saved hv)).1]
    exact hs.depicts (List.mem_cons_of_mem _ hv)
  · split
    · next k hk =>
      obtain ⟨hk, htarget⟩ := of_waiting?_eq_some hk
      obtain ⟨n, hn, -⟩ := hs.awaits hk
      obtain rfl : n = v := Option.some.inj (hn.target_eq.symm.trans htarget)
      have hpick : (w.forest.pickUp n).1 = [n] := by
        rw [pickUp, if_neg (by simp [hn.kind_eq])]
      rw [hpick]
      exact .cons hn .nil
    · rw [List.forall₂_map_right_iff, List.forall₂_same]
      exact fun _ _ => rfl

theorem offered (ha : Admits w p e) : Run.Offered (s.inside w) w p e.heldNodes :=
  ⟨ha.nodup, ha.free, fun _ => hs.depicts_inside _⟩

omit hs in
/-- Where a slot is on a screen, no other task is awaited at its comment. -/
theorem eq_of_shown {j : ℕ} (hf : w.forest.Sound)
    (hdepicts : ∀ {p : NodeId}, p ∈ s.places m →
      List.Forall₂ w.Depicts (w.forest.children p) (s.cells p))
    (hawaits : ∃ n, w.Awaits k n ∧ (w.forest.parent n = none ∨ s.Shown m k)) (hj : s.Shown m j)
    (htarget : w.taskTarget? j = w.taskTarget? k) : j = k := by
  obtain ⟨p, hp, hj⟩ := hj
  obtain ⟨n, hn, hwhere⟩ := hawaits
  obtain ⟨before, after, hcells⟩ := List.append_of_mem hj
  have hplace := hdepicts hp
  rw [hcells] at hplace
  obtain ⟨as, l, bs, hchildren, has, hl, hbs⟩ := exists_append_of_forall₂ hplace
  have hl : w.Awaits j l := hl
  obtain rfl : l = n := Option.some.inj (hl.target_eq.symm.trans (htarget.trans hn.target_eq))
  have hparent : w.forest.parent l = some p := by
    rw [← hf.mem_children_iff, hchildren]
    exact List.mem_append_right _ List.mem_cons_self
  obtain ⟨q, hq, hk⟩ := hwhere.resolve_left (by rw [hparent]; exact Option.some_ne_none p)
  obtain ⟨l', hl', hk'⟩ := exists_awaits_of_forall₂ (hdepicts hq) hk
  obtain rfl : l = l' := Option.some.inj (hn.target_eq.symm.trans hk'.target_eq)
  obtain rfl : p = q := Option.some.inj (hparent.symm.trans (hf.mem_children_iff.1 hl'))
  have hd := hf.nodup_children p
  rw [hchildren] at hd
  rw [hcells] at hk
  exact (Piece.slot.inj (slot_eq_of_middle has hbs hd hn.target_eq hk)).symm

/-- The slot of a task that is on a screen is at one spot. -/
theorem exists_spot (hp : p ∈ s.places m) (hk : .slot k ∈ s.cells p) :
    ∃ n, w.taskTarget? k = some n ∧ s.Spot m w p n (.slot k) := by
  obtain ⟨before, after, hcells⟩ := List.append_of_mem hk
  have hdepicts := hs.depicts hp
  rw [hcells] at hdepicts
  obtain ⟨as, n, bs, hchildren, has, hn, hbs⟩ := exists_append_of_forall₂ hdepicts
  have hn : w.Awaits k n := hn
  have hnodup := hs.sound.nodup_children p
  rw [hchildren] at hnodup
  have hout : n ∉ as ++ bs := (List.nodup_middle.1 hnodup).notMem
  rw [List.mem_append, not_or] at hout
  have hparent : w.forest.parent n = some p := by
    rw [← hs.sound.mem_children_iff, hchildren]
    exact List.mem_append_right _ List.mem_cons_self
  exact ⟨n, hn.target_eq, hp, ⟨hn.kind_eq, hn.data_eq, hparent⟩, hn, as, bs, before, after,
    hchildren, hcells, not_mem_of_forall₂ has hn.target_eq hout.1,
    not_mem_of_forall₂ hbs hn.target_eq hout.2, has, hbs⟩

section Fill

variable (ht : s.Spot m w p n x) (ha : Admits w p e)

include ht

theorem shown_fill_iff : (s.fill w p x e).Shown m k ↔
    (s.Shown m k ∧ .slot k ≠ x) ∨ .slot k ∈ e.pieces (s.inside w) w.taskCount :=
  shown_fill ht.place ht.mem_cells fun _ hq hkp hkq => hs.place_unique ht.place hq hkp hkq

/-- The slots of new tasks are on a screen. -/
theorem shown_fill_of_new (hk : w.taskCount ≤ k ∧ k < w.taskCount + e.lateCount) :
    (s.fill w p x e).Shown m k :=
  (hs.shown_fill_iff ht).2 (Or.inr ((Expression.slot_mem_pieces e _).2 (Or.inl hk)))

omit hs ht in
theorem mem_due_fill : k ∈ (s.fill w p x e).due ↔
    (k ∈ s.due ∧ .slot k ≠ x) ∨ w.taskCount ≤ k ∧ k < w.taskCount + e.lateCount := by
  simp [fill]

include ha

/-- The slots of a value are new, or their tasks are due already and do not stand where the value
goes. -/
theorem mem_due_of_mem_pieces (hk : .slot k ∈ e.pieces (s.inside w) w.taskCount) :
    k ∈ (s.fill w p x e).due := by
  rw [mem_due_fill]
  rcases (Expression.slot_mem_pieces e _).1 hk with hnew | ⟨v, hv, hk⟩
  · exact Or.inr hnew
  · left
    rcases slot_mem_inside.1 hk with ⟨hsaved, hk⟩ | ⟨-, hk⟩
    · have hplace : v ∈ s.places m := List.mem_cons_of_mem _ hsaved
      refine ⟨hs.mem_due ⟨v, hplace, hk⟩, ?_⟩
      rintro rfl
      exact ha.ne (hs.place_unique ht.place hplace ht.mem_cells hk ▸ hv)
    · obtain ⟨hk, htarget⟩ := of_waiting?_eq_some hk
      refine ⟨hk, ?_⟩
      rintro rfl
      have hn : w.Awaits k n := ht.depicts
      obtain rfl : n = v := Option.some.inj (hn.target_eq.symm.trans htarget)
      exact absurd (ht.vacant.parent_eq.symm.trans (ha.free hv).parent_eq) (Option.some_ne_none p)

variable {ns drained : List NodeId} (hr : Redraws w.forest g n ns drained)
  (hd : Run.Draws w e.heldNodes g ps ns drained (e.pieces (s.inside w) w.taskCount))

include hr hd

/-- What is drawn in the place of a comment lands there. -/
theorem lands : s.Lands m w (w.drawn g ps) p n ns e := by
  have hsound := hs.sound
  refine ⟨hsound.mem_children_iff.2 ht.vacant.parent_eq, hd.depicts, ?_, fun {q} hq hqp => ?_, ?_⟩
  · rw [World.forest_drawn, hr.children_eq, if_neg (Run.not_mem_drained (hs.offered ha) hd)]
  · have hdrained : q ∈ drained ↔ q ∈ s.saved ∧ q ∈ e.heldNodes := by
      rw [hd.mem_drained_iff, and_comm]
      refine and_congr_left fun hin => ⟨fun hkind => ?_, hs.kind_saved⟩
      refine (List.mem_cons.1 hq).resolve_left fun hcontainer => ?_
      have helement := hs.isElement
      rw [← hcontainer, hkind] at helement
      cases helement
    have hnq : n ∉ w.forest.children q := fun hin =>
      hqp (Option.some.inj ((hsound.mem_children_iff.1 hin).symm.trans ht.vacant.parent_eq))
    rw [World.forest_drawn, hr.children_eq, replaced_of_not_mem hnq]
    simp only [hdrained]
  · exact hsound.attrValue_eq (hr.attributes_eq (hs.lt_size List.mem_cons_self)) hr.kind_eq
      hr.data_eq "class"

/-- The places after a value has landed. -/
theorem depicts_fill (hq : q ∈ s.places m) : List.Forall₂ (w.drawn g ps).Depicts
    ((w.drawn g ps).forest.children q) ((s.fill w p x e).cells q) := by
  have hl := hs.lands ht ha hr hd
  simp only [fill]
  by_cases hqp : q = p
  · subst hqp
    obtain ⟨as, bs, before, after, hchildren, hcells, hbefore, hafter, has, hbs⟩ :=
      ht.exists_middle
    have hnodup := hs.sound.nodup_children q
    rw [hchildren] at hnodup
    have hout : n ∉ as ++ bs := (List.nodup_middle.1 hnodup).notMem
    rw [List.mem_append, not_or] at hout
    have hreplaced : replaced n ns (as ++ n :: bs) = as ++ ns ++ bs := by
      have hcons : n :: bs = [n] ++ bs := rfl
      rw [hcons, replaced_append, replaced_append, replaced_singleton,
        replaced_of_not_mem hout.1, replaced_of_not_mem hout.2, List.append_assoc]
    rw [if_pos rfl, hl.children_place, hchildren, hreplaced, hcells,
      Piece.swap_append hbefore hafter]
    exact List.rel_append (List.rel_append (has.imp fun _ _ hl => hl.drawn hr ps) hl.depicts)
      (hbs.imp fun _ _ hl => hl.drawn hr ps)
  · rw [if_neg hqp, hl.children_eq hq hqp]
    split_ifs
    · exact .nil
    · exact (hs.depicts hq).imp fun _ _ hl => hl.drawn hr ps

/-- The value of a task is awaited where it was, or where the new value has its slot. -/
theorem awaits_fill (hk : k ∈ (s.fill w p x e).due) : ∃ l, (w.drawn g ps).Awaits k l ∧
    ((w.drawn g ps).forest.parent l = none ∨ (s.fill w p x e).Shown m k) := by
  rcases mem_due_fill.1 hk with ⟨hk, hkx⟩ | hk
  · obtain ⟨l, hl, hwhere⟩ := hs.awaits hk
    refine ⟨l, hl.congr hr.size_le (hr.kind_eq hl.lt_size) (hr.data_eq hl.lt_size)
      (World.taskTarget?_append (w.programs_drawn g ps) hl.target_eq), ?_⟩
    rw [hs.shown_fill_iff ht]
    rcases hwhere with hnone | hk
    · by_cases hin : l ∈ ns
      · have hheld := hd.held_of_parent_eq_none hin hl.lt_size hnone
        have hsaved : l ∉ s.saved := fun hin =>
          absurd ((hs.kind_saved hin).symm.trans hl.kind_eq) nofun
        have hslot : .slot k ∈ s.inside w l :=
          slot_mem_inside.2 (Or.inr ⟨hsaved, hs.waiting?_eq hk hl.target_eq⟩)
        exact Or.inr (Or.inr ((Expression.slot_mem_pieces e _).2 (Or.inr ⟨l, hheld, hslot⟩)))
      · exact Or.inl (hr.parent_eq_none hs.sound hnone hin)
    · exact Or.inr (Or.inl ⟨hk, hkx⟩)
  · obtain ⟨q, hq, hkq⟩ := hs.shown_fill_of_new ht hk
    obtain ⟨l, -, hl⟩ := exists_awaits_of_forall₂ (hs.depicts_fill ht ha hr hd hq) hkq
    exact ⟨l, hl, Or.inr ⟨q, hq, hkq⟩⟩

theorem target_inj_fill {j : ℕ} (hj : j ∈ (s.fill w p x e).due) (hk : k ∈ (s.fill w p x e).due)
    (hjk : (w.drawn g ps).taskTarget? j = (w.drawn g ps).taskTarget? k) : j = k := by
  have hshown {i l : ℕ} (hi : w.taskCount ≤ i ∧ i < w.taskCount + e.lateCount)
      (hl : l ∈ (s.fill w p x e).due)
      (hil : (w.drawn g ps).taskTarget? i = (w.drawn g ps).taskTarget? l) : i = l :=
    eq_of_shown (w := w.drawn g ps) hr.sound (hs.depicts_fill ht ha hr hd)
      (hs.awaits_fill ht ha hr hd hl) (hs.shown_fill_of_new ht hi) hil
  rcases mem_due_fill.1 hj with ⟨hj', -⟩ | hj'
  · rcases mem_due_fill.1 hk with ⟨hk', -⟩ | hk'
    · exact hs.target_inj_of_kept (World.taskTarget?_append (w.programs_drawn g ps)) hj' hk' hjk
    · exact (hshown hk' hj hjk.symm).symm
  · exact hshown hj' hk hjk

/-- The account is right after a value has landed. -/
theorem fill : (s.fill w p x e).Shows m (w.drawn g ps) := by
  refine ⟨hr.sound, ?_, (hs.lands ht ha hr hd).class_eq.trans hs.class_eq, fun {q} hq => ?_,
    hs.depicts_fill ht ha hr hd, fun {k} hk => ?_, hs.awaits_fill ht ha hr hd,
    hs.target_inj_fill ht ha hr hd, fun {k} hk => ?_⟩
  · rw [World.forest_drawn, hr.kind_eq (hs.lt_size List.mem_cons_self)]
    exact hs.isElement
  · rw [World.forest_drawn, hr.kind_eq (hs.lt_size (List.mem_cons_of_mem _ hq))]
    exact hs.kind_saved hq
  · rcases (hs.shown_fill_iff ht).1 hk with ⟨hk, hkx⟩ | hk
    · exact mem_due_fill.2 (Or.inl ⟨hs.mem_due hk, hkx⟩)
    · exact hs.mem_due_of_mem_pieces ht ha hk
  · obtain ⟨hk, hkpieces⟩ := List.mem_filter.1 hk
    obtain ⟨hlt, hout⟩ := hs.hidden hk
    refine ⟨hlt.trans_le (by rw [World.taskCount_drawn]; omega), fun h => ?_⟩
    rcases (hs.shown_fill_iff ht).1 h with ⟨hk, -⟩ | hk
    · exact hout hk
    · exact absurd hk (of_decide_eq_true hkpieces)

omit hr hd in
/-- A value that is bound to a comment on a screen takes the place of the comment, and the account
says where. -/
theorem exists_fill :
    ∃ g ps ns, (∀ (run : Runner) (binding : Binding → NodeId → Activity (Except RenderFault Unit)),
        Run.applyTo run binding n e w = some (.ok (), w.drawn g ps)) ∧
      s.Lands m w (w.drawn g ps) p n ns e ∧ (s.fill w p x e).Shows m (w.drawn g ps) := by
  obtain ⟨g, ps, ns, drained, happly, -, hr, hd⟩ :=
    Run.exists_draws e ha.showable hs.sound ht.vacant (hs.offered ha)
  exact ⟨g, ps, ns, happly, hs.lands ht ha hr hd, hs.fill ht ha hr hd⟩

end Fill

end Shows

/-! ### A screen is mounted -/

theorem fill_congr (hcount : w'.taskCount = w.taskCount)
    (h : ∀ v ∈ e.heldNodes, s.inside w' v = s.inside w v) : s.fill w' p x e = s.fill w p x e := by
  rw [fill, fill, hcount, e.pieces_congr _ h]

theorem Untouched.of_extends (hs : s.Shows m w) (he : w.Extends w' ps) : s.Untouched m w w' := by
  have hcontainer : m.container < w.forest.size := lt_size_of_isElement hs.isElement
  have hkind {n : NodeId} (hn : n < w.forest.size) : w'.forest.kind n = w.forest.kind n := by
    rw [kind, he.cell_eq hn, kind]
  have hdata {n : NodeId} (hn : n < w.forest.size) : w'.forest.data n = w.forest.data n := by
    rw [data, he.cell_eq hn, data]
  refine ⟨he.sound, he.size_le, hkind, ?_, fun {p} hp => ?_, fun {p n} hp hn => ?_,
    fun {k n} hk hn => ?_, World.taskTarget?_append he.programs_eq, ?_⟩
  · refine hs.sound.attrValue_eq ?_ hkind hdata "class"
    rw [attributes, he.cell_eq hcontainer, attributes]
  · rw [children, he.cell_eq (hs.lt_size hp), children]
  · exact hdata (lt_size_of_parent (hs.sound.mem_children_iff.1 hn))
  · obtain ⟨n', hn', -⟩ := hs.awaits hk
    obtain rfl : n' = n := Option.some.inj (hn'.target_eq.symm.trans hn)
    refine ⟨hdata hn'.lt_size, ?_⟩
    rw [parent, hkind hn'.lt_size, he.cell_eq hn'.lt_size, parent]
  · have hsize := congrArg Array.size he.programs_eq
    rw [Array.size_append] at hsize
    exact (Nat.le_add_right _ _).trans_eq hsize.symm

namespace Shows

variable (hs : s.Shows m w)

include hs

theorem extend (he : w.Extends w' ps) : s.Shows m w' := hs.untouched (.of_extends hs he)

theorem of_eq (hforest : w'.forest = w.forest)
    (hprograms : w'.tasks.scheduler.programs = w.tasks.scheduler.programs) : s.Shows m w' :=
  hs.extend (.of_eq hs.sound hforest hprograms)

variable {cls : String}

/-- What has been in the container has no parent after the container has been cleared. -/
theorem clear (hc : w.forest.Cleared g m.container cls n) :
    (s.clear m cls).Shows m (w.setForest g) := by
  have hsound := hs.sound
  have hcontainer := hs.container_not_mem
  have hlt {p : NodeId} (hp : p ∈ s.places m) : p < w.forest.size := hs.lt_size hp
  have hdata {l : NodeId} (hl : l < w.forest.size) (ha : ¬ (w.forest.kind l).isAttr = true) :
      g.data l = w.forest.data l :=
    hc.data_eq hl fun hnode =>
      ha (hsound.isAttr_of_mem_attributes (Sound.of_attrNode_eq_some hnode).1)
  refine ⟨hc.sound, ?_, hc.attrValue_class, fun {p} hp => ?_, fun {p} hp => ?_, fun {k} hk => ?_,
    fun {k} hk => ?_, hs.target_inj, fun {k} hk => ?_⟩
  · rw [Run.forest_setForest, hc.kind_eq (hlt List.mem_cons_self)]
    exact hs.isElement
  · rw [Run.forest_setForest, hc.kind_eq (hlt (List.mem_cons_of_mem _ hp))]
    exact hs.kind_saved hp
  · rcases List.mem_cons.1 hp with rfl | hp
    · have hcells : (s.clear m cls).cells m.container = [.blank] := Function.update_self _ _ _
      rw [Run.forest_setForest, hc.children_container, hcells]
      exact .cons ⟨hc.lt_size, hc.kind_placeholder, hc.data_placeholder⟩ .nil
    · have hne : p ≠ m.container := fun e => hcontainer (e ▸ hp)
      have hcells : (s.clear m cls).cells p = s.cells p := Function.update_of_ne hne _ _
      have hplace : p ∈ s.places m := List.mem_cons_of_mem _ hp
      rw [Run.forest_setForest, hc.children_eq hne, hcells]
      have hchild : ∀ l ∈ w.forest.children p, ¬ (w.forest.kind l).isAttr = true := fun l hl =>
        not_isAttr_of_parent (hsound.mem_children_iff.1 hl)
      have hboth := (List.forall₂_and_left _ _).2 ⟨hchild, hs.depicts hplace⟩
      refine hboth.imp fun l x hl => ?_
      exact hl.2.congr (hc.size_le.trans hc.lt_size.le) hc.kind_eq (fun h => hdata h hl.1)
        fun _ hk => hk
  · rw [shown_clear hcontainer] at hk
    obtain ⟨p, hp, hk⟩ := hk
    exact hs.mem_due ⟨p, List.mem_cons_of_mem _ hp, hk⟩
  · obtain ⟨l, hl, hwhere⟩ := hs.awaits hk
    have hattr : ¬ (w.forest.kind l).isAttr = true := by simp [hl.kind_eq, Kind.isAttr]
    refine ⟨l, hl.congr (hc.size_le.trans hc.lt_size.le) (hc.kind_eq hl.lt_size)
      (hdata hl.lt_size hattr) hl.target_eq, ?_⟩
    rw [shown_clear hcontainer, Run.forest_setForest]
    by_cases hin : w.forest.parent l = some m.container
    · exact Or.inl (hc.parent_of_child hin)
    · refine hwhere.imp (fun hnone => (hc.parent_eq hl.lt_size hin).trans hnone) ?_
      rintro ⟨p, hp, hk⟩
      obtain ⟨l', hl', hparent⟩ := hs.exists_awaits hp hk
      obtain rfl : l = l' := Option.some.inj (hl.target_eq.symm.trans hl'.target_eq)
      refine ⟨p, (List.mem_cons.1 hp).resolve_left fun e => hin (e ▸ hparent), hk⟩
  · have hcount : (w.setForest g).taskCount = w.taskCount := rfl
    rw [shown_clear hcontainer, hcount]
    rcases List.mem_append.1 hk with hk | hk
    · obtain ⟨hlt, hout⟩ := hs.hidden hk
      exact ⟨hlt, fun ⟨p, hp, hk⟩ => hout ⟨p, List.mem_cons_of_mem _ hp, hk⟩⟩
    · have hk : .slot k ∈ s.cells m.container := Piece.mem_tasks.1 hk
      obtain ⟨l, hl, -⟩ := hs.exists_awaits List.mem_cons_self hk
      refine ⟨World.lt_taskCount hl.target_eq, fun ⟨p, hp, hkp⟩ => hcontainer ?_⟩
      exact hs.place_unique List.mem_cons_self (List.mem_cons_of_mem _ hp) hk hkp ▸ hp

/-- A value that can take a place in the container still can after it has been cleared. -/
theorem admits_clear (hc : w.forest.Cleared g m.container cls n)
    (ha : Admits w m.container e) : Admits (w.setForest g) m.container e := by
  have hsound := hs.sound
  refine ⟨ha.showable, ha.nodup, fun {v} hv => ?_⟩
  have hfree := ha.free hv
  have hlt : v < w.forest.size := hfree.lt_size
  refine ⟨hlt.trans (hc.size_le.trans_lt hc.lt_size), ?_, ?_, fun habove => hfree.not_above ?_⟩
  · rw [Run.forest_setForest, hc.kind_eq hlt]
    exact hfree.not_isAttr
  · rw [Run.forest_setForest, hc.parent_eq hlt (by rw [hfree.parent_eq]; exact nofun)]
    exact hfree.parent_eq
  · refine above_of_parent_to (fun l q hl => ?_) habove
    by_cases hq : q = m.container
    · exact Or.inl hq
    · have hin : l ∈ g.children q := hc.sound.mem_children_iff.2 hl
      rw [hc.children_eq hq] at hin
      exact Or.inr (hsound.mem_children_iff.1 hin)

/-- A value that can take a place in the container is mounted, and the account says what the
container then shows. -/
theorem exists_mount (ha : Admits w m.container e) (cls : Option String) (fuel : ℕ) :
    ∃ w', Run.mountAt (Run.run (fuel + 1)) m e cls w = some (.ok (), w') ∧
      (s.mount m w e cls).Shows m w' := by
  obtain ⟨placeholder, g, hc, hmount⟩ :=
    Run.mountAt_of_isElement (Run.run (fuel + 1)) e cls hs.sound hs.isElement
  let s₁ := s.clear m (cls.getD m.defaultClass)
  let w₁ := (w.setForest g).holding (placeholder :: m.container :: e.heldNodes)
  have hcleared : s₁.Shows m w₁ := (hs.clear hc).of_eq rfl rfl
  have hparent : g.parent placeholder = some m.container := by
    rw [← hc.sound.mem_children_iff, hc.children_container]
    exact List.mem_singleton_self placeholder
  have hspot : s₁.Spot m w₁ m.container placeholder .blank :=
    ⟨List.mem_cons_self, ⟨hc.kind_placeholder, hc.data_placeholder, hparent⟩,
      ⟨hc.lt_size, hc.kind_placeholder, hc.data_placeholder⟩, [], [], [], [],
      hc.children_container, Function.update_self _ _ _, List.not_mem_nil, List.not_mem_nil,
      .nil, .nil⟩
  have hadmits : Admits w₁ m.container e :=
    have h := hs.admits_clear hc ha
    ⟨h.showable, h.nodup, h.free⟩
  obtain ⟨g', ps, -, happly, -, hshows⟩ := hcleared.exists_fill hspot hadmits
  have hinside : ∀ v ∈ e.heldNodes, s₁.inside w₁ v = s₁.inside w v := fun v hv => by
    have hfree := ha.free hv
    have hpick : (g.pickUp v).1 = (w.forest.pickUp v).1 := by
      unfold pickUp
      rw [hc.kind_eq hfree.lt_size]
      split_ifs
      · rw [fst_takeChildren, fst_takeChildren, hc.children_eq hfree.ne.symm]
      · rfl
    have hwaiting : s₁.waiting? w₁ v = s₁.waiting? w v := rfl
    have hforest : w₁.forest = g := rfl
    rw [inside, inside, hwaiting, hforest, hpick]
  have hfill : s₁.fill w₁ m.container .blank e = s.mount m w e cls := fill_congr rfl hinside
  rw [hfill] at hshows
  refine ⟨{ w₁.drawn g' ps with held := (w.setForest g).held }, ?_, hshows.of_eq rfl rfl⟩
  rw [hmount]
  exact Run.holding_eq_some_iff.2 ⟨_, happly _ _, rfl⟩

/-! ### A screen is saved -/

/-- The screen in the container is saved in a new fragment. -/
theorem save : (s.save m w.forest.size).Shows m { w with page := (w.page.save m).2 } := by
  have hsound := hs.sound
  have hcontainer := hs.container_not_mem
  have hcontainer' : m.container < w.forest.size := hs.lt_size List.mem_cons_self
  have hlt {p : NodeId} (hp : p ∈ s.places m) : p < w.forest.size := hs.lt_size hp
  have hfragment : w.forest.size ∉ s.places m := fun hin => absurd (hlt hin) (Nat.lt_irrefl _)
  obtain ⟨hnew, hempty, hold⟩ := cells_save hfragment hcontainer
  have hsaves : Saves w.forest (w.page.save m).2.forest m.container := by
    have h := saves_appendAll hsound m.container
    have hchildren : (w.forest.create .fragment "").2.children m.container =
        w.forest.children m.container := children_create _ _ _ _
    rw [← hchildren] at h
    exact h
  have hkind {l : NodeId} (hl : l < w.forest.size) :
      (w.page.save m).2.forest.kind l = w.forest.kind l := by rw [hsaves.kind_eq, if_neg hl.ne]
  have hsize : w.forest.size ≤ (w.page.save m).2.forest.size := by
    rw [hsaves.size_eq]
    exact Nat.le_succ _
  have hdepicts {l : NodeId} {x : Piece} (hl : w.Depicts l x) :
      ({ w with page := (w.page.save m).2 } : World).Depicts l x :=
    hl.congr hsize hkind hsaves.data_eq fun _ hk => hk
  refine ⟨hsaves.sound, ?_, ?_, fun {p} hp => ?_, fun {p} hp => ?_, fun {k} hk => ?_,
    fun {k} hk => ?_, hs.target_inj, fun {k} hk => ?_⟩
  · exact (congrArg Kind.isElement (hkind hcontainer')).trans hs.isElement
  · exact (hsound.attrValue_eq (hsaves.attributes_eq _) hkind hsaves.data_eq "class").trans
      hs.class_eq
  · rcases List.mem_cons.1 hp with rfl | hp
    · exact (hsaves.kind_eq _).trans (if_pos rfl)
    · exact (hkind (hlt (List.mem_cons_of_mem _ hp))).trans (hs.kind_saved hp)
  · have hchildren := hsaves.children_eq p
    rcases List.mem_cons.1 hp with rfl | hp
    · rw [if_neg hcontainer'.ne, if_pos rfl] at hchildren
      rw [hempty, World.forest, hchildren]
      exact .nil
    · rcases List.mem_cons.1 hp with rfl | hp
      · rw [if_pos rfl] at hchildren
        rw [hnew, World.forest, hchildren]
        exact (hs.depicts List.mem_cons_self).imp fun _ _ => hdepicts
      · have hplace : p ∈ s.places m := List.mem_cons_of_mem _ hp
        have hne : p ≠ m.container := fun e => hcontainer (e ▸ hp)
        rw [if_neg (hlt hplace).ne, if_neg hne] at hchildren
        rw [hold p hp, World.forest, hchildren]
        exact (hs.depicts hplace).imp fun _ _ => hdepicts
  · exact hs.mem_due ((shown_save hfragment hcontainer).1 hk)
  · obtain ⟨l, hl, hwhere⟩ := hs.awaits hk
    exact ⟨l, hl.congr hsize (hkind hl.lt_size) (hsaves.data_eq hl.lt_size) hl.target_eq,
      hwhere.imp (hsaves.parent_eq_none hsound) (shown_save hfragment hcontainer).2⟩
  · obtain ⟨hk, hout⟩ := hs.hidden hk
    exact ⟨hk, fun h => hout ((shown_save hfragment hcontainer).1 h)⟩

end Shows

end Screens

end LiveMarkup
