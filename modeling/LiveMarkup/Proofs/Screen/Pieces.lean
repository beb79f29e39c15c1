import Mathlib.Logic.Function.Basic
import LiveMarkup.Proofs.Forest.Redrawn
import LiveMarkup.Run.Release

/-!
# What stands where on screens

`Screens` keeps account of what the container of a mount and the fragments that its screens have
been saved in show, piece by piece, and of the values that are still to come.  A piece may be the
slot of such a value; wherever the slot stands, in the container or in a fragment, the value takes
its place there (`Screens.complete`), and a value whose slot stands nowhere any more takes no place.
-/

namespace LiveMarkup

/-- What stands at one place of a screen. -/
inductive Piece where
  | text (s : String)
  /-- An empty comment that nothing is to take the place of. -/
  | blank
  | node (n : NodeId)
  /-- The empty comment that the value of a task is to take the place of. -/
  | slot (task : ℕ)
  deriving DecidableEq

namespace Expression

mutual

/-- Whether a value consists of nothing, texts, nodes, lists, and values that come later. -/
def Showable : Expression → Prop
  | empty => True
  | text _ => True
  | number _ => True
  | bigint _ => True
  | node _ => True
  | iterable items => ShowableAll items
  | deferred _ => True
  | function _ => False
  | capability _ _ => False

/-- Whether several values consist of nothing, texts, nodes, lists, and values that come later. -/
def ShowableAll : List Expression → Prop
  | [] => True
  | e :: es => e.Showable ∧ ShowableAll es

end

mutual

/-- The number of parts of a value that come later. -/
def lateCount : Expression → ℕ
  | deferred _ => 1
  | iterable items => lateCountAll items
  | empty => 0
  | text _ => 0
  | number _ => 0
  | bigint _ => 0
  | node _ => 0
  | function _ => 0
  | capability _ _ => 0

/-- The number of parts of several values that come later. -/
def lateCountAll : List Expression → ℕ
  | [] => 0
  | e :: es => e.lateCount + lateCountAll es

end

mutual

/-- What takes the place of a comment that a value is bound to.  A node brings the pieces that are
`inside` it; tasks for parts that come later are numbered from `first` on. -/
def pieces (inside : NodeId → List Piece) (first : ℕ) : Expression → List Piece
  | empty => [.blank]
  | text s => [.text s]
  | number x => [.text x.text]
  | bigint i => [.text (toString i)]
  | node v => inside v
  | iterable items => piecesAll inside first items
  | deferred _ => [.slot first]
  | function _ => []
  | capability _ _ => []

/-- What several values put into the place of a comment, one after the other. -/
def piecesAll (inside : NodeId → List Piece) (first : ℕ) : List Expression → List Piece
  | [] => []
  | e :: es => e.pieces inside first ++ piecesAll inside (first + e.lateCount) es

end

/-- The number of tasks that a value starts where there is no place for it: a list is refused as a
whole. -/
def lateAlone : Expression → ℕ
  | deferred _ => 1
  | _ => 0

theorem lateAlone_le_one (e : Expression) : e.lateAlone ≤ 1 := by
  unfold lateAlone
  split <;> omega

variable {inside inside' : NodeId → List Piece} {k : ℕ}

mutual

theorem pieces_congr : ∀ (e : Expression) (first : ℕ),
    (∀ v ∈ e.heldNodes, inside v = inside' v) → e.pieces inside first = e.pieces inside' first
  | empty, _, _ => rfl
  | text _, _, _ => rfl
  | number _, _, _ => rfl
  | bigint _, _, _ => rfl
  | node v, _, h => h v (List.mem_singleton_self v)
  | iterable items, first, h => piecesAll_congr items first h
  | deferred _, _, _ => rfl
  | function _, _, _ => rfl
  | capability _ _, _, _ => rfl

theorem piecesAll_congr : ∀ (es : List Expression) (first : ℕ),
    (∀ v ∈ heldNodesAll es, inside v = inside' v) →
      piecesAll inside first es = piecesAll inside' first es
  | [], _, _ => rfl
  | e :: es, first, h => by
    rw [piecesAll, piecesAll, pieces_congr e first fun v hv => h v (List.mem_append_left _ hv),
      piecesAll_congr es _ fun v hv => h v (List.mem_append_right _ hv)]

end

mutual

/-- The slots that a value brings are new, or they are inside nodes of the value. -/
theorem slot_mem_pieces : ∀ (e : Expression) (first : ℕ),
    .slot k ∈ e.pieces inside first ↔
      (first ≤ k ∧ k < first + e.lateCount) ∨ ∃ v ∈ e.heldNodes, .slot k ∈ inside v
  | empty, _ => by simp [pieces, lateCount, heldNodes]
  | text _, _ => by simp [pieces, lateCount, heldNodes]
  | number _, _ => by simp [pieces, lateCount, heldNodes]
  | bigint _, _ => by simp [pieces, lateCount, heldNodes]
  | node v, first => by
    simp [pieces, lateCount, heldNodes]
  | iterable items, first => slot_mem_piecesAll items first
  | deferred _, first => by
    have hone : k = first ↔ first ≤ k ∧ k < first + 1 := by omega
    simp [pieces, lateCount, heldNodes, hone]
  | function _, _ => by simp [pieces, lateCount, heldNodes]
  | capability _ _, _ => by simp [pieces, lateCount, heldNodes]

theorem slot_mem_piecesAll : ∀ (es : List Expression) (first : ℕ),
    .slot k ∈ piecesAll inside first es ↔
      (first ≤ k ∧ k < first + lateCountAll es) ∨ ∃ v ∈ heldNodesAll es, .slot k ∈ inside v
  | [], _ => by simp [piecesAll, lateCountAll, heldNodesAll]
  | e :: es, first => by
    rw [piecesAll, List.mem_append, slot_mem_pieces e, slot_mem_piecesAll es, lateCountAll,
      heldNodesAll]
    simp only [List.mem_append, or_and_right, exists_or]
    have hrange : first ≤ k ∧ k < first + (e.lateCount + lateCountAll es) ↔
        (first ≤ k ∧ k < first + e.lateCount) ∨
          first + e.lateCount ≤ k ∧ k < first + e.lateCount + lateCountAll es := by omega
    rw [hrange]
    exact or_or_or_comm

end

end Expression

/-! ### Pieces in place of another one -/

/-- The pieces `new` in place of the piece `x`. -/
def Piece.swap (x : Piece) (new cells : List Piece) : List Piece :=
  cells.flatMap fun y => if y = x then new else [y]

namespace Piece

variable {x y : Piece} {new cells before after : List Piece}

theorem swap_of_not_mem (hx : x ∉ cells) : swap x new cells = cells := by
  have hsame : ∀ y ∈ cells, (if y = x then new else [y]) = [y] := fun y hy =>
    if_neg fun e : y = x => hx (e ▸ hy)
  rw [swap, List.flatMap_congr hsame, List.flatMap_singleton']

theorem swap_append (hbefore : x ∉ before) (hafter : x ∉ after) :
    swap x new (before ++ x :: after) = before ++ new ++ after := by
  have hleft : swap x new before = before := swap_of_not_mem hbefore
  have hright : swap x new after = after := swap_of_not_mem hafter
  rw [swap] at hleft hright
  rw [swap, List.flatMap_append, List.flatMap_cons, if_pos rfl, hleft, hright, List.append_assoc]

theorem mem_swap : y ∈ swap x new cells ↔ y ∈ cells ∧ y ≠ x ∨ x ∈ cells ∧ y ∈ new := by
  rw [swap, List.mem_flatMap]
  constructor
  · rintro ⟨z, hz, hy⟩
    split_ifs at hy with hzx
    · exact Or.inr ⟨hzx ▸ hz, hy⟩
    · obtain rfl := List.mem_singleton.1 hy
      exact Or.inl ⟨hz, hzx⟩
  · rintro (⟨hy, hyx⟩ | ⟨hx, hy⟩)
    · exact ⟨y, hy, by rw [if_neg hyx]; exact List.mem_singleton_self y⟩
    · exact ⟨x, hx, by rwa [if_pos rfl]⟩

/-- The tasks whose slots are among some pieces. -/
def tasks (cells : List Piece) : List ℕ :=
  cells.filterMap fun
    | slot k => some k
    | _ => none

theorem mem_tasks {k : ℕ} : k ∈ tasks cells ↔ slot k ∈ cells := by
  rw [tasks, List.mem_filterMap]
  constructor
  · rintro ⟨x, hx, hk⟩
    cases x with
    | slot j => exact Option.some.inj hk ▸ hx
    | text s => cases hk
    | blank => cases hk
    | node n => cases hk
  · exact fun h => ⟨slot k, h, rfl⟩

end Piece

/-- The number of tasks so far. -/
def World.taskCount (w : World) : ℕ := w.tasks.scheduler.programs.size

/-! ### Screens -/

/-- What is known of the screens of a mount. -/
structure Screens where
  /-- The class of the container, if it has one. -/
  cls : Option String
  /-- What the container and each saved fragment show. -/
  cells : NodeId → List Piece
  /-- The fragments that screens have been saved in. -/
  saved : List NodeId
  /-- The tasks whose values are still to come. -/
  due : List ℕ
  /-- The tasks whose slots were on a screen when another one was mounted in its place, unless their
  comments have been put on a screen again. -/
  discarded : List ℕ

namespace Screens

variable {m : Mount} {s : Screens} {p v : NodeId} {k : ℕ} {w : World}

/-- Nothing is known of what a container shows but its nodes. -/
def start (m : Mount) (w : World) : Screens where
  cls := w.forest.attrValue m.container "class"
  cells := fun p => if p = m.container then (w.forest.children p).map .node else []
  saved := []
  due := []
  discarded := []

/-- Where screens can be: the container and the saved fragments. -/
def places (m : Mount) (s : Screens) : List NodeId := m.container :: s.saved

/-- Whether the slot of a task is somewhere. -/
def Shown (m : Mount) (s : Screens) (k : ℕ) : Prop := ∃ p ∈ s.places m, .slot k ∈ s.cells p

/-- The place where the slot of a task is. -/
def home? (m : Mount) (s : Screens) (k : ℕ) : Option NodeId :=
  (s.places m).find? fun p => Piece.slot k ∈ s.cells p

theorem of_home?_eq_some (h : s.home? m k = some p) : p ∈ s.places m ∧ .slot k ∈ s.cells p :=
  ⟨List.mem_of_find?_eq_some h, by simpa using List.find?_some h⟩

theorem home?_eq_none_iff : s.home? m k = none ↔ ¬ s.Shown m k := by
  simp [home?, Shown]

/-- The task whose value is to take the place of a node. -/
def waiting? (s : Screens) (w : World) (v : NodeId) : Option ℕ :=
  s.due.find? fun k => w.taskTarget? k = some v

theorem of_waiting?_eq_some (h : s.waiting? w v = some k) :
    k ∈ s.due ∧ w.taskTarget? k = some v :=
  ⟨List.mem_of_find?_eq_some h, by simpa using List.find?_some h⟩

/-- What a node brings to the place that it is put in: the screen if one has been saved in it, a
slot if a value is to take the place of the node, otherwise the node itself, or the children of a
fragment. -/
def inside (s : Screens) (w : World) (v : NodeId) : List Piece :=
  if v ∈ s.saved then s.cells v
  else
    match s.waiting? w v with
    | some k => [.slot k]
    | none => (w.forest.pickUp v).1.map .node

/-- A slot that a node brings is on the screen that has been saved in it, or at the node. -/
theorem slot_mem_inside : .slot k ∈ s.inside w v ↔
    (v ∈ s.saved ∧ .slot k ∈ s.cells v) ∨ v ∉ s.saved ∧ s.waiting? w v = some k := by
  by_cases hv : v ∈ s.saved
  · simp [inside, hv]
  · rcases hw : s.waiting? w v with _ | j
    · simp [inside, hv, hw]
    · simp [inside, hv, hw, eq_comm]

/-- A value takes the place of the piece `x` at `p`.  The fragments that it holds are empty
afterwards, and its parts that come later are due. -/
def fill (s : Screens) (w : World) (p : NodeId) (x : Piece) (e : Expression) : Screens :=
  let new := e.pieces (s.inside w) w.taskCount
  { s with
    cells := fun q =>
      if q = p then x.swap new (s.cells p)
      else if q ∈ s.saved ∧ q ∈ e.heldNodes then [] else s.cells q
    due := s.due.filter (.slot · ≠ x) ++ List.range' w.taskCount e.lateCount
    discarded := s.discarded.filter (.slot · ∉ new) }

/-- The container is emptied and gets a class and a comment.  What it showed is discarded. -/
def clear (m : Mount) (s : Screens) (cls : String) : Screens :=
  { s with
    cls := some cls
    cells := Function.update s.cells m.container [.blank]
    discarded := s.discarded ++ Piece.tasks (s.cells m.container) }

/-- A value is mounted: it takes the place of the comment in the container that has been cleared. -/
def mount (m : Mount) (s : Screens) (w : World) (e : Expression) (cls : Option String) : Screens :=
  (s.clear m (cls.getD m.defaultClass)).fill w m.container .blank e

/-- What the container shows is saved in a new fragment. -/
def save (m : Mount) (s : Screens) (fragment : NodeId) : Screens :=
  { s with
    cells := Function.update (Function.update s.cells m.container []) fragment
      (s.cells m.container)
    saved := fragment :: s.saved }

/-- The value of a task comes.  It takes the place of the slot of the task, wherever that is.  If
the slot is nowhere, no place changes, and if the value itself comes later, there is no place for
what comes then. -/
def complete (m : Mount) (s : Screens) (w : World) (k : ℕ) (e : Expression) : Screens :=
  match s.home? m k with
  | some p => s.fill w p (.slot k) e
  | none =>
    { s with
      due := s.due.filter (· ≠ k) ++ List.range' w.taskCount e.lateAlone
      discarded := s.discarded ++ List.range' w.taskCount e.lateAlone }

/-! ### Slots -/

variable {x : Piece} {e : Expression} {fragment : NodeId} {cls : String}

/-- Slots stay where they are, or go where their screen goes, when a value takes the place of a
piece; the slots of the value are new, or at comments that the value puts back. -/
theorem shown_fill (hp : p ∈ s.places m) (hx : x ∈ s.cells p)
    (hone : ∀ q ∈ s.places m, .slot k ∈ s.cells p → .slot k ∈ s.cells q → q = p) :
    (s.fill w p x e).Shown m k ↔
      (s.Shown m k ∧ .slot k ≠ x) ∨ .slot k ∈ e.pieces (s.inside w) w.taskCount := by
  constructor
  · rintro ⟨q, hq, hk⟩
    simp only [fill] at hk
    split_ifs at hk with hqp hheldq
    · rcases Piece.mem_swap.1 hk with ⟨hk, hkx⟩ | ⟨-, hk⟩
      · exact Or.inl ⟨⟨p, hp, hk⟩, hkx⟩
      · exact Or.inr hk
    · cases hk
    · exact Or.inl ⟨⟨q, hq, hk⟩, fun e => hqp (hone q hq (e.symm ▸ hx) hk)⟩
  · have hnew (hk : .slot k ∈ e.pieces (s.inside w) w.taskCount) :
        (s.fill w p x e).Shown m k := by
      refine ⟨p, hp, ?_⟩
      simp only [fill]
      exact Piece.mem_swap.2 (Or.inr ⟨hx, hk⟩)
    rintro (⟨⟨q, hq, hk⟩, hkx⟩ | hk)
    · by_cases hheldq : q ∈ s.saved ∧ q ∈ e.heldNodes
      · refine hnew ((Expression.slot_mem_pieces e _).2 (Or.inr ⟨q, hheldq.2, ?_⟩))
        exact slot_mem_inside.2 (Or.inl ⟨hheldq.1, hk⟩)
      · refine ⟨q, hq, ?_⟩
        simp only [fill]
        split_ifs with hqp
        · exact Piece.mem_swap.2 (Or.inl ⟨hqp ▸ hk, hkx⟩)
        · exact hk
    · exact hnew hk

theorem shown_clear (hcontainer : m.container ∉ s.saved) :
    (s.clear m cls).Shown m k ↔ ∃ p ∈ s.saved, .slot k ∈ s.cells p := by
  have hcells {p : NodeId} (hp : p ∈ s.saved) : (s.clear m cls).cells p = s.cells p := by
    have hne : p ≠ m.container := fun e => hcontainer (e ▸ hp)
    exact Function.update_of_ne hne _ _
  constructor
  · rintro ⟨p, hp, hk⟩
    rcases List.mem_cons.1 hp with rfl | hp
    · simp [clear] at hk
    · exact ⟨p, hp, hcells hp ▸ hk⟩
  · rintro ⟨p, hp, hk⟩
    exact ⟨p, List.mem_cons_of_mem _ hp, (hcells hp).symm ▸ hk⟩

theorem cells_save (hfragment : fragment ∉ s.places m) (hcontainer : m.container ∉ s.saved) :
    (s.save m fragment).cells fragment = s.cells m.container ∧
      (s.save m fragment).cells m.container = [] ∧
      ∀ p ∈ s.saved, (s.save m fragment).cells p = s.cells p := by
  have hne : m.container ≠ fragment := fun e => hfragment (e ▸ List.mem_cons_self)
  refine ⟨Function.update_self _ _ _,
    (Function.update_of_ne hne _ _).trans (Function.update_self _ _ _), fun p hp => ?_⟩
  · have hpf : p ≠ fragment := fun e => hfragment (e ▸ List.mem_cons_of_mem _ hp)
    have hpc : p ≠ m.container := fun e => hcontainer (e ▸ hp)
    exact (Function.update_of_ne hpf _ _).trans (Function.update_of_ne hpc _ _)

/-- A slot goes with its screen into the fragment that the screen is saved in. -/
theorem shown_save (hfragment : fragment ∉ s.places m) (hcontainer : m.container ∉ s.saved) :
    (s.save m fragment).Shown m k ↔ s.Shown m k := by
  obtain ⟨hnew, hempty, hold⟩ := cells_save hfragment hcontainer
  constructor
  · rintro ⟨p, hp, hk⟩
    rcases List.mem_cons.1 hp with rfl | hp
    · rw [hempty] at hk
      cases hk
    · rcases List.mem_cons.1 hp with rfl | hp
      · exact ⟨m.container, List.mem_cons_self, hnew ▸ hk⟩
      · exact ⟨p, List.mem_cons_of_mem _ hp, hold p hp ▸ hk⟩
  · rintro ⟨p, hp, hk⟩
    rcases List.mem_cons.1 hp with rfl | hp
    · exact ⟨fragment, List.mem_cons_of_mem _ List.mem_cons_self, hnew.symm ▸ hk⟩
    · exact ⟨p, List.mem_cons_of_mem _ (List.mem_cons_of_mem _ hp), (hold p hp).symm ▸ hk⟩

end Screens

end LiveMarkup
