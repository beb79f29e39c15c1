import LiveMarkup.Proofs.Run.LiveNodes
import LiveMarkup.Proofs.Run.Substituted
import LiveMarkup.Proofs.Template.Reached

/-!
# Expressions at holes

What binding an expression to a node with a hole does.  A text or a live value is put there, at a
new text in the place of a comment or at the attribute node itself (`Forest.Puts`,
`Forest.Filled.exists_liveTarget`); a live value adds an effect that looks on
(`Run.yields_apply_live`).  Nothing, a capture, a value that comes later, and at an element a
listener, leave the copy of the template as it is (`Run.yields_apply_of_isIdle`).
-/

namespace LiveMarkup

open Forest Run

/-! ### Showing a live value at a hole -/

namespace Forest

variable {f g : Forest} {n n' : NodeId} {v : String}

theorem Puts.showsText (h : Puts f g n n' v) : g.ShowsText n' := by
  rcases h.stands with ⟨-, -, hkind, -⟩ | ⟨hattr, -, hkind⟩
  · exact Or.inl hkind
  · exact Or.inr (by rw [hkind, hattr])

/-- The node that has been put shows another text. -/
theorem Puts.showing (h : Puts f g n n' v) (text : Option String) :
    Puts f (g.showing (text.map (n', ·))) n n' (text.getD v) := by
  cases text with
  | none => exact h
  | some s =>
    have hne {m : NodeId} (hm : m ≠ n) (hs : m < f.size) : m ≠ n' := by
      rcases h.stands with ⟨-, rfl, -⟩ | ⟨-, rfl, -⟩
      · exact hs.ne
      · exact hm
    have hcell {m : NodeId} (hm : m ≠ n') :
        (g.writeData n' fun _ => s).cell m = g.cell m := by
      rw [cell_writeData, if_neg fun heq => hm heq.1]
    rw [Option.map_some, Forest.showing, Option.getD_some]
    refine ⟨?_, fun hm hs => ?_, fun hm hs hlinks => ?_, ?_, ?_, ?_⟩
    · rw [size_writeData]
      exact h.size_le
    · rw [hcell (hne hm hs), children_writeData]
      exact h.cell_eq hm hs
    · rw [children_writeData]
      exact h.children_eq hm hs hlinks
    · rw [link_writeData]
      exact h.link_eq
    · rw [data_writeData, if_pos ⟨rfl, h.showsText.lt_size⟩]
    · rw [kind_writeData, children_writeData]
      exact h.stands

theorem lasts_placeText_of_puts {kind : String} (h : f.placeText n kind v = (.ok (), g))
    (hput : Puts f g n n' v) : Lasts (fun _ => False) f g := by
  have hlasts : Lasts (fun _ => False) f (f.placeText n kind v).2 := by
    rcases hput.stands with ⟨hcomment, -⟩ | ⟨hattr, -⟩
    · exact lasts_placeText hcomment kind v
    · rw [placeText_of_showsText (Or.inr hattr)]
      exact Lasts.writeData (P := fun _ => False) id (fun _ => v)
  rwa [h] at hlasts

end Forest

namespace Run

variable {w : World} {n n' : NodeId} {g : Forest} {value : Spec}

/-- To bind a primitive value places its text. -/
theorem yields_apply_text {e : Expression} {text : String} (he : e.text? = some text)
    {P : Forest → Prop}
    (hplace : ∀ kind, ∃ g, w.forest.placeText n kind text = (.ok (), g) ∧ P g) :
    ∃ g, Yields (fun run => run (.apply e n)) w (.ok ()) (w.setForest g) ∧ P g := by
  have hplaced (kind : String) : ∃ g, Activity.place (·.placeText n kind text) w =
      some (.ok (), w.setForest g) ∧ P g := by
    obtain ⟨g, hg, hP⟩ := hplace kind
    exact ⟨g, by rw [Activity.place, hg], hP⟩
  cases e with
  | text s =>
    obtain rfl : s = text := Option.some.inj he
    obtain ⟨g, hg, hP⟩ := hplaced "text"
    exact ⟨g, Yields.job (j := .apply (.text s) n) (.of_eq fun _ => hg), hP⟩
  | number x =>
    obtain rfl : x.text = text := Option.some.inj he
    obtain ⟨g, hg, hP⟩ := hplaced "number"
    exact ⟨g, Yields.job (j := .apply (.number x) n) (.of_eq fun _ => hg), hP⟩
  | bigint i =>
    obtain rfl : toString i = text := Option.some.inj he
    obtain ⟨g, hg, hP⟩ := hplaced "bigint"
    exact ⟨g, Yields.job (j := .apply (.bigint i) n) (.of_eq fun _ => hg), hP⟩
  | empty | node v | iterable items | deferred promise | function b | capability name value =>
    cases he

end Run

/-! ### Expressions that put nothing at a hole -/

/-- Nodes look the same and have the same places; they may have other listeners. -/
structure Forest.SameViews (f g : Forest) : Prop where
  size_eq : g.size = f.size
  kind_eq (m : NodeId) : g.kind m = f.kind m
  data_eq (m : NodeId) : g.data m = f.data m
  link_eq (m : NodeId) : g.link m = f.link m
  children_eq (m : NodeId) : g.children m = f.children m
  attributes_eq (m : NodeId) : g.attributes m = f.attributes m

namespace Forest

theorem SameViews.refl (f : Forest) : f.SameViews f :=
  ⟨rfl, fun _ => rfl, fun _ => rfl, fun _ => rfl, fun _ => rfl, fun _ => rfl⟩

theorem SameViews.modify_listeners (f : Forest) (n : NodeId)
    (change : List Listener → List Listener) :
    f.SameViews (f.modify n fun c => { c with listeners := change c.listeners }) :=
  ⟨by simp, fun _ => by simp, fun _ => by simp, fun _ => by simp, fun _ => by simp,
    fun _ => by simp⟩

section SameViews

variable {α : Type} {f g : Forest} {ι : α → NodeId}

theorem SameViews.holdsLeaf (hv : f.SameViews g) {q : Option NodeId} {n : NodeId} {k : Kind}
    {s : String} (h : HoldsLeaf f n q k s) : HoldsLeaf g n q k s :=
  ⟨(hv.kind_eq n).trans h.kind_eq, (hv.link_eq n).trans h.link_eq, (hv.data_eq n).trans h.data_eq,
    (hv.children_eq n).trans h.children_eq⟩

mutual

/-- A layout has nothing to do with listeners. -/
theorem SameViews.holds (hv : f.SameViews g) {q : Option NodeId} {L : Labelled α}
    (h : Holds f ι q L) : Holds g ι q L := by
  cases L with
  | text l s | comment l s => exact hv.holdsLeaf h
  | element l tag as cs =>
    obtain ⟨he, has, hcs⟩ := h
    refine ⟨⟨?_, ?_, ?_, ?_⟩, fun a ha => ?_, hv.holdsAll hcs⟩
    · exact (hv.kind_eq _).trans he.kind_eq
    · exact (hv.link_eq _).trans he.link_eq
    · exact (hv.attributes_eq _).trans he.attributes_eq
    · exact (hv.children_eq _).trans he.children_eq
    · obtain ⟨hkind, hdata, hlink⟩ := has a ha
      exact ⟨(hv.kind_eq _).trans hkind, (hv.data_eq _).trans hdata, (hv.link_eq _).trans hlink⟩

theorem SameViews.holdsAll (hv : f.SameViews g) {q : Option NodeId} {Ls : List (Labelled α)}
    (h : HoldsAll f ι q Ls) : HoldsAll g ι q Ls := by
  cases Ls with
  | nil => trivial
  | cons L Ls => exact ⟨hv.holds h.1, hv.holdsAll h.2⟩

end

theorem SameViews.filled (hv : f.SameViews g) {root : NodeId} {φ : α → List ℕ}
    {σ : ℕ → Option String} {Ms : List (Labelled α)} (h : Filled f ι root φ σ Ms) :
    Filled g ι root φ σ Ms :=
  ⟨(hv.kind_eq root).trans h.kind_root, (hv.link_eq root).trans h.link_root,
    ⟨(hv.children_eq root).trans h.layout.children_eq, hv.holdsAll h.layout.holds⟩, h.nodup⟩

end SameViews

end Forest

/-- Whether an expression puts nothing at a node: it is nothing, it comes later, or it is told the
node only. -/
def Expression.IsIdle : Expression → Prop
  | .empty | .deferred _ | .function (.capture _) => True
  | _ => False

/-- Whether an expression is a listener. -/
def Expression.Listens : Expression → Prop
  | .function (.listen _ _ _) => True
  | _ => False

/-- Nothing has been put anywhere, and no effect has been added. -/
structure World.Idles (w v : World) : Prop where
  signals_eq : v.signals = w.signals
  routines_eq : v.routines = w.routines
  views : w.forest.SameViews v.forest

theorem World.Idles.leavesAlone {v : World} (h : w.Idles v) (n : NodeId) : LeavesAlone n w v where
  names_eq := by rw [h.signals_eq]
  reactive_eq := by rw [h.signals_eq]
  keepsRoutines hk := h.routines_eq ▸ hk
  lasts := .of_views h.views.size_eq h.views.kind_eq h.views.data_eq
  data_eq _ := h.views.data_eq n

end LiveMarkup
