import LiveMarkup.Proofs.Run.Activities
import LiveMarkup.Proofs.Screen.Unfolding
import LiveMarkup.Run.Screens

/-!
# Binding values that come in stages

Binding a staged value to a node of a sheet succeeds: what is there is shown, and a task is spawned
for each outermost part that comes later (`Run.exists_applyTo`).  The value that is bound does not
run any code, so nothing but the forest and the list of tasks changes. -/

namespace LiveMarkup

open Forest

namespace Staged

/-- Where a value that comes later comes from, with the numbers `channels` of named channels. -/
def promise (channels : String → ℕ) : Staged → Promise
  | sent c _ => .channel (channels c)
  | v => .value v.body.spec

mutual

/-- The expression that is built from the description, with the numbers of named nodes and
channels. -/
def expression (nodes : String → NodeId) (channels : String → ℕ) : Staged → Expression
  | empty => .empty
  | text s => .text s
  | node name => .node (nodes name)
  | list items => .iterable (expressions nodes channels items)
  | soon v => .deferred (.value v.spec)
  | sent c _ => .deferred (.channel (channels c))

/-- The expressions that are built from several descriptions. -/
def expressions (nodes : String → NodeId) (channels : String → ℕ) : List Staged → List Expression
  | [] => []
  | v :: vs => v.expression nodes channels :: expressions nodes channels vs

end

theorem length_expressions (nodes : String → NodeId) (channels : String → ℕ) (vs : List Staged) :
    (expressions nodes channels vs).length = vs.length := by
  induction vs with
  | nil => rfl
  | cons v vs ih => rw [expressions, List.length_cons, ih, List.length_cons]

end Staged

/-- The program of the task that shows a value when it comes. -/
def dueProgram (channels : String → ℕ) (x : NodeId × Staged) : Program :=
  .deferred (x.2.promise channels) x.1

/-- The scheduler with new tasks that show values when they come. -/
def Scheduler.promised (channels : String → ℕ) (s : Scheduler) (due : Due) : Scheduler :=
  due.foldl (fun s x => (s.spawn (dueProgram channels x)).2) s

/-- The world with another forest and new tasks that show values when they come. -/
def World.showing (channels : String → ℕ) (w : World) (f : Forest) (due : Due) : World :=
  (w.setForest f).setScheduler (w.tasks.scheduler.promised channels due)

variable {w : World} {channels : String → ℕ} {f g : Forest} {n p root : NodeId}
  {Ls : List (Labelled NodeId)} {stock : String → Stock} {s s' s'' : Sheet} {pre post qs : Due}

@[simp] theorem World.forest_showing (f : Forest) (due : Due) :
    (w.showing channels f due).forest = f := rfl

theorem World.showing_showing (qs qs' : Due) :
    (w.showing channels f qs).showing channels g qs' = w.showing channels g (qs ++ qs') := by
  rw [showing, showing, showing, Scheduler.promised, Scheduler.promised, Scheduler.promised,
    List.foldl_append]
  rfl

theorem Unfolds.refl (h : Laid stock root s) : Unfolds stock root n s s :=
  ⟨h, fun _ => rfl, fun _ hl _ => ⟨hl, rfl⟩⟩

/-- What happens at a new node, or at the same one, is part of what happens at `n`. -/
theorem Unfolds.trans {m : NodeId} (h : Unfolds stock root n s s')
    (h' : Unfolds stock root m s' s'') (hm : m = n ∨ m ∉ Labelled.labelsAll s.trees) :
    Unfolds stock root n s s'' := by
  refine ⟨h'.laid, fun S => (h'.shown_eq S).trans (h.shown_eq S), fun l hl hln => ?_⟩
  have hlm : l ≠ m := by
    rintro rfl
    exact hm.elim hln fun hout => hout hl
  obtain ⟨hin, hlink⟩ := h.keeps l hl hln
  obtain ⟨hin', hlink'⟩ := h'.keeps l hin hlm
  exact ⟨hin', hlink'.trans hlink⟩

namespace Run

/-- The nodes of a stock. -/
abbrev nodesOf (stock : String → Stock) (name : String) : NodeId := (stock name).node

mutual

/-- Binding a value to the node it is due at shows what is there and promises the rest. -/
theorem exists_applyTo {u : Staged} {w : World} {n : NodeId} {Ls : List (Labelled NodeId)}
    {pre post : Due} (h : Laid stock root ⟨w.forest, Ls, pre ++ (n, u) :: post⟩) :
    ∃ g Ls' qs,
      (∀ (run : Runner) (binding : Binding → NodeId → Activity (Except RenderFault Unit)),
        applyTo run binding n (u.expression (nodesOf stock) channels) w =
          some (.ok (), w.showing channels g qs)) ∧ qs.map Prod.snd = u.pending ∧
      Unfolds stock root n ⟨w.forest, Ls, pre ++ (n, u) :: post⟩ ⟨g, Ls', pre ++ qs ++ post⟩ := by
  cases u with
  | empty =>
    refine ⟨w.forest, Ls, [], fun _ _ => rfl, rfl, ?_⟩
    rw [List.append_nil]
    exact h.unfolds_empty
  | text t =>
    have hplace : ∃ g Ls', w.forest.placeText n "text" t = (.ok (), g) ∧
        Unfolds stock root n ⟨w.forest, Ls, pre ++ (n, .text t) :: post⟩ ⟨g, Ls', pre ++ post⟩ :=
      h.fits_at.2.elim (fun hn => h.exists_text hn "text") fun hn => h.exists_word hn.1 "text"
    obtain ⟨g, Ls', hplace, hunfolds⟩ := hplace
    refine ⟨g, Ls', [], fun run binding => ?_, rfl, ?_⟩
    · rw [Staged.expression, applyTo]
      simp only [Activity.place, hplace]
      rfl
    · rwa [List.append_nil]
  | node name =>
    have hn : w.forest.kind n = .comment := h.fits_at.2.resolve_right fun hn => hn.2
    obtain ⟨g, Ls', hplace, hunfolds⟩ := h.exists_node hn
    refine ⟨g, Ls', [], fun run binding => ?_, rfl, ?_⟩
    · rw [Staged.expression, applyTo]
      simp only [Activity.place, hplace]
      rfl
    · rwa [List.append_nil]
  | soon v | sent c v =>
    refine ⟨w.forest, Ls, [(n, _)], fun _ _ => rfl, rfl, ?_⟩
    rw [List.append_assoc]
    exact .refl h
  | list items =>
    have hn : w.forest.kind n = .comment := h.fits_at.2.resolve_right fun hn => hn.2
    obtain ⟨-, p, hp, -⟩ := h.exists_parent_at hn
    obtain ⟨g, Ls', qs, hslots, hqs, hunfolds⟩ := exists_applySlots h hp
    have hn' : g.kind n = .comment := hunfolds.laid.fits_at.2.resolve_right fun hn => hn.2
    obtain ⟨Ls'', hremove⟩ := hunfolds.laid.unfolds_remove hn'
    refine ⟨g.remove n, Ls'', qs, fun run binding => ?_, hqs, hunfolds.trans hremove (Or.inl rfl)⟩
    rw [Staged.expression, applyTo]
    simp only [Activity.get_bind, hn, hp]
    rw [Activity.bind_of_eq_some (hslots run binding)]
    rfl

theorem exists_applySlots {items : List Staged} {w : World} {n p : NodeId}
    {Ls : List (Labelled NodeId)} {pre post : Due}
    (h : Laid stock root ⟨w.forest, Ls, pre ++ (n, .list items) :: post⟩)
    (hp : w.forest.parent n = some p) :
    ∃ g Ls' qs,
      (∀ (run : Runner) (binding : Binding → NodeId → Activity (Except RenderFault Unit)),
        applySlots run binding p n (Staged.expressions (nodesOf stock) channels items) w =
          some (.ok (), w.showing channels g qs)) ∧ qs.map Prod.snd = Staged.pendingAll items ∧
      Unfolds stock root n ⟨w.forest, Ls, pre ++ (n, .list items) :: post⟩
        ⟨g, Ls', pre ++ qs ++ (n, .list []) :: post⟩ := by
  cases items with
  | nil =>
    refine ⟨w.forest, Ls, [], fun _ _ => rfl, rfl, ?_⟩
    rw [List.append_nil]
    exact .refl h
  | cons item items =>
    have hn : w.forest.kind n = .comment := h.fits_at.2.resolve_right fun hn => hn.2
    obtain ⟨g₁, Ls₁, hslot, hn₁, hp₁, -, hfirst⟩ := h.exists_slot hn hp
    obtain ⟨g₂, Ls₂, qs₁, happly, hqs₁, hitem⟩ := exists_applyTo
      (w := w.setForest g₁) (u := item) hfirst.laid
    -- The comment of the list has stayed among the children of its parent.
    have hlt : n < w.forest.size := lt_size_of_parent hp
    have hmem : n ∈ Labelled.labelsAll Ls₁ := (hfirst.laid.fits (n, .list items) (by simp)).1
    have hkeeps := (hitem.keeps n hmem hlt.ne).2
    have hlaid := hitem.laid
    have hn₂ : g₂.kind n = .comment := hlaid.fits_at.2.resolve_right fun hn => hn.2
    have hp₂ : g₂.parent n = some p :=
      (parent_congr (hn₂.trans hn₁.symm) hkeeps).trans hp₁
    have hlaid' : Laid stock root ⟨((w.setForest g₁).showing channels g₂ qs₁).forest, Ls₂,
        (pre ++ qs₁) ++ (n, .list items) :: post⟩ := hlaid
    obtain ⟨g₃, Ls₃, qs₂, hrest, hqs₂, hitems⟩ := exists_applySlots hlaid' hp₂
    refine ⟨g₃, Ls₃, qs₁ ++ qs₂, fun run binding => ?_, ?_, ?_⟩
    · rw [Staged.expressions, applySlots]
      simp only [hslot]
      rw [Activity.bind_of_eq_some (happly run binding)]
      simp only [hrest, World.showing_showing]
      rfl
    · rw [List.map_append, hqs₁, hqs₂, Staged.pendingAll]
    · have hnew : w.forest.size ∉ Labelled.labelsAll Ls := fun hin =>
        absurd (h.below.holds.lt_size _ hin) (Nat.lt_irrefl _)
      have hboth := (hfirst.trans hitem (Or.inr hnew)).trans hitems (Or.inl rfl)
      rwa [← List.append_assoc pre]

end

end Run

end LiveMarkup
