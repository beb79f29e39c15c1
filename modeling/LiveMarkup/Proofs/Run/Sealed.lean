import LiveMarkup.Proofs.Forest.Released
import LiveMarkup.Proofs.Page.Sealed
import LiveMarkup.Proofs.Run.Activities
import LiveMarkup.Proofs.Tasks.Programs
import LiveMarkup.Proofs.Template.Lasting
import LiveMarkup.Run.Command

/-!
# Worlds that keep nodes sealed off

A world keeps nodes sealed off if its page does, no routine and no task is to act on one of them,
and something holds them so that they are not released (`World.Sealed`).  An activity keeps the seal
if whatever it leads to, the sealed nodes are as they were and still sealed off
(`Activity.Keeps`).  The runner does the rest of the work, so everything here is about activities
that run jobs with a runner that keeps the seal.
-/

namespace LiveMarkup

/-- The node that a routine acts on. -/
def Routine.target? : Routine → Option NodeId
  | live _ n => some n
  | script _ => none
  | transition _ _ _ => none

/-- The node that a task acts on. -/
def Program.target? : Program → Option NodeId
  | deferred _ n => some n
  | script _ _ _ => none
  | keep _ => none

/-- A value brings along nodes outside only. -/
def Expression.Open (f : Forest) (S : Set NodeId) (e : Expression) : Prop :=
  ∀ n ∈ e.heldNodes, f.Open S n

/-- Several values bring along nodes outside only. -/
def Expression.OpenAll (f : Forest) (S : Set NodeId) (es : List Expression) : Prop :=
  ∀ n ∈ Expression.heldNodesAll es, f.Open S n

variable {S : Set NodeId} {f g : Forest} {m n : NodeId} {ns : List NodeId} {w v u : World}
  {e : Expression} {es : List Expression}

namespace Expression

theorem Open.mono (h : e.Open f S) (hsize : f.size ≤ g.size) : e.Open g S :=
  fun n hn => (h n hn).mono hsize

theorem OpenAll.mono (h : OpenAll f S es) (hsize : f.size ≤ g.size) : OpenAll g S es :=
  fun n hn => (h n hn).mono hsize

theorem openAll_nil : OpenAll f S [] :=
  List.forall_mem_nil _

/-- A value without nodes brings none along. -/
theorem Open.of_none (h : e.heldNodes = []) : e.Open f S := by
  simp [Expression.Open, h]

theorem openAll_cons : OpenAll f S (e :: es) ↔ e.Open f S ∧ OpenAll f S es := by
  simp only [OpenAll, Open, heldNodesAll, List.mem_append, or_imp, forall_and]

end Expression

/-! ### Nodes that are held -/

namespace Forest

/-- As long as the nodes `S` stay as they are, they are held by `ns`. -/
def Guards (f : Forest) (S : Set NodeId) (ns : List NodeId) : Prop :=
  ∀ g : Forest, f.size ≤ g.size → (∀ n ∈ S, g.cell n = f.cell n) →
    ∀ n ∈ S, n ∈ g.heldBelow (g.size + 1) ns

theorem Guards.avoids (h : f.Guards S ns) (hfg : Avoids S f g) : g.Guards S ns :=
  fun k hsize hcell => h k (hfg.size_le.trans hsize) fun n hn =>
    (hcell n hn).trans (hfg.cell_eq hn)

theorem heldBelow_mono {ms : List NodeId} (hsub : ns ⊆ ms) (fuel : ℕ) :
    f.heldBelow fuel ns ⊆ f.heldBelow fuel ms := by
  cases fuel with
  | zero => exact List.Subset.refl _
  | succ fuel =>
    intro n hn
    obtain ⟨m, hm, hin⟩ := List.mem_flatMap.1 hn
    exact List.mem_flatMap.2 ⟨m, hsub hm, hin⟩

theorem Guards.mono {ms : List NodeId} (h : f.Guards S ns) (hsub : ns ⊆ ms) : f.Guards S ms :=
  fun g hsize hcell n hn => heldBelow_mono hsub _ (h g hsize hcell n hn)

end Forest

/-! ### Worlds -/

/-- The sealed nodes of a world are sealed off and held, and nothing in the world leads to them.
The templates of the world are sound. -/
structure World.Sealed (w : World) (S : Set NodeId) : Prop where
  page : w.page.Sealed S
  guards : w.forest.Guards S w.held
  routines {r : Routine} {n : NodeId} : r ∈ w.routines → r.target? = some n → w.forest.Open S n
  programs {p : Program} {n : NodeId} : p ∈ w.tasks.scheduler.programs → p.target? = some n →
    w.forest.Open S n
  templates : w.templates.Sound

/-- A change of a world that leaves the sealed nodes as they are, and sealed off, holds what it held
and keeps all templates. -/
structure World.Avoids (S : Set NodeId) (w v : World) : Prop where
  seals : v.Sealed S
  forest : Forest.Avoids S w.forest v.forest
  templates : Templates.Lasts w.templates v.templates
  held_eq : v.held = w.held

namespace World

theorem Avoids.trans (hwv : Avoids S w v) (hvu : Avoids S v u) : Avoids S w u :=
  ⟨hvu.seals, hwv.forest.trans hvu.forest, hwv.templates.trans hvu.templates,
    hvu.held_eq.trans hwv.held_eq⟩

theorem Avoids.open_mono (h : Avoids S w v) (hn : w.forest.Open S n) : v.forest.Open S n :=
  h.forest.open_mono hn

theorem Avoids.size_le (h : Avoids S w v) : w.forest.size ≤ v.forest.size := h.forest.size_le

namespace Sealed

variable (hw : w.Sealed S)

include hw

theorem forest : w.forest.Sealed S := hw.page.forest

theorem refl : Avoids S w w := ⟨hw, hw.forest.refl, hw.templates.refl, rfl⟩

/-- A change of the parts of a world. -/
theorem change (hpage : Page.Avoids S w.page v.page)
    (hroutines : ∀ r ∈ v.routines, r ∈ w.routines ∨ ∀ n, r.target? = some n → v.forest.Open S n)
    (hprograms : ∀ p ∈ v.tasks.scheduler.programs, p ∈ w.tasks.scheduler.programs ∨
      ∀ n, p.target? = some n → v.forest.Open S n)
    (htemplates : Templates.Lasts w.templates v.templates) (hheld : v.held = w.held) :
    Avoids S w v := by
  refine ⟨⟨hpage.seals, ?_, fun hr hn => ?_, fun hp hn => ?_, htemplates.sound⟩, hpage.forest,
    htemplates, hheld⟩
  · rw [hheld]
    exact hw.guards.avoids hpage.forest
  · exact (hroutines _ hr).elim (fun hr => hpage.forest.open_mono (hw.routines hr hn))
      fun h => h _ hn
  · exact (hprograms _ hp).elim (fun hp => hpage.forest.open_mono (hw.programs hp hn))
      fun h => h _ hn

/-- A change of what has nothing to do with nodes and templates. -/
theorem of_eq (hpage : v.page = w.page) (hroutines : v.routines = w.routines)
    (hprograms : v.tasks.scheduler.programs = w.tasks.scheduler.programs)
    (htemplates : v.templates = w.templates) (hheld : v.held = w.held) : Avoids S w v :=
  hw.change (hpage ▸ hw.page.refl) (fun _ hr => Or.inl (hroutines ▸ hr))
    (fun _ hp => Or.inl (hprograms ▸ hp)) (htemplates ▸ hw.templates.refl) hheld

theorem setPage {p : Page} (hp : Page.Avoids S w.page p) : Avoids S w { w with page := p } :=
  hw.change hp (fun _ hr => Or.inl hr) (fun _ hp => Or.inl hp) hw.templates.refl rfl

theorem setForest (hf : Forest.Avoids S w.forest f) : Avoids S w (w.setForest f) :=
  hw.setPage (hw.page.setForest hf)

theorem setTemplates {t : Templates} (ht : Templates.Lasts w.templates t) :
    Avoids S w { w with templates := t } :=
  hw.change hw.page.refl (fun _ hr => Or.inl hr) (fun _ hp => Or.inl hp) ht rfl

theorem setTasks {t : Tasks} (ht : t.scheduler.programs = w.tasks.scheduler.programs) :
    Avoids S w { w with tasks := t } :=
  hw.of_eq rfl rfl ht rfl rfl

theorem modifyReactive (change : Reactive → Reactive) : Avoids S w (w.modifyReactive change) :=
  hw.of_eq rfl rfl rfl rfl rfl

theorem note (reply : Reply) : Avoids S w (w.note reply) := by
  unfold World.note
  split_ifs
  · exact hw.refl
  · exact hw.of_eq rfl rfl rfl rfl rfl

theorem addRoutine {r : Routine} (hr : ∀ n, r.target? = some n → w.forest.Open S n) :
    Avoids S w (w.addRoutine r).2 := by
  refine hw.change hw.page.refl (fun x hx => ?_) (fun _ hp => Or.inl hp) hw.templates.refl rfl
  rcases Array.mem_push.1 hx with hx | rfl
  · exact Or.inl hx
  · exact Or.inr hr

theorem spawn {p : Program} (hp : ∀ n, p.target? = some n → w.forest.Open S n) :
    Avoids S w (w.setScheduler (w.tasks.scheduler.spawn p).2) := by
  refine hw.change hw.page.refl (fun _ hr => Or.inl hr) (fun x hx => ?_) hw.templates.refl rfl
  rcases Array.mem_push.1 hx with hx | rfl
  · exact Or.inl hx
  · exact Or.inr hp

theorem setProgram (task : ℕ) {p : Program} (hp : ∀ n, p.target? = some n → w.forest.Open S n) :
    Avoids S w (w.setScheduler (w.tasks.scheduler.setProgram task p)) := by
  refine hw.change hw.page.refl (fun _ hr => Or.inl hr) (fun x hx => ?_) hw.templates.refl rfl
  change x ∈ w.tasks.scheduler.programs.modify task fun _ => p at hx
  obtain ⟨i, hi, rfl⟩ := Array.mem_iff_getElem.1 hx
  rw [Array.getElem_modify]
  split_ifs
  · exact Or.inr hp
  · exact Or.inl (Array.getElem_mem _)

/-- Holding more nodes does not break the seal. -/
theorem holding (nodes : List NodeId) : ({ w with held := nodes ++ w.held } : World).Sealed S :=
  ⟨hw.page, hw.guards.mono (List.subset_append_right _ _), hw.routines, hw.programs, hw.templates⟩

theorem program_target {task : ℕ} {promise : Promise}
    (h : w.tasks.scheduler.program task = .deferred promise n) : w.forest.Open S n := by
  rw [Scheduler.program, Array.getD_eq_getD_getElem?] at h
  cases hp : w.tasks.scheduler.programs[task]? with
  | none =>
    rw [hp] at h
    cases h
  | some p =>
    rw [hp] at h
    exact hw.programs (Array.mem_of_getElem? hp) (congrArg Program.target? h)

/-- Releasing what nothing holds spares the sealed nodes. -/
theorem release : Avoids S w w.release := by
  have hlost : ∀ n ∈ w.lostNodes, n ∉ S := fun n hn hin => by
    refine not_mem_lostNodes (hw.forest.lt hin) ?_ hn
    refine Forest.heldBelow_mono (fun m hm => ?_) _ (hw.guards _ le_rfl (fun _ _ => rfl) n hin)
    simp only [heldNodes, List.cons_append, List.mem_cons, List.mem_append, hm, true_or, or_true]
  have hapart : Forest.Avoids S w.forest (w.lostNodes.foldl Forest.takeApart w.forest) :=
    .foldl hw.forest fun n hn _ hg => .takeApart hg.seals (hlost n hn)
  exact hw.setPage ((hw.page.setForest hapart).setRest _ _ _)

end Sealed

end World

/-! ### Activities -/

namespace Activity

variable {α β : Type} {action : Activity α} {next : α → Activity β} {post : α → World → Prop}
  {goal : β → World → Prop}

/-- Whatever an activity leads to, it leaves the sealed nodes as they are, and sealed off, and its
result is as required. -/
def Keeps (S : Set NodeId) (w : World) (action : Activity α) (post : α → World → Prop) : Prop :=
  ∀ a v, action w = some (a, v) → World.Avoids S w v ∧ post a v

/-- Nothing is required of a result that leads to no nodes. -/
def Anything (_ : α) (_ : World) : Prop := True

namespace Keeps

theorem of_eq {a : α} (h : action w = some (a, v)) (hv : World.Avoids S w v) (ha : post a v) :
    Keeps S w action post := by
  intro b u hb
  obtain ⟨rfl, rfl⟩ := Prod.mk.inj (Option.some.inj (h.symm.trans hb))
  exact ⟨hv, ha⟩

theorem pure (hw : w.Sealed S) {a : α} (ha : post a w) : Keeps S w (Pure.pure a) post :=
  of_eq rfl hw.refl ha

theorem bind (h : Keeps S w action post)
    (hnext : ∀ a v, World.Avoids S w v → post a v → Keeps S v (next a) goal) :
    Keeps S w (action >>= next) goal := by
  intro b u hb
  obtain ⟨a, v, ha, hb⟩ := bind_eq_some_iff.1 hb
  obtain ⟨hv, hpost⟩ := h a v ha
  obtain ⟨hu, hgoal⟩ := hnext a v hv hpost b u hb
  exact ⟨hv.trans hu, hgoal⟩

/-- An activity whose result does not matter comes before another. -/
theorem then_ (h : Keeps S w action post) (hnext : ∀ a v, v.Sealed S → Keeps S v (next a) goal) :
    Keeps S w (action >>= next) goal :=
  h.bind fun a v hv _ => hnext a v hv.seals

theorem map {f : α → β} (h : Keeps S w action post) (hgoal : ∀ {a v}, post a v → goal (f a) v) :
    Keeps S w (f <$> action) goal := by
  rw [map_eq_pure_bind]
  exact h.bind fun a v hv ha => pure hv.seals (hgoal ha)

theorem bind_of_eq {a : α} (h : action w = some (a, v)) (hv : World.Avoids S w v)
    (hnext : Keeps S v (next a) goal) : Keeps S w (action >>= next) goal := by
  intro b u hb
  rw [Activity.bind_of_eq_some h] at hb
  exact (hnext b u hb).imp_left hv.trans

theorem ite {c : Prop} [Decidable c] {other : Activity α} (hyes : Keeps S w action post)
    (hno : Keeps S w other post) : Keeps S w (if c then action else other) post := by
  split_ifs
  · exact hyes
  · exact hno

theorem get_bind {next : World → Activity β} (hnext : Keeps S w (next w) goal) :
    Keeps S w (get >>= next) goal := hnext

theorem modify_bind {change : World → World} {next : Unit → Activity β}
    (hchange : World.Avoids S w (change w)) (hnext : Keeps S (change w) (next ()) goal) :
    Keeps S w (modify change >>= next) goal := bind_of_eq rfl hchange hnext

theorem set_bind {next : PUnit → Activity β} (hset : World.Avoids S w v)
    (hnext : Keeps S v (next ⟨⟩) goal) : Keeps S w (set v >>= next) goal :=
  bind_of_eq rfl hset hnext

end Keeps

end Activity

end LiveMarkup
