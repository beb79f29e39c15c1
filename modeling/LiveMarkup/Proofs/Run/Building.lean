import LiveMarkup.Proofs.Run.Showing
import LiveMarkup.Proofs.Script.Names
import LiveMarkup.Run.Session

/-!
# Building values that come in stages

`Run.Yields` says that an activity gives a result when its jobs are done with enough fuel;
activities that are put together yield if their parts do (`Yields.bind`).  Building a staged value
yields its expression and takes the receivers of the channels that it holds (`Run.yields_build`). -/

namespace LiveMarkup

namespace Run

/-! ### Enough fuel -/

variable {α β : Type} {w w₁ w' : World} {x : α} {y : β}

/-- With enough fuel for its jobs the activity gives the result. -/
def Yields (action : Runner → Activity α) (w : World) (x : α) (w' : World) : Prop :=
  ∃ enough, ∀ fuel, enough ≤ fuel → action (run fuel) w = some (x, w')

theorem Yields.of_eq {action : Runner → Activity α}
    (h : ∀ run : Runner, action run w = some (x, w')) : Yields action w x w' :=
  ⟨0, fun _ _ => h _⟩

theorem Yields.congr {action action' : Runner → Activity α} (h : Yields action w x w')
    (heq : ∀ run : Runner, action' run w₁ = action run w) : Yields action' w₁ x w' := by
  obtain ⟨enough, h⟩ := h
  exact ⟨enough, fun fuel hfuel => (heq _).trans (h fuel hfuel)⟩

/-- One activity after the other. -/
theorem Yields.bind {action : Runner → Activity α} {next : Runner → α → Activity β}
    (h : Yields action w x w₁) (h' : Yields (fun run => next run x) w₁ y w') :
    Yields (fun run => action run >>= next run) w y w' := by
  obtain ⟨enough, h⟩ := h
  obtain ⟨enough', h'⟩ := h'
  refine ⟨max enough enough', fun fuel hfuel => ?_⟩
  exact (Activity.bind_of_eq_some (h fuel (le_of_max_le_left hfuel))).trans
    (h' fuel (le_of_max_le_right hfuel))

theorem Yields.map {action : Runner → Activity α} (h : Yields action w x w') (φ : α → β) :
    Yields (fun run => φ <$> action run) w (φ x) w' := by
  obtain ⟨enough, h⟩ := h
  refine ⟨enough, fun fuel hfuel => ?_⟩
  simp only [map_eq_pure_bind]
  rw [Activity.bind_of_eq_some (h fuel hfuel)]
  rfl

/-- A job is done by doing what it consists of. -/
theorem Yields.job {j : Job} {x : j.Result} (h : Yields (fun run => job run j) w x w') :
    Yields (fun run => run j) w x w' := by
  obtain ⟨enough, h⟩ := h
  refine ⟨enough + 1, fun fuel hfuel => ?_⟩
  obtain ⟨fuel, rfl⟩ := Nat.exists_eq_add_of_le' (Nat.le_of_add_left_le hfuel)
  exact h fuel (by omega)

/-! ### Building -/

end Run

/-- The world in which the receivers of named channels have been taken. -/
def World.taking (w : World) (names : List String) : World :=
  { w with tasks := { w.tasks with receivers := names.foldl Table.unbind w.tasks.receivers } }

theorem World.taking_append (w : World) (names names' : List String) :
    (w.taking names).taking names' = w.taking (names ++ names') := by
  rw [taking, taking, taking, List.foldl_append]

namespace Run

variable {nodes : String → NodeId} {channels : String → ℕ} {w : World}

/-- The names of nodes mean the nodes, and the receivers of channels are there to be taken. -/
structure Provides (nodes : String → NodeId) (channels : String → ℕ) (w : World)
    (names held : List String) : Prop where
  node {name : String} : name ∈ names → w.page.nodes.get? name = some (nodes name)
  receiver {name : String} : name ∈ held → w.tasks.receivers.get? name = some (channels name)
  nodup : held.Nodup

mutual

/-- A value is built from its description, and the channels that it holds are taken. -/
theorem yields_build {v : Staged} {w : World} (h : Provides nodes channels w v.names v.held) :
    Yields (fun run => build run v.spec) w (v.expression nodes channels) (w.taking v.held) := by
  cases v with
  | empty | text s | soon v => exact .of_eq fun _ => rfl
  | node name =>
    have hnode := h.node (List.mem_singleton_self name)
    refine .of_eq fun run => ?_
    rw [Staged.spec, build, Activity.get_bind]
    simp only [hnode]
    rfl
  | sent c v =>
    have hreceiver := h.receiver (List.mem_singleton_self c)
    refine .of_eq fun run => ?_
    rw [Staged.spec, build]
    simp only [Tasks.take, hreceiver]
    rfl
  | list items =>
    have hitems : Provides nodes channels w (Staged.namesAll items) (Staged.heldAll items) := h
    exact (yields_buildAll hitems).bind (.of_eq fun _ => rfl)

theorem yields_buildAll {vs : List Staged} {w : World}
    (h : Provides nodes channels w (Staged.namesAll vs) (Staged.heldAll vs)) :
    Yields (fun run => buildAll run (Staged.specs vs)) w (Staged.expressions nodes channels vs)
      (w.taking (Staged.heldAll vs)) := by
  cases vs with
  | nil => exact .of_eq fun _ => rfl
  | cons v vs =>
    have hheld : Staged.heldAll (v :: vs) = v.held ++ Staged.heldAll vs := List.filterMap_append
    have hd := h.nodup
    rw [hheld, List.nodup_append] at hd
    have hfirst : Provides nodes channels w v.names v.held :=
      ⟨fun hname => h.node (List.mem_append_left _ hname),
        fun hc => h.receiver (hheld ▸ List.mem_append_left _ hc), hd.1⟩
    have hrest : Provides nodes channels (w.taking v.held) (Staged.namesAll vs)
        (Staged.heldAll vs) :=
      ⟨fun hname => h.node (List.mem_append_right _ hname), fun {c} hc => by
        have hout : c ∉ v.held := fun hin => hd.2.2 c hin c hc rfl
        exact (Table.get?_unbindAll _ _ _ hout).trans
          (h.receiver (hheld ▸ List.mem_append_right _ hc)), hd.2.1⟩
    rw [hheld, ← World.taking_append]
    exact (Yields.job (j := .build v.spec) (yields_build hfirst)).bind
      ((yields_buildAll hrest).bind (.of_eq fun _ => rfl))

end

end Run

end LiveMarkup
