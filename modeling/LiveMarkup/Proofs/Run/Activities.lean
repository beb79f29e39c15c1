import LiveMarkup.Run.World

/-!
# Activities one step at a time

An activity that consists of others gives a result exactly if its parts do, one after the
other.  The lemmas say so for each way in which activities are put together; they take an equation
`action w = some (x, w')` apart.
-/

namespace LiveMarkup.Activity

variable {α β : Type} {w w' : World}

theorem bind_eq_some_iff {action : Activity α} {next : α → Activity β} {y : β} :
    (action >>= next) w = some (y, w') ↔
      ∃ x w₁, action w = some (x, w₁) ∧ next x w₁ = some (y, w') := by
  change (action w).bind (fun p => next p.1 p.2) = some (y, w') ↔ _
  rw [Option.bind_eq_some_iff]
  exact ⟨fun ⟨p, hp, hn⟩ => ⟨p.1, p.2, hp, hn⟩, fun ⟨x, w₁, hp, hn⟩ => ⟨(x, w₁), hp, hn⟩⟩

theorem bind_of_eq_some {action : Activity α} {next : α → Activity β} {x : α} {w₁ : World}
    (h : action w = some (x, w₁)) : (action >>= next) w = next x w₁ := by
  change (action w).bind (fun p => next p.1 p.2) = _
  rw [h]
  rfl

theorem map_of_eq_some {action : Activity α} {f : α → β} {x : α} (h : action w = some (x, w')) :
    (f <$> action) w = some (f x, w') := by
  rw [map_eq_pure_bind, bind_of_eq_some h]
  rfl

theorem bind_of_eq_none {action : Activity α} {next : α → Activity β} (h : action w = none) :
    (action >>= next) w = none := by
  change (action w).bind (fun p => next p.1 p.2) = _
  rw [h]
  rfl

@[simp] theorem get_bind {next : World → Activity β} :
    ((get : Activity World) >>= next) w = next w w :=
  rfl

@[simp] theorem modify_bind {change : World → World} {next : Unit → Activity β} :
    ((modify change : Activity Unit) >>= next) w = next () (change w) := rfl

@[simp] theorem set_bind {next : PUnit → Activity β} {v : World} :
    ((set v : Activity PUnit) >>= next) w = next ⟨⟩ v := rfl

@[simp] theorem reactive_bind {change : Reactive → Reactive} {next : Unit → Activity β} :
    (reactive change >>= next) w = next () (w.modifyReactive change) := rfl

theorem schedule_of_eq {operation : Scheduler → α × Scheduler} {x : α} {s : Scheduler}
    (h : operation w.tasks.scheduler = (x, s)) :
    schedule operation w = some (x, w.setScheduler s) := by
  rw [schedule, h]

@[simp] theorem pure_apply {x : α} : (pure x : Activity α) w = some (x, w) := rfl

@[simp] theorem modify_apply {change : World → World} :
    (modify change : Activity Unit) w = some ((), change w) := rfl

@[simp] theorem note_apply {reply : Reply} : note reply w = some ((), w.note reply) := rfl

@[simp] theorem reactive_apply {change : Reactive → Reactive} :
    reactive change w = some ((), w.modifyReactive change) := rfl

@[simp] theorem addRoutine_apply {routine : Routine} :
    addRoutine routine w = some (w.addRoutine routine) := rfl

/-- A body performs its commands in order and notes what they reply. -/
theorem body_cons_eq_some_iff {run : Runner} {c : Command} {cs : Script} :
    body run (c :: cs) w = some ((), w') ↔
      ∃ reply w₁, run (.command c) w = some (reply, w₁) ∧
        body run cs (w₁.note reply) = some ((), w') := by
  rw [body, bind_eq_some_iff]
  exact Iff.rfl

end LiveMarkup.Activity
