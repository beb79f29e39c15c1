import Mathlib.Data.List.Nodup
import Mathlib.Data.Nat.Basic
import LiveMarkup.Proofs.Tasks.Programs

/-!
# How tasks move

Whatever happens to the scheduler is a sequence of moves: a task is spawned, joins the line, is
woken, is polled, finishes; and between moves, channels and machines change (`Scheduler.Story`).

A task that was woken and has not been polled since stands in the line, unless it has finished
(`Scheduler.Story.ready_of_woken`).  A task that is to keep the value of a source either has not had
it and has not finished, or has kept it and is gone (`Scheduler.Story.kept`).
-/

namespace LiveMarkup

/-- What can happen to a task. -/
inductive Move where
  | spawn (task : ℕ)
  /-- All new tasks join the line. -/
  | join
  | wake (task : ℕ)
  /-- The first task is taken out of the line and goes on. -/
  | poll (task : ℕ)
  /-- The first task is taken out of the line, but has finished before. -/
  | skip (task : ℕ)
  | finish (task : ℕ)
  /-- A task finishes that keeps the value of its source, which has come. -/
  | conclude (task : ℕ) (text : String)
  /-- The value that a task has kept is taken. -/
  | collect (task : ℕ)
  /-- It is noted whether tasks are being polled. -/
  | mark (polling : Bool)

/-- Whether a task does nothing else than to keep the value of a source. -/
def Program.IsKeep : Program → Prop
  | keep _ => True
  | script _ _ _ => False
  | deferred _ _ => False

theorem Program.isKeep_iff {p : Program} : p.IsKeep ↔ ∃ source, p = .keep source := by
  cases p <;> simp [IsKeep]

namespace Scheduler

/-- A change of neither the line nor what tasks have kept, after which the same tasks are to keep
the value of a source. -/
structure Aside (s s' : Scheduler) : Prop where
  pool_eq : s'.pool = s.pool
  kept_eq : s'.kept = s.kept
  size_eq : s'.programs.size = s.programs.size
  isKeep_iff (task : ℕ) : (s'.program task).IsKeep ↔ (s.program task).IsKeep

/-- The scheduler makes a move. -/
inductive Makes : Move → Scheduler → Scheduler → Prop
  | spawn (s : Scheduler) (p : Program) : Makes (.spawn s.programs.size) s (s.spawn p).2
  | join (s : Scheduler) : Makes .join s s.joinLine
  | wake (s : Scheduler) (task : ℕ) : Makes (.wake task) s (s.wake task)
  | poll {s s' : Scheduler} {task : ℕ} (next : s.next? = some (task, s'))
      (active : task ∈ s.pool.active) (polling : s.pool.polling = true) : Makes (.poll task) s s'
  | skip {s s' : Scheduler} {task : ℕ} (next : s.next? = some (task, s'))
      (gone : task ∉ s.pool.active) : Makes (.skip task) s s'
  | finish {s : Scheduler} {task : ℕ} (other : ¬ (s.program task).IsKeep) :
      Makes (.finish task) s (s.finish task)
  /-- What is kept is the value that the source had when it was looked at. -/
  | conclude {looking s : Scheduler} {task : ℕ} {source : Source} {text : String}
      (active : task ∈ s.pool.active) (program : looking.program task = .keep source)
      (value : looking.poll task source = (.value text, s)) :
      Makes (.conclude task text) s
        (Scheduler.finish { s with kept := s.kept ++ [(task, text)] } task)
  | collect (s : Scheduler) (task : ℕ) :
      Makes (.collect task) s { s with kept := s.kept.filter (·.1 != task) }
  | mark (s : Scheduler) (polling : Bool) :
      Makes (.mark polling) s { s with pool := { s.pool with polling := polling } }

/-- The scheduler makes moves one after the other. -/
inductive Story (s : Scheduler) : List Move → Scheduler → Prop
  | nil : Story s [] s
  | aside {s' s'' : Scheduler} {moves : List Move} :
      Story s moves s' → Aside s' s'' → Story s moves s''
  | move {s' s'' : Scheduler} {moves : List Move} {m : Move} :
      Story s moves s' → Makes m s' s'' → Story s (moves ++ [m]) s''

variable {s s' s'' : Scheduler} {moves moves' before after : List Move} {m : Move} {task t : ℕ}
  {text : String}

theorem Story.single (h : Makes m s s') : Story s [m] s' := .move .nil h

theorem Story.append (h : Story s moves s') (h' : Story s' moves' s'') :
    Story s (moves ++ moves') s'' := by
  induction h' with
  | nil => rwa [List.append_nil]
  | aside _ hstep ih => exact ih.aside hstep
  | move _ hstep ih =>
    rw [← List.append_assoc]
    exact ih.move hstep

/-! ### Numbers of tasks -/

/-- Tasks that have not finished have numbers of their own, and all tasks have numbers that are in
use. -/
structure Numbered (s : Scheduler) : Prop where
  lt_size : ∀ t ∈ s.pool.active ++ s.pool.incoming, t < s.programs.size
  nodup : (s.pool.active ++ s.pool.incoming).Nodup
  kept_lt : ∀ x ∈ s.kept, x.1 < s.programs.size

theorem numbered_empty : Numbered empty :=
  ⟨List.forall_mem_nil _, List.nodup_nil, List.forall_mem_nil _⟩

theorem next?_eq_some_iff :
    s.next? = some (task, s') ↔
      ∃ ready, s.pool.ready = task :: ready ∧
        s' = { s with pool := { s.pool with ready := ready } } := by
  unfold next?
  cases hready : s.pool.ready with
  | nil => simp
  | cons u ready =>
    simp only [Option.some.injEq, Prod.mk.injEq, List.cons.injEq]
    exact ⟨fun ⟨ht, hs⟩ => ⟨ready, ⟨ht, rfl⟩, hs.symm⟩, fun ⟨_, ⟨ht, hr⟩, hs⟩ =>
      ⟨ht, by rw [hs, hr]⟩⟩

theorem program_eq_of_programs (h : s'.programs = s.programs) (t : ℕ) :
    s'.program t = s.program t := by
  rw [program, program, h]

theorem program_spawn_of_lt (h : t < s.programs.size) (p : Program) :
    (s.spawn p).2.program t = s.program t := by
  simp [spawn, program, Array.getD_eq_getD_getElem?, Array.getElem?_push, Nat.ne_of_lt h]

@[simp] theorem program_spawn (p : Program) : (s.spawn p).2.program s.programs.size = p := by
  simp [spawn, program, Array.getD_eq_getD_getElem?]

theorem program_setProgram (p : Program) : (s.setProgram task p).program t =
    if t = task ∧ task < s.programs.size then p else s.program t := by
  by_cases ht : t = task
  · subst ht
    by_cases hs : t < s.programs.size <;> simp [program, setProgram, hs, Array.getElem_modify]
  · simp [program, setProgram, Array.getElem?_modify, ht, Ne.symm ht]

/-- No move takes a program away or lets a task keep a value that did something else. -/
theorem Makes.programs (h : Makes m s s') : s.programs.size ≤ s'.programs.size ∧
    ∀ t < s.programs.size, s'.program t = s.program t := by
  cases h with
  | spawn _ p => exact ⟨by simp [Scheduler.spawn], fun t ht => program_spawn_of_lt ht p⟩
  | wake _ task =>
    exact ⟨by rw [programs_wake], fun t _ => program_eq_of_programs (programs_wake s task) t⟩
  | poll next | skip next =>
    have heq := programs_next? next
    exact ⟨by rw [heq], fun t _ => program_eq_of_programs heq t⟩
  | join | finish | conclude | collect | mark => exact ⟨le_rfl, fun _ _ => rfl⟩

theorem Story.programs (h : Story s moves s') : s.programs.size ≤ s'.programs.size ∧
    ∀ t < s.programs.size, (s'.program t).IsKeep ↔ (s.program t).IsKeep := by
  induction h with
  | nil => exact ⟨le_rfl, fun _ _ => Iff.rfl⟩
  | aside _ hstep ih =>
    exact ⟨Nat.le_trans ih.1 (Nat.le_of_eq hstep.size_eq.symm),
      fun t ht => (hstep.isKeep_iff t).trans (ih.2 t ht)⟩
  | move _ hstep ih =>
    refine ⟨Nat.le_trans ih.1 hstep.programs.1, fun t ht => ?_⟩
    rw [hstep.programs.2 t (Nat.lt_of_lt_of_le ht ih.1)]
    exact ih.2 t ht

theorem Makes.numbered (h : Makes m s s') (hs : s.Numbered) : s'.Numbered := by
  obtain ⟨hlt, hnodup, hkept⟩ := hs
  have hfinish (k : List (ℕ × String)) (hk : ∀ x ∈ k, x.1 < s.programs.size) (task : ℕ) :
      (Scheduler.finish { s with kept := k } task).Numbered := by
    have hsub : ((s.pool.active.erase task) ++ s.pool.incoming).Sublist
        (s.pool.active ++ s.pool.incoming) := List.erase_sublist.append_right _
    exact ⟨fun t ht => hlt t (hsub.subset ht), hnodup.sublist hsub, hk⟩
  cases h with
  | spawn _ p =>
    have hnew : s.programs.size ∉ s.pool.active ++ s.pool.incoming := fun hin =>
      lt_irrefl _ (hlt _ hin)
    have hpool : (s.spawn p).2.pool.active ++ (s.spawn p).2.pool.incoming =
        s.pool.active ++ s.pool.incoming ++ [s.programs.size] := by
      simp [Scheduler.spawn]
    have hsize : (s.spawn p).2.programs.size = s.programs.size + 1 := by simp [Scheduler.spawn]
    refine ⟨fun t ht => ?_, ?_, fun x hx => hsize ▸ Nat.lt_succ_of_lt (hkept x hx)⟩
    · rw [hpool, List.mem_append, List.mem_singleton] at ht
      rw [hsize]
      exact ht.elim (fun ht => Nat.lt_succ_of_lt (hlt t ht)) fun ht => ht ▸ Nat.lt_succ_self _
    · rw [hpool, List.nodup_append]
      exact ⟨hnodup, List.nodup_singleton _, fun a ha b hb e =>
        hnew (List.mem_singleton.1 hb ▸ e ▸ ha)⟩
  | join =>
    simp only [joinLine]
    exact ⟨by simpa using hlt, by simpa using hnodup, hkept⟩
  | wake _ task =>
    unfold Scheduler.wake
    split_ifs
    · exact ⟨hlt, hnodup, hkept⟩
    · exact ⟨hlt, hnodup, hkept⟩
  | poll next | skip next =>
    obtain ⟨ready, -, rfl⟩ := next?_eq_some_iff.1 next
    exact ⟨hlt, hnodup, hkept⟩
  | finish => exact hfinish s.kept hkept _
  | conclude active =>
    refine hfinish _ (fun x hx => ?_) _
    rcases List.mem_append.1 hx with hx | hx
    · exact hkept x hx
    · rw [List.mem_singleton.1 hx]
      exact hlt _ (List.mem_append_left _ active)
  | collect _ task => exact ⟨hlt, hnodup, fun x hx => hkept x (List.mem_filter.1 hx).1⟩
  | mark _ polling => exact ⟨hlt, hnodup, hkept⟩

theorem Aside.numbered (h : Aside s s') (hs : s.Numbered) : s'.Numbered := by
  obtain ⟨hlt, hnodup, hkept⟩ := hs
  refine ⟨?_, ?_, ?_⟩
  · rwa [h.pool_eq, h.size_eq]
  · rwa [h.pool_eq]
  · rwa [h.kept_eq, h.size_eq]

theorem Story.numbered (h : Story s moves s') (hs : s.Numbered) : s'.Numbered := by
  induction h with
  | nil => exact hs
  | aside _ hstep ih => exact hstep.numbered ih
  | move _ hstep ih => exact hstep.numbered ih

/-! ### Tasks that are woken -/

/-- The task stands in the line, unless it has finished or has not joined it yet. -/
def Queued (s : Scheduler) (task : ℕ) : Prop := task ∈ s.pool.active → task ∈ s.pool.ready

theorem queued_wake (s : Scheduler) (task : ℕ) : (s.wake task).Queued task := by
  unfold Scheduler.wake Queued
  split_ifs with hwake
  · exact fun _ => List.mem_append_right _ (List.mem_singleton_self task)
  · intro hactive
    simpa [hactive] using hwake

theorem queued_spawn (hs : s.Numbered) (p : Program) : (s.spawn p).2.Queued s.programs.size :=
  fun hactive => absurd (hs.lt_size _ (List.mem_append_left _ hactive)) (lt_irrefl _)

/-- Only a poll takes a task that has not finished out of the line. -/
theorem Makes.queued (h : Makes m s s') (hqueued : s.Queued t) (hm : m ≠ .poll t) :
    s'.Queued t := by
  have hnext {u : ℕ} (next : s.next? = some (u, s')) (hu : t ∈ s.pool.active → t ≠ u) :
      s'.Queued t := by
    obtain ⟨ready, hready, rfl⟩ := next?_eq_some_iff.1 next
    intro hactive
    have hin := hqueued hactive
    rw [hready] at hin
    exact (List.mem_cons.1 hin).resolve_left (hu hactive)
  have hfinish (k : List (ℕ × String)) (u : ℕ) :
      (Scheduler.finish { s with kept := k } u).Queued t :=
    fun hactive => hqueued (List.mem_of_mem_erase hactive)
  cases h with
  | spawn _ p => exact hqueued
  | join =>
    intro hactive
    simp only [joinLine] at hactive ⊢
    exact List.mem_append.2 ((List.mem_append.1 hactive).imp_left hqueued)
  | wake _ u =>
    unfold Scheduler.wake Queued
    split_ifs
    · exact fun hactive => List.mem_append_left _ (hqueued hactive)
    · exact hqueued
  | poll next => exact hnext next fun _ e => hm (e ▸ rfl)
  | skip next gone => exact hnext next fun hactive e => gone (e ▸ hactive)
  | finish => exact hfinish s.kept _
  | conclude => exact hfinish _ _
  | collect _ u => exact hqueued
  | mark _ polling => exact hqueued

theorem Story.queued (h : Story s moves s') (hqueued : s.Queued t) (hm : .poll t ∉ moves) :
    s'.Queued t := by
  induction h with
  | nil => exact hqueued
  | aside _ hstep ih =>
    unfold Queued
    rw [hstep.pool_eq]
    exact ih hm
  | move _ hstep ih =>
    rw [List.mem_append, not_or, List.mem_singleton] at hm
    exact hstep.queued (ih hm.1) (Ne.symm hm.2)

/-- A story can be told from any of its moves on. -/
theorem Story.split (h : Story s (before ++ m :: after) s') :
    ∃ u v, Story s before u ∧ Makes m u v ∧ Story v after s' := by
  generalize hmoves : before ++ m :: after = moves at h
  induction h generalizing after with
  | nil => simp at hmoves
  | aside _ hstep ih =>
    obtain ⟨u, v, hbefore, hmake, hafter⟩ := ih hmoves
    exact ⟨u, v, hbefore, hmake, hafter.aside hstep⟩
  | @move _ _ last _ hstory hstep ih =>
    rcases List.eq_nil_or_concat after with rfl | ⟨after, m', rfl⟩
    · obtain ⟨rfl, hm⟩ := List.append_inj' hmoves rfl
      obtain rfl := List.singleton_inj.1 hm
      exact ⟨_, _, hstory, hstep, .nil⟩
    · rw [List.concat_eq_append, ← List.cons_append, ← List.append_assoc] at hmoves
      obtain ⟨hinit, hm⟩ := List.append_inj' hmoves rfl
      obtain rfl := List.singleton_inj.1 hm
      obtain ⟨u, v, hbefore, hmake, hafter⟩ := ih hinit
      exact ⟨u, v, hbefore, hmake, List.concat_eq_append ▸ hafter.move hstep⟩

/-- A task that was woken and has not been polled since stands in the line, unless it has
finished. -/
theorem Story.ready_of_woken (h : Story s (before ++ .wake t :: after) s') (hm : .poll t ∉ after)
    (hactive : t ∈ s'.pool.active) : t ∈ s'.pool.ready := by
  obtain ⟨u, v, -, hmake, hafter⟩ := h.split
  cases hmake with
  | wake => exact hafter.queued (queued_wake u t) hm hactive

/-- The same holds of a task from the time on at which it was spawned. -/
theorem Story.ready_of_spawned (h : Story s (before ++ .spawn t :: after) s') (hs : s.Numbered)
    (hm : .poll t ∉ after) (hactive : t ∈ s'.pool.active) : t ∈ s'.pool.ready := by
  obtain ⟨u, v, hbefore, hmake, hafter⟩ := h.split
  cases hmake with
  | spawn _ p => exact hafter.queued (queued_spawn (hbefore.numbered hs) p) hm hactive

/-! ### Tasks that keep a value -/

/-- A task that is to keep the value of a source has not had it. -/
structure Waits (s : Scheduler) (task : ℕ) : Prop where
  mem : task ∈ s.pool.active ++ s.pool.incoming
  isKeep : (s.program task).IsKeep
  kept_eq : s.kept.lookup task = none

/-- A task has kept a value and is gone. -/
structure Has (s : Scheduler) (task : ℕ) (text : String) : Prop where
  notMem : task ∉ s.pool.active ++ s.pool.incoming
  lt_size : task < s.programs.size
  kept_eq : s.kept.lookup task = some text

/-- A new task has not had its value. -/
theorem Waits.spawn (hs : s.Numbered) (source : Source) :
    (s.spawn (.keep source)).2.Waits s.programs.size := by
  refine ⟨by simp [Scheduler.spawn], by rw [program_spawn]; trivial, ?_⟩
  refine List.lookup_eq_none_iff.2 fun x hx => ?_
  simpa using Nat.ne_of_gt (hs.kept_lt x hx)

theorem lookup_filter_ne {k : List (ℕ × String)} (h : t ≠ task) :
    (k.filter (·.1 != task)).lookup t = k.lookup t := by
  induction k with
  | nil => rfl
  | cons x k ih =>
    obtain ⟨u, v⟩ := x
    by_cases hu : u = task
    · subst hu
      have hne : (t == u) = false := by simpa using h
      simp [List.lookup_cons, hne, ih]
    · simp [hu, List.lookup_cons, ih]

/-- What a move does to a task that has not had its value. -/
theorem Makes.waits (h : Makes m s s') (hs : s.Numbered) (ht : s.Waits t) (hm : m ≠ .collect t) :
    (s'.Waits t ∧ ∀ text, m ≠ .conclude t text) ∨ ∃ text, m = .conclude t text ∧ s'.Has t text := by
  have hlt : t < s.programs.size := hs.lt_size t ht.mem
  have hprogram : (s'.program t).IsKeep := h.programs.2 t hlt ▸ ht.isKeep
  cases h with
  | spawn _ p =>
    refine Or.inl ⟨⟨?_, hprogram, ht.kept_eq⟩, by simp⟩
    have hmem := ht.mem
    simp only [Scheduler.spawn, List.mem_append] at hmem ⊢
    tauto
  | join =>
    refine Or.inl ⟨⟨?_, hprogram, ht.kept_eq⟩, by simp⟩
    simpa [joinLine] using ht.mem
  | wake _ u =>
    refine Or.inl ⟨⟨?_, hprogram, ?_⟩, by simp⟩
    · unfold Scheduler.wake
      split_ifs <;> exact ht.mem
    · unfold Scheduler.wake
      split_ifs <;> exact ht.kept_eq
  | poll next | skip next =>
    obtain ⟨ready, -, rfl⟩ := next?_eq_some_iff.1 next
    exact Or.inl ⟨⟨ht.mem, hprogram, ht.kept_eq⟩, by simp⟩
  | @finish _ u other =>
    have hne : t ≠ u := fun e => other (e ▸ ht.isKeep)
    refine Or.inl ⟨⟨?_, hprogram, ht.kept_eq⟩, by simp⟩
    exact List.mem_append.2 ((List.mem_append.1 ht.mem).imp_left (List.mem_erase_of_ne hne).2)
  | @conclude _ _ u _ text active =>
    by_cases hu : t = u
    · subst hu
      refine Or.inr ⟨text, rfl, ?_, hlt, ?_⟩
      · simp only [Scheduler.finish, List.mem_append, not_or]
        obtain ⟨hnodup, -, hdisjoint⟩ := List.nodup_append.1 hs.nodup
        exact ⟨hnodup.not_mem_erase, fun hin => hdisjoint t active t hin rfl⟩
      · simp [Scheduler.finish, List.lookup_append, ht.kept_eq]
    · refine Or.inl ⟨⟨?_, hprogram, ?_⟩, by simp [Ne.symm hu]⟩
      · exact List.mem_append.2 ((List.mem_append.1 ht.mem).imp_left (List.mem_erase_of_ne hu).2)
      · have hne : (t == u) = false := by simpa using hu
        simp [Scheduler.finish, List.lookup_append, ht.kept_eq, List.lookup_cons, hne]
  | collect _ u =>
    have hne : t ≠ u := fun e => hm (e ▸ rfl)
    exact Or.inl ⟨⟨ht.mem, hprogram, (lookup_filter_ne hne).trans ht.kept_eq⟩, by simp⟩
  | mark _ polling => exact Or.inl ⟨⟨ht.mem, hprogram, ht.kept_eq⟩, by simp⟩

/-- A value that has been kept stays until it is taken, and no other one is kept. -/
theorem Makes.has (h : Makes m s s') (ht : s.Has t text) (hm : m ≠ .collect t) :
    s'.Has t text ∧ ∀ text, m ≠ .conclude t text := by
  obtain ⟨hnot, hlt, hkept⟩ := ht
  have hsize := Nat.lt_of_lt_of_le hlt h.programs.1
  cases h with
  | spawn _ p =>
    refine ⟨⟨?_, hsize, hkept⟩, by simp⟩
    simp only [Scheduler.spawn, List.mem_append, List.mem_singleton] at hnot ⊢
    rw [← or_assoc]
    exact fun hin => hin.elim hnot (Nat.ne_of_lt hlt)
  | join => exact ⟨⟨by simpa [joinLine] using hnot, hsize, hkept⟩, by simp⟩
  | wake _ u =>
    refine ⟨⟨?_, hsize, ?_⟩, by simp⟩
    · unfold Scheduler.wake
      split_ifs <;> exact hnot
    · unfold Scheduler.wake
      split_ifs <;> exact hkept
  | poll next | skip next =>
    obtain ⟨ready, -, rfl⟩ := next?_eq_some_iff.1 next
    exact ⟨⟨hnot, hsize, hkept⟩, by simp⟩
  | finish =>
    refine ⟨⟨fun hin => hnot ?_, hsize, hkept⟩, by simp⟩
    exact List.mem_append.2 ((List.mem_append.1 hin).imp_left List.mem_of_mem_erase)
  | @conclude _ _ u _ other active =>
    have hne : u ≠ t := fun e => hnot (List.mem_append_left _ (e ▸ active))
    refine ⟨⟨fun hin => hnot ?_, hsize, ?_⟩, by simp [hne]⟩
    · exact List.mem_append.2 ((List.mem_append.1 hin).imp_left List.mem_of_mem_erase)
    · simp [Scheduler.finish, List.lookup_append, hkept]
  | collect _ u =>
    have hne : t ≠ u := fun e => hm (e ▸ rfl)
    exact ⟨⟨hnot, hsize, (lookup_filter_ne hne).trans hkept⟩, by simp⟩
  | mark _ polling => exact ⟨⟨hnot, hsize, hkept⟩, by simp⟩

/-- A task that is to keep a value, and whose value is not taken, has had none and has not finished,
or has kept one and is gone. -/
theorem Story.kept (h : Story s moves s') (hs : s.Numbered) (ht : s.Waits t)
    (hm : .collect t ∉ moves) :
    (s'.Waits t ∧ ∀ text, .conclude t text ∉ moves) ∨
      ∃ text, s'.Has t text ∧ ∀ other, .conclude t other ∈ moves ↔ other = text := by
  induction h with
  | nil => exact Or.inl ⟨ht, fun _ => List.not_mem_nil⟩
  | aside _ hstep ih =>
    rcases ih hm with ⟨⟨hmem, hkeep, hkept⟩, hnone⟩ | ⟨text, ⟨hnot, hlt, hkept⟩, hiff⟩
    · refine Or.inl ⟨⟨?_, (hstep.isKeep_iff t).2 hkeep, hstep.kept_eq ▸ hkept⟩, hnone⟩
      rwa [hstep.pool_eq]
    · refine Or.inr ⟨text, ⟨?_, hstep.size_eq ▸ hlt, hstep.kept_eq ▸ hkept⟩, hiff⟩
      rwa [hstep.pool_eq]
  | move hstory hstep ih =>
    rw [List.mem_append, not_or, List.mem_singleton] at hm
    obtain ⟨hm, hlast⟩ := hm
    simp only [List.mem_append, List.mem_singleton]
    rcases ih hm with ⟨hwaits, hnone⟩ | ⟨text, hhas, hiff⟩
    · rcases hstep.waits (hstory.numbered hs) hwaits (Ne.symm hlast) with
        ⟨hwaits, hm⟩ | ⟨text, rfl, hhas⟩
      · exact Or.inl ⟨hwaits, fun text hin => hin.elim (hnone text) fun e => hm text e.symm⟩
      · refine Or.inr ⟨text, hhas, fun other => ?_⟩
        simp [hnone other]
    · obtain ⟨hhas, hm⟩ := hstep.has hhas (Ne.symm hlast)
      refine Or.inr ⟨text, hhas, fun other => ?_⟩
      rw [hiff other, or_iff_left fun e => hm other e.symm]

end Scheduler

end LiveMarkup
