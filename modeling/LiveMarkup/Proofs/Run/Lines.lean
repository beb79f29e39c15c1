import LiveMarkup.Proofs.Run.Showing
import LiveMarkup.Proofs.Tasks.Channels

/-!
# Tasks that wait for values

A `Late` is a value that comes later, with the node at which it is due and the task that will show
it.  `Lined` says where the tasks of given values stand: in the line, about to join it, or aside,
where they wait to be woken.  There is a lemma for everything that moves a task. -/

namespace LiveMarkup

/-- A task that shows a value when it comes. -/
structure Late where
  task : ℕ
  node : NodeId
  value : Staged

namespace Late

/-- The value that is due, at its node. -/
def due (j : Late) : NodeId × Staged := (j.node, j.value)

/-- Consecutive tasks for values that are due. -/
def number (n : ℕ) : Due → List Late
  | [] => []
  | x :: due => ⟨n, x.1, x.2⟩ :: number (n + 1) due

variable (n : ℕ) (due : Due)

@[simp] theorem map_due_number : (number n due).map Late.due = due := by
  induction due generalizing n with
  | nil => rfl
  | cons x due ih => rw [number, List.map_cons, ih, Late.due]

@[simp] theorem map_task_number : (number n due).map Late.task = List.range' n due.length := by
  induction due generalizing n with
  | nil => rfl
  | cons x due ih => rw [number, List.map_cons, ih, List.length_cons, List.range'_succ]

@[simp] theorem map_value_number : (number n due).map Late.value = due.map Prod.snd := by
  induction due generalizing n with
  | nil => rfl
  | cons x due ih => rw [number, List.map_cons, ih, List.map_cons]

theorem task_of_mem_number {j : Late} (h : j ∈ number n due) :
    n ≤ j.task ∧ j.task < n + due.length := by
  have hmem := List.mem_map_of_mem (f := Late.task) h
  rwa [map_task_number, List.mem_range'_1] at hmem

end Late

/-- The tasks of the values in `Q` stand in the line in this order, those of `I` have not joined it,
and those of `P` stand aside. -/
structure Lined (channels : String → ℕ) (s : Scheduler) (Q I P : List Late) : Prop where
  program {j : Late} : j ∈ Q ++ I ++ P → s.program j.task = dueProgram channels j.due
  lt_size {j : Late} : j ∈ Q ++ I ++ P → j.task < s.programs.size
  nodup : ((Q ++ I ++ P).map Late.task).Nodup
  ready_eq : s.pool.ready = Q.map Late.task
  incoming_eq : s.pool.incoming = I.map Late.task
  active {j : Late} : j ∈ Q ++ P → j.task ∈ s.pool.active

variable {channels : String → ℕ} {s s' : Scheduler} {Q I P P' : List Late} {j : Late} {qs : Due}

namespace Scheduler

/-! ### Promises -/

variable (s) (qs) (t : ℕ)

theorem promised_cons (x : NodeId × Staged) :
    s.promised channels (x :: qs) = (s.spawn (dueProgram channels x)).2.promised channels qs := rfl

theorem pool_promised : (s.promised channels qs).pool =
    { s.pool with
      incoming := s.pool.incoming ++ (Late.number s.programs.size qs).map Late.task } := by
  induction qs generalizing s with
  | nil => simp [promised, Late.number]
  | cons x qs ih => rw [promised_cons, ih]; simp [spawn, Late.number]

theorem size_promised : (s.promised channels qs).programs.size = s.programs.size + qs.length := by
  induction qs generalizing s with
  | nil => rfl
  | cons x qs ih =>
    rw [promised_cons, ih]
    simp [spawn]
    omega

theorem program_promised_of_lt (ht : t < s.programs.size) :
    (s.promised channels qs).program t = s.program t := by
  induction qs generalizing s with
  | nil => rfl
  | cons x qs ih =>
    rw [promised_cons, ih _ (by simp [spawn]; omega)]
    simp [spawn, program, Array.getD_eq_getD_getElem?, Array.getElem?_push, ht.ne]

theorem program_promised (hj : j ∈ Late.number s.programs.size qs) :
    (s.promised channels qs).program j.task = dueProgram channels j.due := by
  induction qs generalizing s with
  | nil => cases hj
  | cons x qs ih =>
    have hsize : (s.spawn (dueProgram channels x)).2.programs.size = s.programs.size + 1 := by
      simp [spawn]
    rw [promised_cons]
    rcases List.mem_cons.1 hj with rfl | hj
    · rw [program_promised_of_lt _ _ _ (by rw [hsize]; exact Nat.lt_succ_self _)]
      simp [spawn, program, Array.getD_eq_getD_getElem?, Late.due]
    · exact ih _ (by rwa [hsize])

@[simp] theorem channels_promised : (s.promised channels qs).channels = s.channels := by
  induction qs generalizing s with
  | nil => rfl
  | cons x qs ih => rw [promised_cons, ih]; rfl

@[simp] theorem channel_promised (c : ℕ) : (s.promised channels qs).channel c = s.channel c := by
  rw [channel, channels_promised, channel]

@[simp] theorem errors_promised : (s.promised channels qs).errors = s.errors := by
  induction qs generalizing s with
  | nil => rfl
  | cons x qs ih => rw [promised_cons, ih]; rfl

end Scheduler

namespace Lined

/-- What does not touch the programs and the line does not matter. -/
theorem congr (h : Lined channels s Q I P) (hprograms : s'.programs = s.programs)
    (hready : s'.pool.ready = s.pool.ready) (hincoming : s'.pool.incoming = s.pool.incoming)
    (hactive : s'.pool.active = s.pool.active) : Lined channels s' Q I P :=
  ⟨fun hj => by rw [Scheduler.program, hprograms]; exact h.program hj,
    fun hj => by rw [hprograms]; exact h.lt_size hj, h.nodup, hready.trans h.ready_eq,
    hincoming.trans h.incoming_eq, fun hj => by rw [hactive]; exact h.active hj⟩

/-- The tasks that stand aside are listed in any order. -/
theorem perm (h : Lined channels s Q I P) (hp : P.Perm P') : Lined channels s Q I P' :=
  ⟨fun hj => h.program (((hp.append_left _).mem_iff).2 hj),
    fun hj => h.lt_size (((hp.append_left _).mem_iff).2 hj),
    ((hp.append_left _).map _).nodup_iff.1 h.nodup, h.ready_eq, h.incoming_eq,
    fun hj => h.active (((hp.append_left _).mem_iff).2 hj)⟩

/-- All new tasks join the line. -/
theorem joinLine (h : Lined channels s Q I P) : Lined channels s.joinLine (Q ++ I) [] P := by
  refine ⟨fun hj => h.program (by simpa using hj), fun hj => h.lt_size (by simpa using hj),
    by simpa using h.nodup, ?_, rfl, fun {i} hj => ?_⟩
  · simp [Scheduler.joinLine, h.ready_eq, h.incoming_eq]
  · have hj' : i ∈ Q ++ P ∨ i ∈ I := by
      simp only [List.mem_append] at hj ⊢
      tauto
    refine List.mem_append.2 (hj'.imp h.active fun hI => ?_)
    rw [h.incoming_eq]
    exact List.mem_map_of_mem hI

/-- A task that is polled stands aside meanwhile. -/
theorem next (h : Lined channels s (j :: Q) I P) :
    ∃ s', s.next? = some (j.task, s') ∧ Lined channels s' Q I (j :: P) ∧
      s' = { s with pool := { s.pool with ready := Q.map Late.task } } := by
  have hperm : (Q ++ I ++ j :: P).Perm (j :: Q ++ I ++ P) := List.perm_middle
  refine ⟨{ s with pool := { s.pool with ready := Q.map Late.task } }, ?_, ⟨fun hj => ?_,
    fun hj => ?_, ?_, rfl, h.incoming_eq, fun hj => ?_⟩, rfl⟩
  · rw [Scheduler.next?, h.ready_eq]
    rfl
  · exact h.program (hperm.mem_iff.1 hj)
  · exact h.lt_size (hperm.mem_iff.1 hj)
  · exact (hperm.map _).nodup_iff.2 h.nodup
  · refine h.active ?_
    simp only [List.mem_append, List.mem_cons] at hj ⊢
    tauto

theorem nodup_aside (h : Lined channels s Q I (j :: P)) :
    j.task ∉ (Q ++ I ++ P).map Late.task ∧ ((Q ++ I ++ P).map Late.task).Nodup := by
  have hperm : (Q ++ I ++ j :: P).Perm (j :: (Q ++ I ++ P)) := List.perm_middle
  exact List.nodup_cons.1 ((hperm.map _).nodup_iff.1 h.nodup)

/-- A task that has finished is gone. -/
theorem finish (h : Lined channels s Q I (j :: P)) : Lined channels (s.finish j.task) Q I P := by
  obtain ⟨hout, hd⟩ := h.nodup_aside
  have hmem : ∀ i : Late, i ∈ Q ++ I ++ P → i ∈ Q ++ I ++ j :: P := fun i hi => by
    simp only [List.mem_append, List.mem_cons] at hi ⊢
    tauto
  refine ⟨fun hi => h.program (hmem _ hi), fun hi => h.lt_size (hmem _ hi), hd, h.ready_eq,
    h.incoming_eq, fun {i} hi => ?_⟩
  have hne : i.task ≠ j.task := fun e => hout (e ▸ List.mem_map_of_mem (by
    simp only [List.mem_append] at hi ⊢
    tauto))
  refine (List.mem_erase_of_ne hne).2 (h.active ?_)
  simp only [List.mem_append, List.mem_cons] at hi ⊢
  tauto

/-- New tasks have not joined the line. -/
theorem promised (h : Lined channels s Q I P) (qs : Due) :
    Lined channels (s.promised channels qs) Q (I ++ Late.number s.programs.size qs) P := by
  have hperm : (Q ++ (I ++ Late.number s.programs.size qs) ++ P).Perm
      ((Q ++ I ++ P) ++ Late.number s.programs.size qs) := by
    rw [← List.append_assoc Q, List.append_assoc (Q ++ I), List.append_assoc (Q ++ I)]
    exact List.perm_append_comm.append_left _
  refine ⟨fun hj => ?_, fun hj => ?_, ?_, ?_, ?_, fun hj => ?_⟩
  · rcases List.mem_append.1 (hperm.mem_iff.1 hj) with hj | hj
    · rw [Scheduler.program_promised_of_lt _ _ _ (h.lt_size hj), h.program hj]
    · exact Scheduler.program_promised _ _ hj
  · rw [Scheduler.size_promised]
    rcases List.mem_append.1 (hperm.mem_iff.1 hj) with hj | hj
    · exact Nat.lt_add_right _ (h.lt_size hj)
    · exact (Late.task_of_mem_number _ _ hj).2
  · rw [(hperm.map _).nodup_iff, List.map_append, List.nodup_append]
    refine ⟨h.nodup, by simpa using List.nodup_range', fun t ht t' ht' e => ?_⟩
    obtain ⟨i, hi, rfl⟩ := List.mem_map.1 ht
    obtain ⟨k, hk, rfl⟩ := List.mem_map.1 ht'
    have hlt := h.lt_size hi
    have hge := (Late.task_of_mem_number _ _ hk).1
    omega
  · rw [Scheduler.pool_promised]
    exact h.ready_eq
  · rw [Scheduler.pool_promised, List.map_append, ← h.incoming_eq]
  · rw [Scheduler.pool_promised]
    exact h.active hj

/-- A task that is woken goes to the end of the line. -/
theorem wake (h : Lined channels s Q I (j :: P)) :
    Lined channels (s.wake j.task) (Q ++ [j]) I P := by
  obtain ⟨hout, -⟩ := h.nodup_aside
  have hperm : (Q ++ [j] ++ I ++ P).Perm (Q ++ I ++ j :: P) := by
    rw [List.append_assoc, List.append_assoc, List.append_assoc, List.singleton_append]
    exact List.perm_middle.symm.append_left Q
  have hactive : j.task ∈ s.pool.active := h.active (by simp)
  have hready : j.task ∉ s.pool.ready := by
    rw [h.ready_eq]
    intro hin
    exact hout (by simp only [List.map_append, List.mem_append]; tauto)
  have hwake : s.wake j.task =
      { s with pool := { s.pool with ready := s.pool.ready ++ [j.task] } } := by
    rw [Scheduler.wake, if_pos]
    simp [hactive, hready]
  rw [hwake]
  refine ⟨fun hi => h.program (hperm.mem_iff.1 hi), fun hi => h.lt_size (hperm.mem_iff.1 hi),
    (hperm.map _).nodup_iff.2 h.nodup, ?_, h.incoming_eq, fun hi => h.active ?_⟩
  · simp [h.ready_eq]
  · simp only [List.mem_append, List.mem_cons, List.not_mem_nil] at hi ⊢
    tauto

end Lined

end LiveMarkup
