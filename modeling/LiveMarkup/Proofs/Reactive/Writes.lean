import LiveMarkup.Proofs.Reactive.Batches
import LiveMarkup.Proofs.Run.Building

/-!
# Writes and the batch that they collect

Several writes to signals, one after the other, while the batch is closed and no task is queued,
leave a batch with one flush, unless nothing was changed that anyone had read.  In the batch are the
observers that were subscribed to a signal when a write changed it, each where a write first came
upon it (`Reactive.writing_eq`).
-/

namespace LiveMarkup

/-! ### Writes -/

/-- A write to a signal. -/
inductive Write where
  | set (s : ℕ) (v : Value)
  | update (s : ℕ) (arg : Value)

namespace Write

/-- The state after a write. -/
def perform (r : Reactive) : Write → Reactive
  | set s v => r.set s v
  | update s arg => r.update s arg

/-- The observers that are subscribed to a signal that a write changes: setting a signal to an equal
value is no change, an update always is one. -/
def hit (r : Reactive) : Write → List ℕ
  | set s v => if (r.value s).equal v then [] else r.subscribers s
  | update s _ => r.subscribers s

/-- The write that a command makes, if the name in it leads to a signal. -/
def ofCommand? (s : Signals) : Command → Option Write
  | .signal (.set name v half) => (s.signal? name half).toOption.map (set · v)
  | .signal (.update name arg half) => (s.signal? name half).toOption.map (update · arg)
  | _ => none

end Write

/-! ### Lists without repetitions -/

theorem eraseDups_concat (hs : List ℕ) (o : ℕ) :
    (hs ++ [o]).eraseDups = if o ∈ hs then hs.eraseDups else hs.eraseDups ++ [o] := by
  rw [List.eraseDups_append]
  split_ifs with ho
  · simp [List.removeAll, ho]
  · simp [List.removeAll, ho, List.eraseDups_cons]

theorem nodup_eraseDups (hs : List ℕ) : hs.eraseDups.Nodup := by
  induction hs using List.reverseRecOn with
  | nil => exact List.nodup_nil
  | append_singleton hs o ih =>
    rw [eraseDups_concat]
    split_ifs with ho
    · exact ih
    · exact List.concat_eq_append ▸ ih.concat fun hmem => ho (List.mem_eraseDups.1 hmem)

namespace Reactive

variable {r : Reactive} {o s : ℕ} {writes : List Write}

/-- The state after several writes. -/
def writing (r : Reactive) (writes : List Write) : Reactive := writes.foldl Write.perform r

/-- The observers that several writes come upon, one write after the other. -/
def hits (r : Reactive) : List Write → List ℕ
  | [] => []
  | d :: ds => d.hit r ++ (d.perform r).hits ds

/-- The observers that several writes come upon, each where a write first comes upon it. -/
def batchOf (r : Reactive) (writes : List Write) : List ℕ := (r.hits writes).eraseDups

theorem mem_hits_iff : o ∈ r.hits writes ↔
    ∃ xs d ys, writes = xs ++ d :: ys ∧ o ∈ d.hit (r.writing xs) := by
  induction writes generalizing r with
  | nil =>
    constructor
    · exact fun h => nomatch h
    · rintro ⟨xs, d, ys, h, -⟩
      cases xs <;> cases h
  | cons d ds ih =>
    rw [hits, List.mem_append, ih]
    constructor
    · rintro (h | ⟨xs, e, ys, rfl, h⟩)
      · exact ⟨[], d, ds, rfl, h⟩
      · exact ⟨d :: xs, e, ys, rfl, h⟩
    · rintro ⟨xs, e, ys, heq, h⟩
      cases xs with
      | nil =>
        obtain ⟨rfl, rfl⟩ := List.cons.inj heq
        exact Or.inl h
      | cons x xs =>
        obtain ⟨rfl, rfl⟩ := List.cons.inj heq
        exact Or.inr ⟨xs, e, ys, rfl, h⟩

/-! ### The batch that writes collect -/

/-- The state with the batch of the observers `hs`, each where it first comes. -/
def batching (r : Reactive) (hs : List ℕ) : Reactive :=
  { r with
    pending := hs.eraseDups
    scheduled := !hs.isEmpty
    queue := if hs.isEmpty then [] else [.flush] }

theorem schedule_batching (r : Reactive) (hs : List ℕ) (o : ℕ) :
    (r.batching hs).schedule o = r.batching (hs ++ [o]) := by
  have hmem : hs.eraseDups.contains o = decide (o ∈ hs) := by simp
  cases hs with
  | nil => simp [schedule, batching, enqueue, List.eraseDups_cons]
  | cons h hs =>
    simp only [batching, schedule, eraseDups_concat, hmem]
    by_cases ho : o ∈ h :: hs
    · simp [ho]
    · simp [ho]

theorem foldl_schedule_batching (r : Reactive) (hs os : List ℕ) :
    os.foldl schedule (r.batching hs) = r.batching (hs ++ os) := by
  induction os generalizing hs with
  | nil => rw [List.foldl_nil, List.append_nil]
  | cons o os ih =>
    rw [List.foldl_cons, schedule_batching, ih, List.append_assoc, List.singleton_append]

/-- Scheduling changes nothing but the batch. -/
theorem batching_foldl_schedule (r : Reactive) (hs os : List ℕ) :
    (os.foldl schedule r).batching hs = r.batching hs := by
  induction os generalizing r with
  | nil => rfl
  | cons o os ih =>
    have hone : (r.schedule o).batching hs = r.batching hs := by
      by_cases ho : o ∈ r.pending <;> cases hflush : r.scheduled <;>
        simp [schedule, enqueue, batching, ho, hflush]
    rw [List.foldl_cons, ih, hone]

theorem change_batching (r : Reactive) (hs : List ℕ) (s : ℕ) (v : Value) :
    ((r.batching hs).write s v).notify s =
      ((r.write s v).notify s).batching (hs ++ r.subscribers s) := by
  have hsubscribers : (r.write s v).subscribers s = r.subscribers s := subscribers_write r s s v
  have hwrite : (r.batching hs).write s v = (r.write s v).batching hs := rfl
  have hclear : ((r.write s v).batching hs).modifySignal s (fun g => { g with subscribers := [] }) =
      ((r.write s v).modifySignal s fun g => { g with subscribers := [] }).batching hs := rfl
  have hsame : ((r.write s v).batching hs).subscribers s = r.subscribers s := hsubscribers
  rw [hwrite, notify, notify, hsame, hsubscribers, hclear, foldl_schedule_batching,
    batching_foldl_schedule]

theorem perform_batching (r : Reactive) (hs : List ℕ) (d : Write) :
    d.perform (r.batching hs) = (d.perform r).batching (hs ++ d.hit r) := by
  cases d with
  | set s v =>
    have hvalue : (r.batching hs).value s = r.value s := rfl
    simp only [Write.perform, Write.hit, set, hvalue]
    split_ifs with hv
    · rw [List.append_nil]
    · exact change_batching r hs s v
  | update s arg => exact change_batching r hs s _

theorem writing_batching (r : Reactive) (hs : List ℕ) (writes : List Write) :
    (r.batching hs).writing writes = (r.writing writes).batching (hs ++ r.hits writes) := by
  induction writes generalizing r hs with
  | nil => rw [hits, List.append_nil, writing, writing, List.foldl_nil, List.foldl_nil]
  | cons d ds ih =>
    have hfirst : (r.batching hs).writing (d :: ds) = (d.perform (r.batching hs)).writing ds := rfl
    rw [hfirst, perform_batching, ih, hits, List.append_assoc]
    rfl

/-- Without a batch before them, writes leave the batch of the observers that they come upon. -/
theorem writing_eq (hpending : r.pending = []) (hscheduled : r.scheduled = false)
    (hqueue : r.queue = []) : r.writing writes = (r.writing writes).batching (r.hits writes) := by
  have hidle : r = r.batching [] := by
    cases r
    simp only at hpending hscheduled hqueue
    subst hpending hscheduled hqueue
    rfl
  have h := writing_batching r [] writes
  rwa [← hidle, List.nil_append] at h

/-- Setting a signal to an equal value does nothing. -/
theorem writing_concat_of_equal {v : Value} (h : ((r.writing writes).value s).equal v = true) :
    r.writing (writes ++ [.set s v]) = r.writing writes := by
  rw [writing, List.foldl_append]
  exact if_pos h

theorem running_foldl_schedule (os : List ℕ) (r : Reactive) :
    (os.foldl schedule r).running = r.running := by
  induction os generalizing r with
  | nil => rfl
  | cons o os ih =>
    have hone : (r.schedule o).running = r.running := by
      by_cases ho : o ∈ r.pending <;> cases hflush : r.scheduled <;>
        simp [schedule, enqueue, ho, hflush]
    rw [List.foldl_cons, ih, hone]

/-- Writes add no observer, and run none. -/
theorem frame_writing (r : Reactive) (writes : List Write) :
    (r.writing writes).observers = r.observers ∧ (r.writing writes).running = r.running := by
  have hchange (r : Reactive) (s : ℕ) (v : Value) :
      ((r.write s v).notify s).observers = r.observers ∧
        ((r.write s v).notify s).running = r.running :=
    ⟨observers_foldl_schedule _ _, running_foldl_schedule _ _⟩
  induction writes generalizing r with
  | nil => exact ⟨rfl, rfl⟩
  | cons d ds ih =>
    have hone : (d.perform r).observers = r.observers ∧ (d.perform r).running = r.running := by
      cases d with
      | set s v =>
        simp only [Write.perform, set]
        split_ifs
        · exact ⟨rfl, rfl⟩
        · exact hchange r s v
      | update s arg => exact hchange r s _
    exact ⟨(ih _).1.trans hone.1, (ih _).2.trans hone.2⟩

end Reactive

/-! ### Scripts that write -/

/-- The world after several writes. -/
def World.writing (w : World) (writes : List Write) : World := w.modifyReactive (·.writing writes)

namespace Run

variable {w : World} {commands : Script}

theorem command_of_write {c : Command} {d : Write} (hd : Write.ofCommand? w.signals c = some d)
    (run : Runner) : Run.command run c w = some (.nothing, w.modifyReactive (d.perform ·)) := by
  unfold Write.ofCommand? at hd
  split at hd
  · rename_i name v half
    change onSignals (.set name v half) w = _
    cases hs : w.signals.signal? name half with
    | error failure => simp [hs, Except.toOption] at hd
    | ok g =>
      obtain rfl : Write.set g v = d := by simpa [hs, Except.toOption] using hd
      simp only [onSignals, Signals.run, hs]
      rfl
  · rename_i name arg half
    change onSignals (.update name arg half) w = _
    cases hs : w.signals.signal? name half with
    | error failure => simp [hs, Except.toOption] at hd
    | ok g =>
      obtain rfl : Write.update g arg = d := by simpa [hs, Except.toOption] using hd
      simp only [onSignals, Signals.run, hs]
      rfl
  · cases hd

/-- A script of commands that set and update signals makes its writes, one after the other. -/
theorem yields_writes {writes : List Write}
    (h : commands.mapM (Write.ofCommand? w.signals) = some writes) :
    Yields (fun run => Activity.body run commands) w () (w.writing writes) := by
  induction commands generalizing w writes with
  | nil =>
    cases h
    exact .of_eq fun _ => rfl
  | cons c cs ih =>
    rw [List.mapM_cons] at h
    simp only [Option.bind_eq_bind, Option.bind_eq_some_iff, Option.pure_def,
      Option.some.injEq] at h
    obtain ⟨d, hd, ds, hds, rfl⟩ := h
    have hone : Yields (fun run => Run.job run (.command c)) w .nothing
        (w.modifyReactive (d.perform ·)) := .of_eq (command_of_write hd)
    have hrest := ih (w := w.modifyReactive (d.perform ·)) hds
    have hnote : Yields (fun _ => Activity.note .nothing) (w.modifyReactive (d.perform ·)) ()
        (w.modifyReactive (d.perform ·)) := .of_eq fun _ => rfl
    exact hone.job.bind (hnote.bind hrest)

end Run

end LiveMarkup
