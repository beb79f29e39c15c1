import Mathlib.Data.List.Induction
import Mathlib.Data.List.Nodup
import Mathlib.Data.List.Perm.Subperm
import LiveMarkup.Proofs.Reactive.History

/-!
# Batches

A history is proper if every deed of it may come when it comes: what is scheduled or tracked is
there, a task that is taken is the first of the queue, and a flush goes through the batch in order
and to its end.  Nothing else is asked of it, so code that observers and tasks run may do what it
likes between the deeds of a flush, and take tasks out of the queue as well.

In the state that a proper history leads to, neither the batch nor a list of subscribers names an
observer twice, and the batch has one flush, queued or under way, if it is open, and none otherwise
(`History.Proper.batched`).  So a flush comes to an observer once at most.
-/

namespace LiveMarkup

/-! ### Lists of observers -/

namespace Reactive

variable {r : Reactive} {o s : Nat}

theorem pending_schedule (r : Reactive) (o : Nat) :
    (r.schedule o).pending = if o ∈ r.pending then r.pending else r.pending ++ [o] := by
  by_cases ho : o ∈ r.pending <;> cases hs : r.scheduled <;> simp [schedule, enqueue, ho, hs]

@[simp] theorem observers_schedule (r : Reactive) (o : Nat) :
    (r.schedule o).observers = r.observers := by
  by_cases ho : o ∈ r.pending <;> cases hs : r.scheduled <;> simp [schedule, enqueue, ho, hs]

@[simp] theorem stack_schedule (r : Reactive) (o : Nat) : (r.schedule o).stack = r.stack := by
  by_cases ho : o ∈ r.pending <;> cases hs : r.scheduled <;> simp [schedule, enqueue, ho, hs]

@[simp] theorem observers_foldl_schedule (os : List Nat) (r : Reactive) :
    (os.foldl schedule r).observers = r.observers := by
  induction os generalizing r with
  | nil => rfl
  | cons o os ih => rw [List.foldl_cons, ih, observers_schedule]

/-- The batch, the lists of subscribers and the stack name observers that are there, and the batch
and the lists name each of them once. -/
structure Tidy (r : Reactive) : Prop where
  pending_nodup : r.pending.Nodup
  subscribers_nodup (s : Nat) : (r.subscribers s).Nodup
  pending_lt : ∀ o ∈ r.pending, o < r.observers.size
  subscribers_lt (s : Nat) : ∀ o ∈ r.subscribers s, o < r.observers.size
  stack_lt : ∀ o, some o ∈ r.stack → o < r.observers.size

namespace Tidy

theorem empty : Tidy .empty where
  pending_nodup := List.nodup_nil
  subscribers_nodup _ := List.nodup_nil
  pending_lt _ ho := absurd ho List.not_mem_nil
  subscribers_lt _ _ ho := absurd ho List.not_mem_nil
  stack_lt _ ho := absurd ho List.not_mem_nil

/-- Where the batch is the same, the lists of subscribers are, and the stack. -/
theorem of_eq (h : r.Tidy) {r' : Reactive} (hp : r'.pending = r.pending)
    (hs : ∀ s, r'.subscribers s = r.subscribers s) (hstack : r'.stack = r.stack)
    (ho : r.observers.size ≤ r'.observers.size) : r'.Tidy where
  pending_nodup := hp ▸ h.pending_nodup
  subscribers_nodup s := hs s ▸ h.subscribers_nodup s
  pending_lt o hmem := Nat.lt_of_lt_of_le (h.pending_lt o (hp ▸ hmem)) ho
  subscribers_lt s o hmem := Nat.lt_of_lt_of_le (h.subscribers_lt s o (hs s ▸ hmem)) ho
  stack_lt o hmem := Nat.lt_of_lt_of_le (h.stack_lt o (hstack ▸ hmem)) ho

theorem schedule (h : r.Tidy) (ho : o < r.observers.size) : (r.schedule o).Tidy where
  pending_nodup := by
    rw [pending_schedule]
    split_ifs with hmem
    · exact h.pending_nodup
    · exact List.concat_eq_append ▸ h.pending_nodup.concat hmem
  subscribers_nodup s := by
    rw [subscribers_eq_of_signals (signals_schedule r o)]
    exact h.subscribers_nodup s
  pending_lt p hp := by
    rw [observers_schedule]
    rw [pending_schedule] at hp
    split_ifs at hp
    · exact h.pending_lt p hp
    · rcases List.mem_append.1 hp with hp | hp
      · exact h.pending_lt p hp
      · exact List.mem_singleton.1 hp ▸ ho
  subscribers_lt s p hp := by
    rw [subscribers_eq_of_signals (signals_schedule r o)] at hp
    rw [observers_schedule]
    exact h.subscribers_lt s p hp
  stack_lt p hp := by
    rw [stack_schedule] at hp
    rw [observers_schedule]
    exact h.stack_lt p hp

theorem foldl_schedule (h : r.Tidy) {os : List Nat} (hos : ∀ o ∈ os, o < r.observers.size) :
    (os.foldl Reactive.schedule r).Tidy := by
  induction os generalizing r with
  | nil => exact h
  | cons o os ih =>
    obtain ⟨ho, hos⟩ := List.forall_mem_cons.1 hos
    exact ih (h.schedule ho) fun p hp => by
      rw [observers_schedule]
      exact hos p hp

/-- Where a signal gets a new list of subscribers. -/
theorem modifySignal (h : r.Tidy) (change : Signal → Signal)
    (hn : (change (r.signals.getD s default)).subscribers.Nodup)
    (hlt : ∀ o ∈ (change (r.signals.getD s default)).subscribers, o < r.observers.size) :
    (r.modifySignal s change).Tidy where
  pending_nodup := h.pending_nodup
  subscribers_nodup t := by
    rw [subscribers_modifySignal]
    split_ifs
    · exact hn
    · exact h.subscribers_nodup t
  pending_lt := h.pending_lt
  subscribers_lt t o ho := by
    rw [subscribers_modifySignal] at ho
    split_ifs at ho
    · exact hlt o ho
    · exact h.subscribers_lt t o ho
  stack_lt := h.stack_lt

theorem subscribe (h : r.Tidy) (s : Nat) (ho : o < r.observers.size) : (r.subscribe s o).Tidy := by
  rw [Reactive.subscribe]
  split_ifs with hmem
  · exact h
  · rw [List.contains_iff_mem] at hmem
    refine h.modifySignal _ (List.concat_eq_append ▸ (h.subscribers_nodup s).concat hmem)
      fun p hp => ?_
    rcases List.mem_append.1 hp with hp | hp
    · exact h.subscribers_lt s p hp
    · exact List.mem_singleton.1 hp ▸ ho

theorem track (h : r.Tidy) (s : Nat) : (r.track s).Tidy := by
  rw [Reactive.track]
  cases hc : r.current with
  | none => exact h
  | some o =>
    have htop : r.stack.head? = some (some o) := Option.join_eq_some_iff.1 hc
    exact h.subscribe s (h.stack_lt o (List.mem_of_head? htop))

theorem write (h : r.Tidy) (s : Nat) (v : Value) : (r.write s v).Tidy :=
  h.of_eq rfl (subscribers_write r s · v) rfl (Nat.le_refl _)

theorem notify (h : r.Tidy) (s : Nat) : (r.notify s).Tidy :=
  (h.modifySignal (fun g => { g with subscribers := [] }) List.nodup_nil
    fun _ hp => absurd hp List.not_mem_nil).foldl_schedule (h.subscribers_lt s)

end Tidy

end Reactive

/-! ### Proper histories -/

namespace Deed

variable {r : Reactive} {d : Deed}

/-- Whether the observer that a deed schedules, or makes the current one, is there. -/
def Known (r : Reactive) : Deed → Prop
  | schedule o => o < r.observers.size
  | push (some o) => o < r.observers.size
  | _ => True

/-- No deed takes an observer away. -/
theorem size_observers_le_perform (r : Reactive) (d : Deed) :
    r.observers.size ≤ (d.perform r).observers.size := by
  cases d with
  | addObserver o => simp [perform, Reactive.addObserver]
  | track s =>
    simp only [perform, Reactive.track, Reactive.subscribe]
    cases r.current with
    | none => exact Nat.le_refl _
    | some o =>
      dsimp only
      split_ifs
      · exact Nat.le_refl _
      · exact Nat.le_refl _
  | set s v =>
    simp only [perform, Reactive.set]
    split_ifs
    · exact Nat.le_refl _
    · simp [Reactive.notify, Reactive.write, Reactive.modifySignal]
  | update s arg =>
    simp [perform, Reactive.update, Reactive.notify, Reactive.write, Reactive.modifySignal]
  | schedule o => rw [perform, Reactive.observers_schedule]
  | _ => exact Nat.le_refl _

theorem tidy_perform (h : r.Tidy) (hd : d.Known r) : (d.perform r).Tidy := by
  cases d with
  | addSignal v => exact h.of_eq rfl (Reactive.subscribers_addSignal r v) rfl (Nat.le_refl _)
  | addObserver o => exact h.of_eq rfl (fun _ => rfl) rfl (by simp [perform, Reactive.addObserver])
  | track s => exact h.track s
  | set s v =>
    rw [perform, Reactive.set]
    split_ifs
    · exact h
    · exact (h.write s v).notify s
  | update s arg => exact (h.write s _).notify s
  | schedule o => exact h.schedule hd
  | push o =>
    refine ⟨h.pending_nodup, h.subscribers_nodup, h.pending_lt, h.subscribers_lt, fun p hp => ?_⟩
    rcases List.mem_cons.1 hp with rfl | hp
    · exact hd
    · exact h.stack_lt p hp
  | pop =>
    exact ⟨h.pending_nodup, h.subscribers_nodup, h.pending_lt, h.subscribers_lt,
      fun p hp => h.stack_lt p (List.mem_of_mem_tail hp)⟩
  | close =>
    exact ⟨List.nodup_nil, h.subscribers_nodup, fun _ hp => absurd hp List.not_mem_nil,
      h.subscribers_lt, h.stack_lt⟩
  | _ => exact h.of_eq rfl (fun _ => rfl) rfl (Nat.le_refl _)

end Deed

namespace History

variable {h : History} {d : Deed}

/-- Whether a deed may come after a history and speaks of observers that are there. -/
def Permits (h : History) (d : Deed) : Prop := h.Allows d ∧ d.Known h.state

/-- Whether every deed of a history may come when it comes. -/
def Proper (h : History) : Prop :=
  ∀ (a : History) (d : Deed) (b : History), h = a ++ d :: b → a.Permits d

/-- How many flushes are under way. -/
def flushing (h : History) : Nat :=
  h.foldl (fun n d => match d with
    | .take .flush => n + 1
    | .close => n - 1
    | _ => n) 0

/-- What holds of a batch at all times. -/
structure Batched (h : History) : Prop where
  pending_nodup : h.state.pending.Nodup
  subscribers_nodup (s : Nat) : (h.state.subscribers s).Nodup
  flushes_eq : h.state.queue.count .flush + h.flushing = if h.state.scheduled then 1 else 0
  scheduled_of_pending : h.state.pending ≠ [] → h.state.scheduled = true
  /-- The flush that is under way has come to no observer twice. -/
  taken_nodup : h.taken.Nodup
  length_taken_le : h.taken.length ≤ h.state.observers.size
  /-- The batch is empty and closed when the queue is empty outside of all flushes. -/
  closed_of_queue : h.flushing = 0 → h.state.queue = [] →
    h.state.pending = [] ∧ h.state.scheduled = false

theorem proper_nil : Proper [] := by
  intro a d b h
  cases a <;> cases h

theorem proper_concat_iff : Proper (h ++ [d]) ↔ h.Proper ∧ h.Permits d := by
  constructor
  · intro hp
    exact ⟨fun a e b he => hp a e (b ++ [d]) (by simp [he]), hp h d [] rfl⟩
  · rintro ⟨hp, hd⟩ a e b he
    rcases concat_eq_append_cons_iff.1 he with ⟨rfl, rfl, -⟩ | ⟨c, -, rfl⟩
    · exact hd
    · exact hp a e c rfl

theorem Proper.left {a b : History} (hp : Proper (a ++ b)) : a.Proper :=
  fun c d e he => hp c d (e ++ b) (by simp [he])

theorem Proper.orderly (hp : h.Proper) : h.Orderly := by
  induction h using List.reverseRecOn with
  | nil => exact orderly_nil
  | append_singleton h d ih =>
    obtain ⟨hp, hd⟩ := proper_concat_iff.1 hp
    exact (ih hp).concat hd.1

theorem Proper.tidy (hp : h.Proper) : h.state.Tidy := by
  induction h using List.reverseRecOn with
  | nil => exact Reactive.Tidy.empty
  | append_singleton h d ih =>
    obtain ⟨hp, hd⟩ := proper_concat_iff.1 hp
    rw [state_concat]
    exact Deed.tidy_perform (ih hp) hd.2

/-- Flushes do not overlap, so one is under way or none. -/
theorem Proper.flushing_eq (hp : h.Proper) : h.flushing = h.executing.toNat := by
  induction h using List.reverseRecOn with
  | nil => rfl
  | append_singleton g d ih =>
    obtain ⟨hg, hd⟩ := proper_concat_iff.1 hp
    have hold := ih hg
    cases d with
    | take t =>
      cases t with
      | flush =>
        rw [(hg.orderly.concat_take_flush hd.1).1] at hold
        simpa [flushing, executing] using hold
      | routine n => simpa [flushing, executing] using hold
    | close =>
      rw [show executing g = true from hd.1.1] at hold
      have hlast : flushing (g ++ [.close]) = flushing g - 1 := by simp [flushing]
      rw [hlast, hold]
      simp [executing]
    | _ => simpa [flushing, executing] using hold

/-- A batch is as it should be at every time of a proper history. -/
theorem Proper.batched (hp : h.Proper) : h.Batched := by
  have hbalanced := hp.orderly.balanced
  have htidy := hp.tidy
  have hcount : h.state.queue.count .flush + h.flushing = if h.state.scheduled then 1 else 0 := by
    rw [hp.flushing_eq, hbalanced.flushes_eq]
    cases h.state.scheduled <;> rfl
  have htaken := hp.orderly.taken_initial
  refine ⟨htidy.pending_nodup, htidy.subscribers_nodup, hcount, hbalanced.scheduled_of_pending,
    htidy.pending_nodup.sublist htaken.sublist, ?_, fun hf hq => ?_⟩
  · have hsub : h.taken ⊆ List.range h.state.observers.size := fun o ho =>
      List.mem_range.2 (htidy.pending_lt o (htaken.subset ho))
    have hnodup := htidy.pending_nodup.sublist htaken.sublist
    simpa using (List.subperm_of_subset hnodup hsub).length_le
  · have hclosed : h.state.scheduled = false := by
      cases hs : h.state.scheduled
      · rfl
      · rw [hf, hq, hs] at hcount
        cases hcount
    refine ⟨by_contra fun hne => ?_, hclosed⟩
    rw [hbalanced.scheduled_of_pending hne] at hclosed
    cases hclosed

end History

end LiveMarkup
