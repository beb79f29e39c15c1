import Mathlib.Data.List.Basic
import LiveMarkup.Signals.Reactive

/-!
# Subscribing and scheduling

What the operations on signals do to the subscribers of signals, to the batch of pending observers
and to the queue of tasks.  Reading adds subscribers and leaves the batch alone; changing a signal
empties its list of subscribers, all of which are in the batch afterwards.

Only a flush takes observers out of the batch.  For everything else `Reactive.Extends` says what
becomes of it: the batch grows at its end, and it still has a flush exactly if it is open.
-/

namespace LiveMarkup.Reactive

variable {r : Reactive} {o s t : Nat}

/-- With `executing` flushes under way, the batch has one flush if it is open and none otherwise,
and it is open if an observer is in it. -/
structure Balanced (r : Reactive) (executing : Nat) : Prop where
  flushes_eq : r.queue.count .flush + executing = r.scheduled.toNat
  scheduled_of_pending : r.pending ≠ [] → r.scheduled = true

/-- The batch has grown at its end and is still balanced. -/
structure Extends (r r' : Reactive) : Prop where
  pending_grows : r.pending <+: r'.pending
  balanced {executing : Nat} : r.Balanced executing → r'.Balanced executing

namespace Extends

theorem refl (r : Reactive) : Extends r r := ⟨List.prefix_rfl, id⟩

theorem trans {r' r'' : Reactive} (h : Extends r r') (h' : Extends r' r'') : Extends r r'' :=
  ⟨h.pending_grows.trans h'.pending_grows, fun hb => h'.balanced (h.balanced hb)⟩

/-- Where batch and queue are the same. -/
theorem of_eq {r' : Reactive} (hp : r'.pending = r.pending) (hs : r'.scheduled = r.scheduled)
    (hq : r'.queue.count .flush = r.queue.count .flush) : Extends r r' :=
  ⟨hp ▸ List.prefix_rfl, fun hb => ⟨by rw [hq, hs, hb.flushes_eq], by
    rw [hp, hs]
    exact hb.scheduled_of_pending⟩⟩

end Extends

/-! ### The batch -/

theorem mem_pending_schedule (r : Reactive) (o : Nat) : o ∈ (r.schedule o).pending := by
  by_cases ho : o ∈ r.pending <;> cases hs : r.scheduled <;> simp [schedule, enqueue, ho, hs]

@[simp] theorem signals_schedule (r : Reactive) (o : Nat) :
    (r.schedule o).signals = r.signals := by
  by_cases ho : o ∈ r.pending <;> cases hs : r.scheduled <;> simp [schedule, enqueue, ho, hs]

theorem extends_schedule (r : Reactive) (o : Nat) : Extends r (r.schedule o) := by
  by_cases ho : o ∈ r.pending <;> cases hs : r.scheduled
  all_goals
    refine ⟨by simp [schedule, enqueue, ho, hs], fun hb => ?_⟩
    have hcount := hb.flushes_eq
    rw [hs] at hcount
    refine ⟨?_, by simp [schedule, enqueue, ho, hs]⟩
    simp [schedule, enqueue, ho, hs] at hcount ⊢
    omega

theorem foldl_schedule (os : List Nat) (r : Reactive) :
    Extends r (os.foldl schedule r) ∧ (∀ o ∈ os, o ∈ (os.foldl schedule r).pending) ∧
      (os.foldl schedule r).signals = r.signals := by
  induction os generalizing r with
  | nil => exact ⟨Extends.refl r, by simp, rfl⟩
  | cons o os ih =>
    obtain ⟨hext, hmem, hsig⟩ := ih (r.schedule o)
    refine ⟨(extends_schedule r o).trans hext, ?_, hsig.trans (signals_schedule r o)⟩
    intro p hp
    rcases List.mem_cons.1 hp with rfl | hp
    · exact hext.pending_grows.subset (mem_pending_schedule r p)
    · exact hmem p hp

/-! ### Subscribers -/

theorem subscribers_eq_of_signals {r' : Reactive} (h : r'.signals = r.signals) :
    r'.subscribers s = r.subscribers s := by rw [subscribers, subscribers, h]

theorem subscribers_modifySignal (r : Reactive) (s t : Nat) (change : Signal → Signal) :
    (r.modifySignal s change).subscribers t =
      if t = s ∧ s < r.signals.size then (change (r.signals.getD s default)).subscribers
      else r.subscribers t := by
  by_cases ht : t = s
  · subst ht
    by_cases hs : t < r.signals.size <;>
      simp [subscribers, modifySignal, hs, Array.getElem_modify]
  · simp [subscribers, modifySignal, Array.getElem?_modify, ht, Ne.symm ht]

theorem subscribers_write (r : Reactive) (s t : Nat) (v : Value) :
    (r.write s v).subscribers t = r.subscribers t := by
  rw [write, subscribers_modifySignal]
  split_ifs with h
  · rw [h.1]; rfl
  · rfl

theorem subscribers_addSignal (r : Reactive) (v : Value) (t : Nat) :
    (r.addSignal v).2.subscribers t = r.subscribers t := by
  by_cases ht : t = r.signals.size
  · subst ht
    simp [addSignal, subscribers]
    rfl
  · simp [addSignal, subscribers, Array.getElem?_push, ht]

/-- A current observer that reads a signal is subscribed to it, if there is such a signal. -/
theorem mem_subscribers_track (hs : s < r.signals.size) (hc : r.current = some o) :
    o ∈ (r.track s).subscribers s := by
  rw [track, hc]
  by_cases ho : o ∈ r.subscribers s
  · simp [subscribe, ho]
  · simp [subscribe, ho, subscribers_modifySignal, hs]

theorem subscribers_subset_track (r : Reactive) (s t : Nat) :
    r.subscribers t ⊆ (r.track s).subscribers t := by
  rw [track]
  cases r.current with
  | none => exact List.Subset.refl _
  | some o =>
    by_cases ho : o ∈ r.subscribers s
    · simp [subscribe, ho]
    · simp only [subscribe, List.contains_iff_mem, ho, if_false]
      rw [subscribers_modifySignal]
      split_ifs with h
      · rw [h.1]
        exact List.subset_append_left _ _
      · exact List.Subset.refl _

theorem extends_track (r : Reactive) (s : Nat) : Extends r (r.track s) := by
  rw [track]
  cases r.current with
  | none => exact Extends.refl r
  | some o =>
    simp only [subscribe]
    split_ifs
    · exact Extends.refl r
    · exact Extends.of_eq rfl rfl rfl

/-- Notifying empties the list of subscribers and puts all of it into the batch. -/
theorem notify_spec (r : Reactive) (s : Nat) :
    Extends r (r.notify s) ∧ (∀ o ∈ r.subscribers s, o ∈ (r.notify s).pending) ∧
      ∀ t, t ≠ s → (r.notify s).subscribers t = r.subscribers t := by
  obtain ⟨hext, hmem, hsig⟩ := foldl_schedule (r.subscribers s)
    (r.modifySignal s fun g => { g with subscribers := [] })
  have hclear : Extends r (r.modifySignal s fun g => { g with subscribers := [] }) :=
    Extends.of_eq rfl rfl rfl
  refine ⟨hclear.trans hext, hmem, fun t ht => ?_⟩
  rw [notify, subscribers_eq_of_signals hsig, subscribers_modifySignal, if_neg fun h => ht h.1]

theorem extends_change (r : Reactive) (s : Nat) (v : Value) :
    Extends r ((r.write s v).notify s) := by
  have hwrite : Extends r (r.write s v) := Extends.of_eq rfl rfl rfl
  exact hwrite.trans (notify_spec _ s).1

end LiveMarkup.Reactive
