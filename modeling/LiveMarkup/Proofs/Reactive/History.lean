import Mathlib.Data.List.Infix
import LiveMarkup.Proofs.Reactive.Scheduling

/-!
# Histories of signals

The state of signals and observers comes about by deeds, one after the other: reads and writes,
effects that begin and end, tasks that are taken from the queue, observers that have their turn in a
flush.  A `History` is a list of deeds, and all of its past states can be computed from it.

An effect is *stale* for a signal if it read the signal in its latest run and the signal was changed
after that.  The change is *missed* if the effect had already had its turn in the batch of that
time, or if its next turn came while it was still running.  In an orderly history every stale effect
has missed a change or is still going to have its turn (`Orderly.stale`); so once the batch is
closed, exactly the effects that have missed a change are stale.
-/

namespace LiveMarkup

/-- A single change of the state of signals and observers. -/
inductive Deed where
  | addSignal (v : Value)
  | addObserver (o : Observer)
  /-- The current observer, if any, reads a signal. -/
  | track (s : Nat)
  | set (s : Nat) (v : Value)
  | update (s : Nat) (arg : Value)
  | schedule (o : Nat)
  | enqueue (routine : Nat)
  /-- The first task is taken out of the queue. -/
  | take (t : Microtask)
  /-- An effect begins to run. -/
  | start (o : Nat)
  | finish (o : Nat)
  | push (o : Option Nat)
  | pop
  /-- A flush comes to an observer of the batch. -/
  | turn (o : Nat)
  /-- A flush has come to the end of the batch. -/
  | close
  deriving DecidableEq

namespace Deed

/-- The state after a deed. -/
def perform (r : Reactive) : Deed → Reactive
  | addSignal v => (r.addSignal v).2
  | addObserver o => (r.addObserver o).2
  | track s => r.track s
  | set s v => r.set s v
  | update s arg => r.update s arg
  | schedule o => r.schedule o
  | enqueue n => r.enqueue (.routine n)
  | take _ => { r with queue := r.queue.tail }
  | start o => r.start o
  | finish o => r.finish o
  | push o => r.push o
  | pop => r.pop
  | turn _ => r
  | close => r.closeBatch

/-- Whether a deed changes a signal: it sets it to another value or updates it. -/
def Changes (r : Reactive) (s : Nat) : Deed → Prop
  | set t v => t = s ∧ (r.value t).equal v = false
  | update t _ => t = s
  | _ => False

end Deed

/-- What has happened to signals and observers, in order. -/
abbrev History := List Deed

namespace History

variable {h : History} {d : Deed} {o s : Nat}

/-- The state that a history leads to. -/
def state (h : History) : Reactive := h.foldl Deed.perform .empty

/-- The observers that have had their turn in the batch, in order. -/
def taken (h : History) : List Nat :=
  h.foldl (fun os d => match d with
    | .turn o => os ++ [o]
    | .close => []
    | _ => os) []

/-- Whether a flush is under way. -/
def executing (h : History) : Bool :=
  h.foldl (fun b d => match d with
    | .take .flush => true
    | .close => false
    | _ => b) false

/-- The observers of the batch that are going to have their turn. -/
def waiting (h : History) : List Nat := h.state.pending.drop h.taken.length

/-- Whether an effect has read a signal in its latest run. -/
def Read (h : History) (o s : Nat) : Prop :=
  ∃ a b : History, h = a ++ .track s :: b ∧ a.state.current = some o ∧ .start o ∉ b

/-- Whether a signal has been changed since an effect read it in its latest run. -/
def Stale (h : History) (o s : Nat) : Prop :=
  ∃ (a : History) (d : Deed) (b : History), h = a ++ d :: b ∧ d.Changes a.state s ∧
    a.Read o s ∧ .start o ∉ b

/-- Whether a signal has been changed since an effect read it in its latest run, and at the time of
the change the effect had had its turn in the batch, or it has had a turn since and did not run. -/
def Missed (h : History) (o s : Nat) : Prop :=
  ∃ (a : History) (d : Deed) (b : History), h = a ++ d :: b ∧ d.Changes a.state s ∧
    a.Read o s ∧ .start o ∉ b ∧ (o ∈ a.taken ∨ .turn o ∈ b)

theorem Missed.stale (hm : h.Missed o s) : h.Stale o s := by
  obtain ⟨a, d, b, e, hd, hr, hb, -⟩ := hm
  exact ⟨a, d, b, e, hd, hr, hb⟩

/-! ### One more deed -/

@[simp] theorem state_concat (h : History) (d : Deed) : state (h ++ [d]) = d.perform h.state := by
  simp [state]

theorem concat_eq_append_cons_iff {e : Deed} {a b : History} :
    h ++ [e] = a ++ d :: b ↔ (a = h ∧ d = e ∧ b = []) ∨ ∃ c, b = c ++ [e] ∧ h = a ++ d :: c := by
  rcases List.eq_nil_or_concat' b with rfl | ⟨c, x, rfl⟩
  · constructor
    · intro he
      obtain ⟨rfl, hd⟩ := List.append_inj' he rfl
      exact Or.inl ⟨rfl, (List.cons.inj hd).1.symm, rfl⟩
    · rintro (⟨rfl, rfl, -⟩ | ⟨c, hc, -⟩)
      · rfl
      · cases c <;> cases hc
  · have hassoc : a ++ d :: (c ++ [x]) = (a ++ d :: c) ++ [x] := by simp
    rw [hassoc]
    constructor
    · intro he
      obtain ⟨rfl, hx⟩ := List.append_inj' he rfl
      exact Or.inr ⟨c, by rw [(List.cons.inj hx).1], rfl⟩
    · rintro (⟨-, -, hc⟩ | ⟨c', hc, rfl⟩)
      · cases c <;> cases hc
      · obtain ⟨rfl, hx⟩ := List.append_inj' hc rfl
        rw [(List.cons.inj hx).1]

theorem read_concat : Read (h ++ [d]) o s ↔
    (d = .track s ∧ h.state.current = some o) ∨ (h.Read o s ∧ d ≠ .start o) := by
  constructor
  · rintro ⟨a, b, e, hc, hb⟩
    rcases concat_eq_append_cons_iff.1 e with ⟨rfl, rfl, rfl⟩ | ⟨c, rfl, rfl⟩
    · exact Or.inl ⟨rfl, hc⟩
    · simp only [List.mem_append, List.mem_singleton, not_or] at hb
      exact Or.inr ⟨⟨a, c, rfl, hc, hb.1⟩, Ne.symm hb.2⟩
  · rintro (⟨rfl, hc⟩ | ⟨⟨a, b, rfl, hc, hb⟩, hd⟩)
    · exact ⟨h, [], rfl, hc, by simp⟩
    · exact ⟨a, b ++ [d], by simp, hc, by simp [hb, Ne.symm hd]⟩

theorem stale_concat : Stale (h ++ [d]) o s ↔
    (d.Changes h.state s ∧ h.Read o s) ∨ (h.Stale o s ∧ d ≠ .start o) := by
  constructor
  · rintro ⟨a, e, b, he, hd, hr, hb⟩
    rcases concat_eq_append_cons_iff.1 he with ⟨rfl, rfl, rfl⟩ | ⟨c, rfl, rfl⟩
    · exact Or.inl ⟨hd, hr⟩
    · simp only [List.mem_append, List.mem_singleton, not_or] at hb
      exact Or.inr ⟨⟨a, e, c, rfl, hd, hr, hb.1⟩, Ne.symm hb.2⟩
  · rintro (⟨hd, hr⟩ | ⟨⟨a, e, b, rfl, he, hr, hb⟩, hd⟩)
    · exact ⟨h, d, [], rfl, hd, hr, by simp⟩
    · exact ⟨a, e, b ++ [d], by simp, he, hr, by simp [hb, Ne.symm hd]⟩

theorem Missed.concat (hm : h.Missed o s) (hd : d ≠ .start o) : Missed (h ++ [d]) o s := by
  obtain ⟨a, e, b, rfl, he, hr, hb, ht⟩ := hm
  exact ⟨a, e, b ++ [d], by simp, he, hr, by simp [hb, Ne.symm hd], ht.imp_right (by simp [·])⟩

/-- A change that comes after the turn of an effect is missed. -/
theorem missed_of_taken (hd : d.Changes h.state s) (hr : h.Read o s) (ho : o ∈ h.taken) :
    Missed (h ++ [d]) o s :=
  ⟨h, d, [], rfl, hd, hr, by simp, Or.inl ho⟩

/-- A stale effect that has its turn and does not run misses the change. -/
theorem Stale.missed_of_turn (hs : h.Stale o s) : Missed (h ++ [.turn o]) o s := by
  obtain ⟨a, e, b, rfl, he, hr, hb⟩ := hs
  exact ⟨a, e, b ++ [.turn o], by simp, he, hr, by simp [hb], Or.inr (by simp)⟩

end History

/-! ### What deeds do -/

namespace Deed

variable {r : Reactive} {d : Deed} {o s : Nat}

/-- Every observer that is subscribed to a signal is in the batch when the signal is changed. -/
theorem mem_pending_of_changes (hd : d.Changes r s) (ho : o ∈ r.subscribers s) :
    o ∈ (d.perform r).pending := by
  cases d with
  | set t v =>
    obtain ⟨rfl, hv⟩ := hd
    simp only [perform, Reactive.set, hv, Bool.false_eq_true, if_false]
    exact (Reactive.notify_spec _ t).2.1 o (by rwa [Reactive.subscribers_write])
  | update t arg =>
    obtain rfl : t = s := hd
    exact (Reactive.notify_spec _ t).2.1 o (by rwa [Reactive.subscribers_write])
  | _ => exact hd.elim

/-- No observer loses its subscription to a signal that is not changed. -/
theorem mem_subscribers_of_not_changes (hd : ¬ d.Changes r s) (ho : o ∈ r.subscribers s) :
    o ∈ (d.perform r).subscribers s := by
  cases d with
  | addSignal v => exact (Reactive.subscribers_addSignal r v s).symm ▸ ho
  | track t => exact Reactive.subscribers_subset_track r t s ho
  | set t v =>
    simp only [perform, Reactive.set]
    split_ifs with hv
    · exact ho
    · have hts : s ≠ t := fun e => hd ⟨e.symm, by simpa using hv⟩
      rwa [(Reactive.notify_spec _ t).2.2 s hts, Reactive.subscribers_write]
  | update t arg =>
    have hts : s ≠ t := fun e => hd e.symm
    rwa [perform, Reactive.update, (Reactive.notify_spec _ t).2.2 s hts,
      Reactive.subscribers_write]
  | schedule p =>
    rwa [perform, Reactive.subscribers_eq_of_signals (Reactive.signals_schedule r p)]
  | _ => exact ho

/-- Whether a deed is no part of a flush. -/
def Ordinary (r : Reactive) : Deed → Prop
  | take t => ∃ n queue, t = .routine n ∧ r.queue = .routine n :: queue
  | turn _ => False
  | close => False
  | _ => True

theorem extends_perform (hd : d.Ordinary r) : r.Extends (d.perform r) := by
  cases d with
  | track t => exact Reactive.extends_track r t
  | set t v =>
    simp only [perform, Reactive.set]
    split_ifs
    · exact Reactive.Extends.refl r
    · exact Reactive.extends_change r t v
  | update t arg => exact Reactive.extends_change r t _
  | schedule p => exact Reactive.extends_schedule r p
  | enqueue n => exact Reactive.Extends.of_eq rfl rfl (by simp [perform, Reactive.enqueue])
  | take t =>
    obtain ⟨n, queue, rfl, hq⟩ := hd
    exact Reactive.Extends.of_eq rfl rfl (by simp [perform, hq])
  | turn p | close => exact hd.elim
  | _ => exact Reactive.Extends.of_eq rfl rfl rfl

end Deed

namespace History

variable {h : History} {d : Deed} {o s : Nat}

/-! ### Orderly histories -/

/-- Whether a deed may come after a history: a signal that is read is there, a task that is taken is
the first, and a flush goes through the batch in order and to its end. -/
def Allows (h : History) : Deed → Prop
  | .track s => s < h.state.signals.size
  | .take t => ∃ queue, h.state.queue = t :: queue
  | .turn o => h.executing = true ∧ h.state.pending[h.taken.length]? = some o
  | .close => h.executing = true ∧ h.state.pending.length ≤ h.taken.length
  | _ => True

/-- The observers that have had their turn come first in the batch, the batch is balanced, and an
effect that has read a signal is still subscribed to it, or is stale; and if it is stale, it has
missed a change or is waiting. -/
structure Orderly (h : History) : Prop where
  taken_initial : h.taken <+: h.state.pending
  taken_of_idle : h.executing = false → h.taken = []
  balanced : h.state.Balanced h.executing.toNat
  subscribed {o s : Nat} : h.Read o s → o ∈ h.state.subscribers s ∨ h.Stale o s
  stale {o s : Nat} : h.Stale o s → h.Missed o s ∨ o ∈ h.waiting

theorem mem_waiting (ht : h.taken <+: h.state.pending) (ho : o ∈ h.state.pending) :
    o ∈ h.taken ∨ o ∈ h.waiting := by
  obtain ⟨rest, hrest⟩ := ht
  rw [waiting, ← hrest, List.drop_left]
  rwa [← hrest, List.mem_append] at ho

theorem waiting_concat (ht : taken (h ++ [d]) = h.taken) (hd : d.Ordinary h.state)
    (ho : o ∈ h.waiting) : o ∈ waiting (h ++ [d]) := by
  obtain ⟨rest, hrest⟩ := (Deed.extends_perform hd).pending_grows
  rw [waiting, ht, state_concat, ← hrest, List.drop_append]
  exact List.mem_append_left _ ho

/-- Subscriptions after one more deed. -/
theorem Orderly.subscribed_concat (hh : h.Orderly) (hd : h.Allows d) (hr : Read (h ++ [d]) o s) :
    o ∈ (state (h ++ [d])).subscribers s ∨ Stale (h ++ [d]) o s := by
  rw [state_concat, stale_concat]
  rcases read_concat.1 hr with ⟨rfl, hc⟩ | ⟨hr, hne⟩
  · exact Or.inl (Reactive.mem_subscribers_track hd hc)
  · by_cases hch : d.Changes h.state s
    · exact Or.inr (Or.inl ⟨hch, hr⟩)
    · exact (hh.subscribed hr).imp (Deed.mem_subscribers_of_not_changes hch)
        fun hs => Or.inr ⟨hs, hne⟩

/-- Stale effects after a deed that is no part of a flush. -/
theorem Orderly.stale_concat_of_ordinary (hh : h.Orderly) (hd : d.Ordinary h.state)
    (ht : taken (h ++ [d]) = h.taken) (hs : Stale (h ++ [d]) o s) :
    Missed (h ++ [d]) o s ∨ o ∈ waiting (h ++ [d]) := by
  have hold : h.Stale o s → d ≠ .start o → Missed (h ++ [d]) o s ∨ o ∈ waiting (h ++ [d]) :=
    fun hs hne => (hh.stale hs).imp (·.concat hne) (waiting_concat ht hd)
  rcases stale_concat.1 hs with ⟨hch, hr⟩ | ⟨hs, hne⟩
  · rcases hh.subscribed hr with hsub | hs
    · have hext := Deed.extends_perform hd
      have hpre : taken (h ++ [d]) <+: (state (h ++ [d])).pending := by
        rw [ht, state_concat]
        exact hh.taken_initial.trans hext.pending_grows
      have hpend : o ∈ (state (h ++ [d])).pending := by
        rw [state_concat]
        exact Deed.mem_pending_of_changes hch hsub
      exact (mem_waiting hpre hpend).imp_left fun ho => missed_of_taken hch hr (ht ▸ ho)
    · exact hold hs (by rintro rfl; exact hch)
  · exact hold hs hne

theorem Orderly.concat_of_ordinary (hh : h.Orderly) (hd : h.Allows d) (ho : d.Ordinary h.state)
    (ht : taken (h ++ [d]) = h.taken) (he : executing (h ++ [d]) = h.executing) :
    Orderly (h ++ [d]) := by
  have hext := Deed.extends_perform ho
  refine ⟨?_, fun hi => ?_, ?_, hh.subscribed_concat hd, hh.stale_concat_of_ordinary ho ht⟩
  · rw [ht, state_concat]
    exact hh.taken_initial.trans hext.pending_grows
  · rw [ht, hh.taken_of_idle (he ▸ hi)]
  · rw [he, state_concat]
    exact hext.balanced hh.balanced

/-- A flush begins when none is under way. -/
theorem Orderly.concat_take_flush (hh : h.Orderly) (hd : h.Allows (.take .flush)) :
    h.executing = false ∧ Orderly (h ++ [.take .flush]) := by
  obtain ⟨queue, hq⟩ := hd
  have hcount := hh.balanced.flushes_eq
  have hle : h.state.scheduled.toNat ≤ 1 := Bool.toNat_le _
  rw [hq, List.count_cons_self] at hcount
  have hidle : h.executing = false := by
    rcases he : h.executing with _ | _
    · rfl
    · rw [he, Bool.toNat_true] at hcount
      omega
  have ht : taken (h ++ [.take .flush]) = h.taken := by simp [taken]
  have he : executing (h ++ [.take .flush]) = true := by simp [executing]
  have hw : waiting (h ++ [.take .flush]) = h.waiting := by simp [waiting, ht, Deed.perform]
  refine ⟨hidle, ?_, fun hi => by simp [he] at hi, ⟨?_, ?_⟩, hh.subscribed_concat ⟨queue, hq⟩,
    fun hs => ?_⟩
  · rw [ht, state_concat]
    exact hh.taken_initial
  · rw [he, state_concat]
    rw [hidle] at hcount
    simpa [Deed.perform, hq] using hcount
  · rw [state_concat]
    exact hh.balanced.scheduled_of_pending
  · rcases stale_concat.1 hs with ⟨hch, -⟩ | ⟨hs, hne⟩
    · exact hch.elim
    · rw [hw]
      exact (hh.stale hs).imp_left (·.concat hne)

theorem Orderly.concat_turn (hh : h.Orderly) (hd : h.Allows (.turn o)) :
    Orderly (h ++ [.turn o]) := by
  obtain ⟨hexec, hnext⟩ := hd
  have ht : taken (h ++ [.turn o]) = h.taken ++ [o] := by simp [taken]
  have he : executing (h ++ [.turn o]) = h.executing := by simp [executing]
  have hw : h.waiting = o :: waiting (h ++ [.turn o]) := by
    obtain ⟨hlt, hget⟩ := List.getElem?_eq_some_iff.1 hnext
    rw [waiting, waiting, ht, state_concat, List.length_append, List.drop_eq_getElem_cons hlt, hget]
    rfl
  have hpre : h.taken ++ [o] <+: h.state.pending := by
    obtain ⟨rest, hrest⟩ := hh.taken_initial
    rw [waiting, ← hrest, List.drop_left] at hw
    exact ⟨_, by rw [← hrest, hw, List.append_assoc]; rfl⟩
  refine ⟨?_, fun hi => ?_, ?_, hh.subscribed_concat ⟨hexec, hnext⟩, fun {p s} hs => ?_⟩
  · rwa [ht, state_concat]
  · rw [he, hexec] at hi
    cases hi
  · rw [he, state_concat]
    exact hh.balanced
  · rcases stale_concat.1 hs with ⟨hch, -⟩ | ⟨hold, hne⟩
    · exact hch.elim
    · rcases hh.stale hold with hm | hp
      · exact Or.inl (hm.concat hne)
      · rcases List.mem_cons.1 (hw ▸ hp) with rfl | hp
        · exact Or.inl hold.missed_of_turn
        · exact Or.inr hp

theorem Orderly.concat_close (hh : h.Orderly) (hd : h.Allows .close) :
    Orderly (h ++ [.close]) ∧ (state (h ++ [.close])).scheduled = false := by
  have hwait : h.waiting = [] := List.drop_eq_nil_of_le hd.2
  have hcount := hh.balanced.flushes_eq
  have hle : h.state.scheduled.toNat ≤ 1 := Bool.toNat_le _
  rw [hd.1, Bool.toNat_true] at hcount
  have ht : taken (h ++ [.close]) = [] := by simp [taken]
  have he : executing (h ++ [.close]) = false := by simp [executing]
  have hclosed : (state (h ++ [.close])).scheduled = false := by rw [state_concat]; rfl
  have hempty : (state (h ++ [.close])).pending = [] := by rw [state_concat]; rfl
  refine ⟨⟨?_, fun _ => ht, ⟨?_, ?_⟩, hh.subscribed_concat hd, fun hs => ?_⟩, hclosed⟩
  · rw [ht]
    exact List.nil_prefix
  · have hq : (state (h ++ [.close])).queue = h.state.queue := by rw [state_concat]; rfl
    rw [he, hclosed, hq, Bool.toNat_false]
    omega
  · exact fun hne => absurd hempty hne
  · rcases stale_concat.1 hs with ⟨hch, -⟩ | ⟨hs, hne⟩
    · exact hch.elim
    · rcases hh.stale hs with hm | hp
      · exact Or.inl (hm.concat hne)
      · rw [hwait] at hp
        cases hp

/-- Every deed that a history allows keeps it orderly. -/
theorem Orderly.concat (hh : h.Orderly) (hd : h.Allows d) : Orderly (h ++ [d]) := by
  cases d with
  | take t =>
    cases t with
    | flush => exact (hh.concat_take_flush hd).2
    | routine n =>
      obtain ⟨queue, hq⟩ := hd
      exact hh.concat_of_ordinary ⟨queue, hq⟩ ⟨n, queue, rfl, hq⟩ (by simp [taken])
        (by simp [executing])
  | turn p => exact hh.concat_turn hd
  | close => exact (hh.concat_close hd).1
  | _ => exact hh.concat_of_ordinary hd trivial (by simp [taken]) (by simp [executing])

theorem orderly_nil : Orderly [] := by
  have hno : ∀ {α : Type} {a b : List α} {d : α}, [] ≠ a ++ d :: b := by simp
  refine ⟨List.prefix_rfl, fun _ => rfl, ⟨rfl, fun hne => absurd rfl hne⟩, ?_, ?_⟩
  · rintro o s ⟨a, b, e, -⟩
    exact absurd e hno
  · rintro o s ⟨a, d, b, e, -⟩
    exact absurd e hno

/-- Between flushes, once the queue is empty, exactly the effects that have missed a change are
stale. -/
theorem Orderly.stale_iff (hh : h.Orderly) (he : h.executing = false)
    (hq : h.state.queue = []) : h.Stale o s ↔ h.Missed o s := by
  refine ⟨fun hs => (hh.stale hs).resolve_right fun hw => ?_, Missed.stale⟩
  have hcount := hh.balanced.flushes_eq
  rw [he, hq] at hcount
  have hclosed : h.state.scheduled = false := by
    cases hsch : h.state.scheduled
    · rfl
    · rw [hsch] at hcount
      cases hcount
  have hpend : h.state.pending = [] := by
    by_contra hne
    rw [hh.balanced.scheduled_of_pending hne] at hclosed
    cases hclosed
  rw [waiting, hpend, List.drop_nil] at hw
  cases hw

end History

end LiveMarkup
