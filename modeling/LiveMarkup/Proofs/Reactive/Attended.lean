import LiveMarkup.Proofs.Forest.Lasting
import LiveMarkup.Proofs.Reactive.Onlookers

/-!
# Live values that are attended to

A live value is attended to if its effect waits in the batch, or else is subscribed to all that the
value reads and the node shows what the value comes to, provided that it comes to a text
(`World.Attends`).  Writes keep it so (`World.Attends.performing`), other onlookers that begin keep
it so (`World.Attends.attached`), and so does all work that touches neither signals nor the node
(`World.Attends.leftAlone`).

Draining the queue leaves nothing in the batch, so the node then shows what the value comes to; if
that is no text, the node shows what it showed before (`World.Attends.exists_runMicrotasks`).
-/

namespace LiveMarkup

open Run

variable {w u v : World} {o p k : ℕ} {n T : NodeId} {s : ℕ} {value : Spec} {routine : Routine}

/-! ### Writes and subscribers -/

/-- The signal that a write is about. -/
def Write.signal : Write → ℕ
  | set s _ => s
  | update s _ => s

namespace Reactive

variable {r q : Reactive}

theorem value_eq_of_signals (h : q.signals = r.signals) (s : ℕ) : q.value s = r.value s := by
  rw [value, value, h]

theorem value_modifySignal {t : ℕ} {change : Signal → Signal}
    (ht : t = s → r.signals.size ≤ t) : (r.modifySignal s change).value t = r.value t := by
  by_cases hts : t = s
  · subst hts
    simp [value, modifySignal, (ht rfl).not_gt]
  · simp [value, modifySignal, Array.getElem?_modify, Ne.symm hts]

/-- A write changes the value and the subscribers of one signal only. -/
theorem notify_write (r : Reactive) (s : ℕ) (x : Value) :
    ((r.write s x).notify s).signals.size = r.signals.size ∧
      ∀ t, (t = s → r.signals.size ≤ t) → ((r.write s x).notify s).value t = r.value t ∧
        ((r.write s x).notify s).subscribers t = r.subscribers t := by
  have hsignals : ((r.write s x).notify s).signals =
      ((r.write s x).modifySignal s fun g => { g with subscribers := [] }).signals :=
    (foldl_schedule _ _).2.2
  have hsize : (r.write s x).signals.size = r.signals.size := Array.size_modify
  refine ⟨?_, fun t ht => ⟨?_, ?_⟩⟩
  · rw [hsignals]
    exact Array.size_modify.trans hsize
  · rw [value_eq_of_signals hsignals, value_modifySignal (hsize ▸ ht)]
    exact value_modifySignal ht
  · rw [subscribers_eq_of_signals hsignals, subscribers_modifySignal, if_neg, subscribers_write]
    rintro ⟨rfl, hlt⟩
    exact (hsize ▸ hlt).not_ge (ht rfl)

/-- A write is none, or comes upon all subscribers of its signal and leaves other signals alone. -/
theorem perform_cases (d : Write) (r : Reactive) : d.perform r = r ∨
    d.hit r = r.subscribers d.signal ∧ (d.perform r).signals.size = r.signals.size ∧
      ∀ t, (t = d.signal → r.signals.size ≤ t) → (d.perform r).value t = r.value t ∧
        (d.perform r).subscribers t = r.subscribers t := by
  cases d with
  | set s x =>
    cases hx : (r.value s).equal x with
    | true => exact Or.inl (if_pos hx)
    | false =>
      have hhit : (Write.set s x).hit r = r.subscribers s := if_neg (by simp [hx])
      have hperform : (Write.set s x).perform r = (r.write s x).notify s := if_neg (by simp [hx])
      rw [hperform]
      exact Or.inr ⟨hhit, notify_write r s x⟩
  | update s arg => exact Or.inr ⟨rfl, notify_write r s _⟩

theorem size_subscribeAll {links : List (ℕ × ℕ)} :
    (r.subscribeAll links).signals.size = r.signals.size := by
  induction links generalizing r with
  | nil => rfl
  | cons link links ih => exact ih.trans size_signals_subscribe

theorem eq_batching_iff {hs : List ℕ} : r = r.batching hs ↔
    r.pending = hs.eraseDups ∧ r.scheduled = (!hs.isEmpty) ∧
      r.queue = if hs.isEmpty then [] else [.flush] := by
  cases r
  simp only [batching, Reactive.mk.injEq, true_and, and_true]

end Reactive

/-! ### Turns -/

/-- Onlookers have had turns: they have shown texts and subscribed, and changed nothing else. -/
structure World.Observed (w v : World) : Prop where
  names_eq : v.signals.names = w.signals.names
  value_eq (s : ℕ) : v.signals.reactive.value s = w.signals.reactive.value s
  rest_eq : v.signals.reactive =
    { w.signals.reactive with signals := v.signals.reactive.signals }
  size_eq : v.signals.reactive.signals.size = w.signals.reactive.signals.size
  mem_subscribers {p s : ℕ} : p ∈ w.signals.reactive.subscribers s →
    p ∈ v.signals.reactive.subscribers s
  routines_eq : v.routines = w.routines
  rewrites : w.forest.Rewrites v.forest

namespace World.Observed

theorem observers_eq (h : w.Observed v) :
    v.signals.reactive.observers = w.signals.reactive.observers := by
  rw [h.rest_eq]

theorem pending_eq (h : w.Observed v) :
    v.signals.reactive.pending = w.signals.reactive.pending := by
  rw [h.rest_eq]

theorem queue_eq (h : w.Observed v) : v.signals.reactive.queue = w.signals.reactive.queue := by
  rw [h.rest_eq]

theorem running_eq (h : w.Observed v) :
    v.signals.reactive.running = w.signals.reactive.running := by
  rw [h.rest_eq]

theorem refl (w : World) : w.Observed w :=
  ⟨rfl, fun _ => rfl, rfl, rfl, id, rfl, .refl _⟩

theorem trans (h : w.Observed u) (h' : u.Observed v) : w.Observed v where
  names_eq := h'.names_eq.trans h.names_eq
  value_eq s := (h'.value_eq s).trans (h.value_eq s)
  rest_eq := by
    rw [h'.rest_eq, h.rest_eq]
  size_eq := h'.size_eq.trans h.size_eq
  mem_subscribers hp := h'.mem_subscribers (h.mem_subscribers hp)
  routines_eq := h'.routines_eq.trans h.routines_eq
  rewrites := h.rewrites.trans h'.rewrites

theorem looked (w : World) (o : ℕ) (ρ : Reading (Option (NodeId × String))) :
    w.Observed (w.looked o ρ) where
  names_eq := rfl
  value_eq _ := Reactive.value_subscribeAll
  rest_eq := Reactive.subscribeAll_eq rfl _
  size_eq := Reactive.size_subscribeAll
  mem_subscribers {p s} hp := by
    by_cases hs : s < w.signals.reactive.signals.size
    · exact (Reactive.mem_subscribers_subscribeAll hs).2 (Or.inl hp)
    · rw [Reactive.subscribers, Array.getD_eq_getD_getElem?,
        Array.getElem?_eq_none (Nat.le_of_not_lt hs)] at hp
      cases hp
  routines_eq := rfl
  rewrites := Forest.rewrites_showing _ _

theorem agrees (h : w.Observed v) (reads : List ℕ) : w.Agrees v reads :=
  ⟨h.names_eq, fun _ => h.value_eq _⟩

end World.Observed

theorem World.mem_subscribers_looked (w : World) (o : ℕ)
    {ρ : Reading (Option (NodeId × String))} (hs : s ∈ ρ.reads)
    (hlt : s < w.signals.reactive.signals.size) :
    o ∈ (w.looked o ρ).signals.reactive.subscribers s :=
  (Reactive.mem_subscribers_subscribeAll hlt).2 (Or.inr (List.mem_map_of_mem hs))

/-! ### Calm worlds -/

/-- No effect is running, and all observers are onlookers. -/
structure World.OnlyLooks (w : World) : Prop where
  running_eq : w.signals.reactive.running = []
  looks {o : ℕ} {ob : Observer} : w.signals.reactive.observers[o]? = some ob →
    ob.isEffect = true ∧ ∃ routine, w.routines[ob.routine]? = some routine ∧
      routine.Looks w.forest

/-- No effect is running, all observers are onlookers, and the queue holds the flush of the batch
and nothing else. -/
structure World.Calm (w : World) : Prop extends w.OnlyLooks where
  batch : ∃ hs, w.signals.reactive = w.signals.reactive.batching hs

/-- The observer shows at the node what the value comes to. -/
def World.ShowsAt (w : World) (o : ℕ) (value : Spec) (n : NodeId) : Prop :=
  ∃ k, w.signals.reactive.observers[o]? = some ⟨true, k⟩ ∧ w.routines[k]? = some (.live value n)

/-- The effect is subscribed to what the value reads, and the node shows the text of the value if it
has one. -/
structure World.Current (w : World) (o : ℕ) (value : Spec) (n : NodeId) : Prop where
  subscribed {s : ℕ} : s ∈ (value.reading w).reads → s < w.signals.reactive.signals.size →
    o ∈ w.signals.reactive.subscribers s
  data_eq {text : String} : (value.reading w).result.text? = some text → w.forest.data n = text

/-- The observer shows at the node what the value comes to, no other observer shows anything there,
and unless it waits in the batch it has nothing to do. -/
structure World.Attends (w : World) (o : ℕ) (value : Spec) (n : NodeId) : Prop where
  shows : w.ShowsAt o value n
  alone {p : ℕ} {value' : Spec} : w.ShowsAt p value' n → p = o
  current : o ∈ w.signals.reactive.pending ∨ w.Current o value n

namespace World

/-- Routines are added, but none is taken away. -/
def KeepsRoutines (w v : World) : Prop :=
  ∀ {k : ℕ} {routine : Routine}, w.routines[k]? = some routine → v.routines[k]? = some routine

theorem ShowsAt.mono (h : w.ShowsAt o value n)
    (hobservers : ∀ {o : ℕ} {ob : Observer}, w.signals.reactive.observers[o]? = some ob →
      v.signals.reactive.observers[o]? = some ob)
    (hroutines : w.KeepsRoutines v) : v.ShowsAt o value n :=
  let ⟨k, ho, hk⟩ := h
  ⟨k, hobservers ho, hroutines hk⟩

theorem OnlyLooks.showsText (hw : w.OnlyLooks) (h : w.ShowsAt o value n) :
    w.forest.ShowsText n := by
  obtain ⟨k, ho, hk⟩ := h
  obtain ⟨-, routine, hroutine, hlooks⟩ := hw.looks ho
  obtain rfl : .live value n = routine := Option.some.inj (hk.symm.trans hroutine)
  exact hlooks.2

/-- With the same observers and more routines, what is shown where is the same. -/
theorem OnlyLooks.showsAt_iff (hw : w.OnlyLooks)
    (hobservers : v.signals.reactive.observers = w.signals.reactive.observers)
    (hroutines : w.KeepsRoutines v) : v.ShowsAt o value n ↔ w.ShowsAt o value n := by
  refine ⟨fun ⟨k, ho, hk⟩ => ?_, fun h => h.mono (fun ho => hobservers ▸ ho) hroutines⟩
  rw [hobservers] at ho
  obtain ⟨-, routine, hroutine, -⟩ := hw.looks ho
  exact ⟨k, ho, by rw [hroutine, ← hroutines hroutine, hk]⟩

/-- Onlookers look on as long as no observer is added and no effect runs. -/
theorem OnlyLooks.mono (hw : w.OnlyLooks)
    (hobservers : v.signals.reactive.observers = w.signals.reactive.observers)
    (hrunning : v.signals.reactive.running = w.signals.reactive.running)
    (hroutines : w.KeepsRoutines v)
    (hshows : ∀ {n}, w.forest.ShowsText n → v.forest.ShowsText n) : v.OnlyLooks where
  running_eq := hrunning.trans hw.running_eq
  looks ho := by
    rw [hobservers] at ho
    obtain ⟨heffect, routine, hroutine, hlooks⟩ := hw.looks ho
    exact ⟨heffect, routine, hroutines hroutine, hlooks.mono hshows⟩

/-! ### Writes -/

theorem Calm.performing (hw : w.Calm) (d : Write) : (w.modifyReactive (d.perform ·)).Calm := by
  obtain ⟨hobservers, hrunning⟩ := Reactive.frame_writing w.signals.reactive [d]
  obtain ⟨hs, hbatch⟩ := hw.batch
  refine ⟨hw.mono hobservers hrunning id id, hs ++ d.hit w.signals.reactive, ?_⟩
  change d.perform w.signals.reactive = (d.perform w.signals.reactive).batching _
  conv_lhs => rw [hbatch]
  exact Reactive.perform_batching _ _ _

/-- After a write the effect waits in the batch, or has still nothing to do. -/
theorem Attends.performing (h : w.Attends o value n) (hw : w.Calm)
    (hvalue : value.isOnRecord = true) (d : Write) :
    (w.modifyReactive (d.perform ·)).Attends o value n := by
  obtain ⟨hobservers, -⟩ := Reactive.frame_writing w.signals.reactive [d]
  obtain ⟨hs, hbatch⟩ := hw.batch
  have hpending : (d.perform w.signals.reactive).pending =
      (hs ++ d.hit w.signals.reactive).eraseDups := by
    conv_lhs => rw [hbatch]
    exact congrArg Reactive.pending (Reactive.perform_batching _ _ _)
  have hiff {p : ℕ} {value' : Spec} :
      (w.modifyReactive (d.perform ·)).ShowsAt p value' n ↔ w.ShowsAt p value' n :=
    hw.showsAt_iff hobservers id
  refine ⟨hiff.2 h.shows, fun hp => h.alone (hiff.1 hp), ?_⟩
  rcases h.current with hwaits | hcurrent
  · left
    rw [congrArg Reactive.pending hbatch] at hwaits
    change o ∈ (d.perform w.signals.reactive).pending
    rw [hpending, List.mem_eraseDups]
    exact List.mem_append_left _ (List.mem_eraseDups.1 hwaits)
  · rcases Reactive.perform_cases d w.signals.reactive with hsame | ⟨hhit, hsize, hother⟩
    · right
      have hworld : w.modifyReactive (d.perform ·) = w :=
        congrArg (fun r => { w with signals := { w.signals with reactive := r } }) hsame
      rwa [hworld]
    · by_cases ho : o ∈ w.signals.reactive.subscribers d.signal
      · left
        change o ∈ (d.perform w.signals.reactive).pending
        rw [hpending, List.mem_eraseDups, hhit]
        exact List.mem_append_right _ ho
      · right
        -- The effect is not subscribed to the signal, so the value has not read it.
        have hapart {s : ℕ} (hs : s ∈ (value.reading w).reads) (heq : s = d.signal) :
            w.signals.reactive.signals.size ≤ s := by
          by_contra hlt
          exact ho (heq ▸ hcurrent.subscribed hs (Nat.lt_of_not_le hlt))
        have hreading : value.reading (w.modifyReactive (d.perform ·)) = value.reading w :=
          value.reading_congr hvalue ⟨rfl, fun hs => (hother _ (hapart hs)).1⟩
        refine ⟨fun {s} hs hlt => ?_, fun htext => hcurrent.data_eq (hreading ▸ htext)⟩
        rw [hreading] at hs
        change o ∈ (d.perform w.signals.reactive).subscribers s
        rw [(hother s (hapart hs)).2]
        exact hcurrent.subscribed hs (hsize ▸ hlt)

/-! ### Other work -/

/-- Neither signals nor the data of a node have been touched, and all nodes are of the kind that
they were of. -/
structure LeavesAlone (n : NodeId) (w v : World) : Prop where
  names_eq : v.signals.names = w.signals.names
  reactive_eq : v.signals.reactive = w.signals.reactive
  keepsRoutines : w.KeepsRoutines v
  lasts : Forest.Lasts (fun _ => False) w.forest v.forest
  data_eq : n < w.forest.size → v.forest.data n = w.forest.data n

theorem LeavesAlone.showsText {m : NodeId} (h : LeavesAlone n w v) (hm : w.forest.ShowsText m) :
    v.forest.ShowsText m := by
  rw [Forest.ShowsText, h.lasts.kind_eq hm.lt_size]
  exact hm

theorem Calm.leftAlone (hw : w.Calm) (h : LeavesAlone n w v) : v.Calm :=
  ⟨hw.mono (h.reactive_eq ▸ rfl) (h.reactive_eq ▸ rfl) h.keepsRoutines h.showsText,
    h.reactive_eq ▸ hw.batch⟩

theorem Attends.leftAlone (h : w.Attends o value n) (hw : w.OnlyLooks)
    (hvalue : value.isOnRecord = true) (hv : LeavesAlone n w v) : v.Attends o value n := by
  have hiff {p : ℕ} {value' : Spec} : v.ShowsAt p value' n ↔ w.ShowsAt p value' n :=
    hw.showsAt_iff (hv.reactive_eq ▸ rfl) hv.keepsRoutines
  refine ⟨hiff.2 h.shows, fun hp => h.alone (hiff.1 hp), ?_⟩
  have hreading : value.reading v = value.reading w :=
    value.reading_congr hvalue ⟨hv.names_eq, fun _ => hv.reactive_eq ▸ rfl⟩
  rw [hv.reactive_eq]
  refine h.current.imp_right fun hcurrent => ⟨fun hs hlt => ?_, fun htext => ?_⟩
  · rw [hreading] at hs
    rw [hv.reactive_eq] at hlt ⊢
    exact hcurrent.subscribed hs hlt
  · rw [hreading] at htext
    rw [hv.data_eq (hw.showsText h.shows).lt_size, hcurrent.data_eq htext]

/-! ### Onlookers that begin -/

/-- The world with one more effect. -/
def joined (w : World) (routine : Routine) : World :=
  (w.addRoutine routine).2.modifyReactive fun r => (r.addObserver ⟨true, w.routines.size⟩).2

/-- The world in which one more onlooker has had its first turn. -/
def attached (w : World) (routine : Routine) : World :=
  (w.joined routine).looked w.signals.reactive.observers.size (routine.reading (w.joined routine))

end World

/-- Adds an effect and gives it its first turn. -/
def Run.attach (run : Runner) (routine : Routine) : Activity Unit := do
  let o ← addObserver true routine
  run (.observer o)

namespace World

theorem observed_attached (w : World) (routine : Routine) :
    (w.joined routine).Observed (w.attached routine) :=
  .looked _ _ _

theorem observers_attached (w : World) (routine : Routine) :
    (w.attached routine).signals.reactive.observers =
      w.signals.reactive.observers.push ⟨true, w.routines.size⟩ := by
  rw [(w.observed_attached routine).observers_eq]
  rfl

theorem routines_attached (w : World) (routine : Routine) :
    (w.attached routine).routines = w.routines.push routine := rfl

theorem keepsRoutines_attached (w : World) (routine : Routine) :
    w.KeepsRoutines (w.attached routine) := by
  intro k routine' hk
  rw [routines_attached, Array.getElem?_push, if_neg, hk]
  rintro rfl
  rw [Array.getElem?_eq_none le_rfl] at hk
  cases hk

theorem OnlyLooks.yields_attach (hw : w.OnlyLooks) (hlooks : routine.Looks w.forest) :
    Yields (fun run => attach run routine) w () (w.attached routine) := by
  have ho : (w.joined routine).signals.reactive.observers[w.signals.reactive.observers.size]? =
      some ⟨true, w.routines.size⟩ := Array.getElem?_push_size
  have hk : (w.joined routine).routines[w.routines.size]? = some routine := Array.getElem?_push_size
  have hfree : w.signals.reactive.observers.size ∉
      (w.joined routine).signals.reactive.running := by
    change _ ∉ w.signals.reactive.running
    rw [hw.running_eq]
    exact List.not_mem_nil
  have hadd : Yields (fun _ => addObserver true routine) w w.signals.reactive.observers.size
      (w.joined routine) := .of_eq fun _ => rfl
  have hturn := yields_observer_of_looks ho hk hlooks hfree
  exact (hadd.bind hturn : Yields (fun run => do
    let o ← addObserver true routine
    run (.observer o)) w () _)

theorem Calm.attached (hw : w.Calm) (hlooks : routine.Looks w.forest) :
    (w.attached routine).Calm := by
  have hobserved := w.observed_attached routine
  have hshows {m : NodeId} (hm : w.forest.ShowsText m) :
      (w.attached routine).forest.ShowsText m := hobserved.rewrites.showsText hm
  refine ⟨⟨?_, fun {p ob} hp => ?_⟩, ?_⟩
  · exact hobserved.running_eq.trans hw.running_eq
  · rw [observers_attached, Array.getElem?_push] at hp
    split_ifs at hp with hnew
    · obtain rfl := Option.some.inj hp
      refine ⟨rfl, routine, ?_, hlooks.mono hshows⟩
      rw [routines_attached]
      exact Array.getElem?_push_size
    · obtain ⟨heffect, routine', hroutine, hlooks'⟩ := hw.looks hp
      exact ⟨heffect, routine', w.keepsRoutines_attached routine hroutine, hlooks'.mono hshows⟩
  · obtain ⟨hs, hbatch⟩ := hw.batch
    refine ⟨hs, ?_⟩
    rw [Reactive.eq_batching_iff] at hbatch ⊢
    rw [hobserved.rest_eq]
    exact hbatch

/-- What is shown where, when there is one more onlooker. -/
theorem OnlyLooks.showsAt_attached (hw : w.OnlyLooks) (h : (w.attached routine).ShowsAt p value n) :
    w.ShowsAt p value n ∨ p = w.signals.reactive.observers.size ∧ routine = .live value n := by
  obtain ⟨k, hp, hk⟩ := h
  rw [observers_attached, Array.getElem?_push] at hp
  rw [routines_attached] at hk
  split_ifs at hp with hnew
  · obtain ⟨-, rfl⟩ := Observer.mk.inj (Option.some.inj hp)
    rw [Array.getElem?_push_size] at hk
    exact Or.inr ⟨hnew, Option.some.inj hk⟩
  · obtain ⟨-, routine', hroutine, -⟩ := hw.looks hp
    have hkept := w.keepsRoutines_attached routine hroutine
    rw [routines_attached, hk] at hkept
    exact Or.inl ⟨k, hp, by rw [hroutine, hkept]⟩

theorem ShowsAt.attached (h : w.ShowsAt o value n) (routine : Routine) :
    (w.attached routine).ShowsAt o value n := by
  refine h.mono (fun {o ob} ho => ?_) (w.keepsRoutines_attached routine)
  rw [observers_attached, Array.getElem?_push, if_neg, ho]
  rintro rfl
  rw [Array.getElem?_eq_none le_rfl] at ho
  cases ho

/-- An onlooker that shows nothing at the node may begin. -/
theorem Attends.attached (h : w.Attends o value n) (hw : w.OnlyLooks)
    (hvalue : value.isOnRecord = true) (hne : routine.target? ≠ some n) :
    (w.attached routine).Attends o value n := by
  have hobserved := w.observed_attached routine
  have hjoined : w.Agrees (w.joined routine) (value.reading w).reads := ⟨rfl, fun _ => rfl⟩
  have hreading : value.reading (w.attached routine) = value.reading w := by
    rw [value.reading_congr hvalue (hobserved.agrees _), value.reading_congr hvalue hjoined]
  refine ⟨h.shows.attached routine, fun hp => ?_, ?_⟩
  · rcases hw.showsAt_attached hp with hp | ⟨-, rfl⟩
    · exact h.alone hp
    · exact absurd rfl hne
  · refine h.current.imp (fun hwaits => ?_) fun hcurrent => ⟨fun hs hlt => ?_, fun htext => ?_⟩
    · rw [hobserved.pending_eq]
      exact hwaits
    · rw [hreading] at hs
      rw [hobserved.size_eq] at hlt
      exact hobserved.mem_subscribers (hcurrent.subscribed hs hlt)
    · rw [hreading] at htext
      refine (Forest.data_showing_of_ne fun q hq heq => hne ?_).trans (hcurrent.data_eq htext)
      rw [Routine.fst_of_reading hq, heq]

/-- The observer has had its turn since `w`: it is subscribed to what it has read, and the node
shows what the value comes to, or what it showed before. -/
structure CaughtUp (w : World) (o : ℕ) (value : Spec) (n : NodeId) (v : World) : Prop where
  subscribed {s : ℕ} : s ∈ (value.reading w).reads → s < w.signals.reactive.signals.size →
    o ∈ v.signals.reactive.subscribers s
  data_eq : v.forest.data n = (value.reading w).result.text?.getD (w.forest.data n)

/-- What has been done after some turns of a flush. -/
structure Turned (w : World) (o : ℕ) (value : Spec) (n : NodeId) (done : List ℕ) (v : World) :
    Prop where
  observed : w.Observed v
  caughtUp : (o ∉ done ∧ v.forest.data n = w.forest.data n) ∨ w.CaughtUp o value n v

/-- An observer that is not there has no turn. -/
theorem Turned.passed_over {done : List ℕ} (hv : w.Turned o value n done v)
    (hshows : w.ShowsAt o value n) (hp : w.signals.reactive.observers[p]? = none) :
    w.Turned o value n (done ++ [p]) v := by
  refine ⟨hv.observed, hv.caughtUp.imp_left fun ⟨hnot, hdata⟩ => ⟨?_, hdata⟩⟩
  rw [List.mem_append, List.mem_singleton, not_or]
  refine ⟨hnot, ?_⟩
  rintro rfl
  obtain ⟨k, ho, -⟩ := hshows
  rw [ho] at hp
  cases hp

/-- The observer itself shows its value. -/
theorem Turned.own_turn {done : List ℕ} (hv : w.Turned o value n done v)
    (hvalue : value.isOnRecord = true) (hn : v.forest.ShowsText n) :
    w.Turned o value n (done ++ [o]) (v.looked o ((Routine.live value n).reading v)) := by
  have hreading : value.reading v = value.reading w :=
    value.reading_congr hvalue (hv.observed.agrees _)
  refine ⟨hv.observed.trans (.looked v o _), Or.inr ⟨fun {s} hs hlt => ?_, ?_⟩⟩
  · rw [← hreading] at hs
    exact mem_subscribers_looked v o hs (hv.observed.size_eq ▸ hlt)
  · refine (Forest.data_showing_self hn _).trans ?_
    rw [hreading]
    rcases hv.caughtUp with ⟨-, hdata⟩ | hcaught
    · rw [hdata]
    · rw [hcaught.data_eq]
      cases (value.reading w).result.text? <;> rfl

/-- Another onlooker shows nothing at the node. -/
theorem Turned.other_turn {done : List ℕ} (hv : w.Turned o value n done v) (hpo : p ≠ o)
    (hne : routine.target? ≠ some n) :
    w.Turned o value n (done ++ [p]) (v.looked p (routine.reading v)) := by
  have hdata : (v.looked p (routine.reading v)).forest.data n = v.forest.data n := by
    refine Forest.data_showing_of_ne fun q hq heq => hne ?_
    rw [Routine.fst_of_reading hq, heq]
  refine ⟨hv.observed.trans (.looked v p _), ?_⟩
  rcases hv.caughtUp with ⟨hnot, hsame⟩ | hcaught
  · refine Or.inl ⟨?_, hdata.trans hsame⟩
    rw [List.mem_append, List.mem_singleton, not_or]
    exact ⟨hnot, Ne.symm hpo⟩
  · refine Or.inr ⟨fun hs hlt => ?_, hdata.trans hcaught.data_eq⟩
    exact (Observed.looked v p _).mem_subscribers (hcaught.subscribed hs hlt)

/-- One more turn. -/
theorem Turned.exists_turn {done : List ℕ} (hv : w.Turned o value n done v) (hw : w.OnlyLooks)
    (hvalue : value.isOnRecord = true) (hshows : w.ShowsAt o value n)
    (halone : ∀ {p value'}, w.ShowsAt p value' n → p = o) (p : ℕ) :
    ∃ v', Yields (fun run => run (.observer p)) v () v' ∧
      w.Turned o value n (done ++ [p]) v' := by
  have hobservers := hv.observed.observers_eq
  cases hp : w.signals.reactive.observers[p]? with
  | none => exact ⟨v, yields_observer_of_none (hobservers ▸ hp), hv.passed_over hshows hp⟩
  | some ob =>
    obtain ⟨heffect, routine, hroutine, hlooks⟩ := hw.looks hp
    obtain ⟨isEffect, k⟩ := ob
    obtain rfl : isEffect = true := heffect
    have hlooks' : routine.Looks v.forest := hlooks.mono hv.observed.rewrites.showsText
    have hfree : p ∉ v.signals.reactive.running := by
      rw [hv.observed.running_eq, hw.running_eq]
      exact List.not_mem_nil
    refine ⟨_, yields_observer_of_looks (hobservers ▸ hp) (hv.observed.routines_eq ▸ hroutine)
      hlooks' hfree, ?_⟩
    by_cases hpo : p = o
    · subst hpo
      obtain ⟨k', ho, hlive⟩ := hshows
      obtain ⟨-, rfl⟩ := Observer.mk.inj (Option.some.inj (ho.symm.trans hp))
      obtain rfl : .live value n = routine := Option.some.inj (hlive.symm.trans hroutine)
      exact hv.own_turn hvalue hlooks'.2
    · refine hv.other_turn hpo fun htarget => hpo ?_
      cases routine with
      | script commands => cases htarget
      | transition machine name step => cases htarget
      | live value' target =>
        obtain rfl : target = n := Option.some.inj htarget
        exact halone ⟨k, hp, hroutine⟩

/-- A flush of onlookers gives each of them its turn. -/
theorem OnlyLooks.exists_flush (hw : w.OnlyLooks) (hvalue : value.isOnRecord = true)
    (hshows : w.ShowsAt o value n) (halone : ∀ {p value'}, w.ShowsAt p value' n → p = o) :
    ∃ v, Yields (fun run => run (.flush 0)) w () (v.modifyReactive (·.closeBatch)) ∧
      w.Turned o value n w.signals.reactive.pending v := by
  have hstart : w.Turned o value n [] w := ⟨.refl w, Or.inl ⟨List.not_mem_nil, rfl⟩⟩
  obtain ⟨v, hflush, hv⟩ := Run.exists_flush
    (P := fun i v => w.Turned o value n (w.signals.reactive.pending.take i) v)
    (fun i v hv => hv.observed.pending_eq) (fun i p v hp hv => by
      rw [List.take_add_one, hp]
      exact hv.exists_turn hw hvalue hshows halone p) (i := 0) hstart (Nat.zero_le _)
  rw [List.take_length] at hv
  exact ⟨v, hflush, hv⟩

theorem Current.data_eq_getD (h : w.Current o value n) :
    w.forest.data n = (value.reading w).result.text?.getD (w.forest.data n) := by
  cases htext : (value.reading w).result.text? with
  | none => rfl
  | some text => exact h.data_eq htext

/-- Whoever has nothing to do has caught up without a turn. -/
theorem Turned.caughtUp_of_current {done : List ℕ} (hv : w.Turned o value n done v)
    (h : o ∈ done ∨ w.Current o value n) : w.CaughtUp o value n v := by
  rcases hv.caughtUp with ⟨hnot, hdata⟩ | hcaught
  · have hcurrent := h.resolve_left hnot
    exact ⟨fun hs hlt => hv.observed.mem_subscribers (hcurrent.subscribed hs hlt),
      hdata.trans hcurrent.data_eq_getD⟩
  · exact hcaught

/-- With the queue drained, whoever has caught up has nothing to do. -/
theorem CaughtUp.current (hv : w.CaughtUp o value n v) (hobserved : w.Observed v)
    (hvalue : value.isOnRecord = true) : v.Current o value n := by
  have hreading : value.reading v = value.reading w :=
    value.reading_congr hvalue (hobserved.agrees _)
  refine ⟨fun hs hlt => ?_, fun htext => ?_⟩
  · rw [hreading] at hs
    rw [hobserved.size_eq] at hlt
    exact hv.subscribed hs hlt
  · rw [hreading] at htext
    rw [hv.data_eq, htext, Option.getD_some]

/-- The world with nothing in the queue. -/
def emptied (w : World) : World := w.modifyReactive fun r => { r with queue := [] }

/-- The world is calm again when the flush of its batch is over. -/
theorem Calm.closed (hw : w.Calm) (hv : w.emptied.Observed v) :
    (v.modifyReactive (·.closeBatch)).Calm :=
  ⟨hw.mono hv.observers_eq hv.running_eq (fun hk => hv.routines_eq ▸ hk) hv.rewrites.showsText,
    [], Reactive.eq_batching_iff.2 ⟨rfl, rfl, hv.queue_eq⟩⟩

/-- Whoever has caught up during the flush has nothing to do when it is over. -/
theorem Attends.closed (h : w.Attends o value n) (hw : w.OnlyLooks)
    (hvalue : value.isOnRecord = true) (hv : w.emptied.Observed v)
    (hcaught : w.emptied.CaughtUp o value n v) :
    (v.modifyReactive (·.closeBatch)).Attends o value n := by
  have hshown {p : ℕ} {value' : Spec} :
      (v.modifyReactive (·.closeBatch)).ShowsAt p value' n ↔ w.ShowsAt p value' n :=
    hw.showsAt_iff hv.observers_eq fun hk => hv.routines_eq ▸ hk
  have hreading : value.reading (v.modifyReactive (·.closeBatch)) = value.reading v :=
    value.reading_congr hvalue ⟨rfl, fun _ => rfl⟩
  have hcurrent := hcaught.current hv hvalue
  refine ⟨hshown.2 h.shows, fun hp => h.alone (hshown.1 hp), Or.inr ⟨?_, ?_⟩⟩
  · rw [hreading]
    exact hcurrent.subscribed
  · rw [hreading]
    exact hcurrent.data_eq

/-- The queue of a calm world is drained by giving every observer of the batch a turn, and then the
node shows what the value comes to, or what it showed before. -/
theorem Attends.exists_runMicrotasks (h : w.Attends o value n) (hw : w.Calm)
    (hvalue : value.isOnRecord = true) :
    ∃ count v, Yields (fun run => run (.command .runMicrotasks)) w (.count count) v ∧ v.Calm ∧
      v.Attends o value n ∧ w.forest.Rewrites v.forest ∧ value.reading v = value.reading w ∧
      v.forest.data n = (value.reading w).result.text?.getD (w.forest.data n) := by
  have hcommand {count : ℕ} {v : World} (hdrain : Yields (fun run => run (.drain 0)) w count v) :
      Yields (fun run => run (.command .runMicrotasks)) w (.count count) v :=
    Yields.job (j := .command .runMicrotasks) (hdrain.bind (.of_eq fun _ => rfl))
  obtain ⟨hs, hbatch⟩ := hw.batch
  have hqueue := congrArg Reactive.queue hbatch
  rcases hs with _ | ⟨h₀, hs⟩
  · -- Nobody waits.
    have hcurrent := h.current.resolve_left fun hwaits => by
      rw [congrArg Reactive.pending hbatch] at hwaits
      cases hwaits
    exact ⟨0, w, hcommand (does_drain_of_empty 0 hqueue).yields, hw, h, .refl _, rfl,
      hcurrent.data_eq_getD⟩
  · have hlooks : w.emptied.OnlyLooks := hw.mono rfl rfl id id
    have hiff {p : ℕ} {value' : Spec} : w.emptied.ShowsAt p value' n ↔ w.ShowsAt p value' n :=
      hw.showsAt_iff rfl id
    have hreading : value.reading w.emptied = value.reading w :=
      value.reading_congr hvalue ⟨rfl, fun _ => rfl⟩
    obtain ⟨v, hflush, hturned⟩ := hlooks.exists_flush hvalue (hiff.2 h.shows)
      fun hp => h.alone (hiff.1 hp)
    have hcaught : w.emptied.CaughtUp o value n v := hturned.caughtUp_of_current
      (h.current.imp_right fun hcurrent => ⟨hreading ▸ hcurrent.subscribed,
        hreading ▸ hcurrent.data_eq⟩)
    have hagrees : w.emptied.Agrees (v.modifyReactive (·.closeBatch))
        (value.reading w.emptied).reads :=
      ⟨hturned.observed.names_eq, fun _ => hturned.observed.value_eq _⟩
    refine ⟨1, _, hcommand (yields_drain hqueue hflush hturned.observed.queue_eq),
      hw.closed hturned.observed, h.closed hw.toOnlyLooks hvalue hturned.observed hcaught,
      hturned.observed.rewrites, ?_, ?_⟩
    · rw [← hreading]
      exact value.reading_congr hvalue hagrees
    · rw [← hreading]
      exact hcaught.data_eq

end World

end LiveMarkup
