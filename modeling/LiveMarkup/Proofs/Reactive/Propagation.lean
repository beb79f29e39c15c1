import LiveMarkup.Proofs.Reactive.Fidelity
import LiveMarkup.Proofs.Reactive.Readings
import LiveMarkup.Proofs.Reactive.Writes

/-!
# Writes reach the effects that read

Signals are written several times, and then the queue is drained.  The writes collect a batch
(`Reactive.writing_eq`).  If the observers in it are effects that only read, the flush runs each of
them once, in the order of the batch (`Run.does_flush`): while the batch is gone through, nothing is
added to it, because reading changes only the lists of subscribers.  Every run finds the values that
the last writes have left, and afterwards its effect is subscribed to what it has read
(`Run.runMicrotasks_propagates`).
-/

namespace LiveMarkup

namespace Reactive

variable {r : Reactive} {o p s t : ℕ}

/-! ### Subscribing to what is read -/

/-- Subscribes observers to signals, for each of several pairs of a signal and an observer. -/
def subscribeAll (r : Reactive) (links : List (ℕ × ℕ)) : Reactive :=
  links.foldl (fun r link => r.subscribe link.1 link.2) r

variable {links : List (ℕ × ℕ)}

theorem size_signals_subscribe : (r.subscribe s o).signals.size = r.signals.size := by
  unfold subscribe
  split_ifs
  · rfl
  · exact Array.size_modify

theorem mem_subscribers_subscribe (ht : t < r.signals.size) :
    p ∈ (r.subscribe s o).subscribers t ↔ p ∈ r.subscribers t ∨ (t, p) = (s, o) := by
  rw [Prod.mk.injEq]
  unfold subscribe
  split_ifs with hmem
  · rw [List.contains_iff_mem] at hmem
    refine ⟨Or.inl, ?_⟩
    rintro (h | ⟨rfl, rfl⟩)
    · exact h
    · exact hmem
  · rw [subscribers_modifySignal]
    split_ifs with hts
    · obtain ⟨rfl, -⟩ := hts
      change p ∈ r.subscribers t ++ [o] ↔ _
      rw [List.mem_append, List.mem_singleton]
      tauto
    · have hne : t ≠ s := fun heq => hts ⟨heq, heq ▸ ht⟩
      tauto

theorem mem_subscribers_subscribeAll (ht : t < r.signals.size) :
    p ∈ (r.subscribeAll links).subscribers t ↔ p ∈ r.subscribers t ∨ (t, p) ∈ links := by
  induction links generalizing r with
  | nil => simp [subscribeAll]
  | cons link links ih =>
    have hsize : t < (r.subscribe link.1 link.2).signals.size :=
      ht.trans_eq size_signals_subscribe.symm
    have hrest := ih hsize
    rw [mem_subscribers_subscribe ht] at hrest
    rw [List.mem_cons, ← or_assoc]
    exact hrest

theorem value_subscribeAll : (r.subscribeAll links).value t = r.value t := by
  induction links generalizing r with
  | nil => rfl
  | cons link links ih => exact ih.trans value_subscribe

/-- Subscribing changes lists of subscribers only, and depends on nothing else. -/
theorem subscribeAll_eq {q r : Reactive} (h : q.signals = r.signals) (links : List (ℕ × ℕ)) :
    q.subscribeAll links = { q with signals := (r.subscribeAll links).signals } := by
  induction links generalizing q r with
  | nil => rw [subscribeAll, subscribeAll, List.foldl_nil, List.foldl_nil, ← h]
  | cons link links ih =>
    have hone : q.subscribe link.1 link.2 =
        { q with signals := (r.subscribe link.1 link.2).signals } := by
      unfold subscribe modifySignal
      rw [subscribers_eq_of_signals h, h]
      split_ifs
      · rw [← h]
      · rfl
    have hsignals : (q.subscribe link.1 link.2).signals = (r.subscribe link.1 link.2).signals := by
      rw [hone]
    have hrest := ih hsignals
    rw [hone] at hrest
    rw [subscribeAll, List.foldl_cons, hone]
    exact hrest

/-! ### Effects that run -/

theorem track_push (r : Reactive) (o s : ℕ) :
    ((r.start o).push (some o)).track s = ((r.subscribe s o).start o).push (some o) := by
  change ((r.start o).push (some o)).subscribe s o = _
  unfold subscribe
  split_ifs <;> first | rfl | contradiction

/-- A running effect is subscribed to what it reads. -/
theorem foldl_track_push (r : Reactive) (o : ℕ) (reads : List ℕ) :
    reads.foldl track ((r.start o).push (some o)) =
      ((r.subscribeAll (reads.map fun s => (s, o))).start o).push (some o) := by
  induction reads generalizing r with
  | nil => rfl
  | cons s reads ih =>
    rw [List.foldl_cons, track_push, ih]
    rfl

theorem finish_pop (r : Reactive) (o : ℕ) : (((r.start o).push (some o)).pop).finish o = r := by
  simp only [start, push, pop, finish, List.tail_cons, List.erase_cons_head]

end Reactive

/-! ### Which effects a job runs -/

namespace History

/-- The effects that begin to run, in order. -/
def starts (h : History) : List ℕ :=
  h.filterMap fun
    | .start o => some o
    | _ => none

theorem starts_append (h h' : History) : starts (h ++ h') = h.starts ++ h'.starts :=
  List.filterMap_append

end History

namespace Run

open History

variable {fuel : ℕ}

/-- Reading runs no effect. -/
theorem starts_signalDeeds_read (s : Signals) (name : String) (mode : ReadMode) (half : Bool) :
    starts (signalDeeds s (.read name mode half)) = [] := by
  cases mode with
  | tracked =>
    cases hs : s.signal? name half <;> simp [signalDeeds, hs, starts]
  | untracked => rfl

mutual

theorem starts_command : ∀ (c : Command) (_ : c.isReading = true) (fuel : ℕ) (w : World),
    starts (deeds fuel (.command c) w) = []
  | _, _, 0, _ => rfl
  | .signal (.read name mode half), _, _ + 1, w => starts_signalDeeds_read w.signals name mode half
  | .log _, _, _ + 1, _ => rfl
  | .untrack commands, h, fuel + 1, w => by
    change starts (.push none :: bodyDeeds _ _ commands _ ++ [.pop]) = []
    rw [List.cons_append, starts, List.filterMap_cons_none rfl]
    change starts (bodyDeeds _ _ commands _ ++ [.pop]) = []
    rw [starts_append, starts_body commands h]
    rfl
  | .describeValue _, _, _ + 1, _ => rfl

/-- A script that only reads runs no effect. -/
theorem starts_body : ∀ (commands : Script) (_ : Script.isReading commands = true) (fuel : ℕ)
    (w : World), starts (bodyDeeds (deeds fuel) (run fuel) commands w) = []
  | [], _, _, _ => rfl
  | c :: cs, h, fuel, w => by
    obtain ⟨hc, hcs⟩ := Bool.and_eq_true_iff.1 h
    rw [bodyDeeds, starts_append, starts_command c hc, List.nil_append]
    split
    · exact starts_body cs hcs fuel _
    · rfl

end

/-- The job is done with the result if there is enough fuel, and the effects that it runs are `os`,
in order. -/
def Does (j : Job) (w : World) (x : j.Result) (w' : World) (os : List ℕ) : Prop :=
  ∃ enough, ∀ fuel, enough ≤ fuel → run fuel j w = some (x, w') ∧ starts (deeds fuel j w) = os

/-- A job is done by doing what it consists of. -/
theorem Does.of_job {j : Job} {w w' : World} {x : j.Result} {os : List ℕ}
    (h : ∃ enough, ∀ fuel, enough ≤ fuel → job (run fuel) j w = some (x, w') ∧
      starts (jobDeeds (deeds fuel) (run fuel) j w) = os) : Does j w x w' os := by
  obtain ⟨enough, h⟩ := h
  refine ⟨enough + 1, fun fuel hfuel => ?_⟩
  obtain ⟨fuel, rfl⟩ := Nat.exists_eq_add_of_le' (Nat.le_of_add_left_le hfuel)
  exact h fuel (by omega)

end Run

namespace World

variable {w w' : World} {o : ℕ} {order : List ℕ} {commands : Script} {ρ : ℕ → Reading Unit}

/-- The observer is an effect whose script only reads, and it is not running. -/
structure Reader (w : World) (o : ℕ) (commands : Script) : Prop where
  isReading : Script.isReading commands = true
  effect : ∃ n, w.signals.reactive.observers[o]? = some ⟨true, n⟩ ∧
    w.routines[n]? = some (.script commands)
  notMem_running : o ∉ w.signals.reactive.running

/-- The signals that observers read, one observer after the other, each with its reader. -/
def links (order : List ℕ) (ρ : ℕ → Reading Unit) : List (ℕ × ℕ) :=
  order.flatMap fun o => (ρ o).reads.map fun s => (s, o)

theorem mem_links_iff {s : ℕ} : (s, o) ∈ links order ρ ↔ o ∈ order ∧ s ∈ (ρ o).reads := by
  simp only [links, List.mem_flatMap, List.mem_map, Prod.mk.injEq]
  constructor
  · rintro ⟨p, hp, t, ht, rfl, rfl⟩
    exact ⟨hp, ht⟩
  · rintro ⟨ho, hs⟩
    exact ⟨o, ho, s, hs, rfl, rfl⟩

/-- The world after observers that only read have run, one after the other. -/
def visited (w : World) (order : List ℕ) (ρ : ℕ → Reading Unit) : World :=
  { w with
    log := w.log ++ order.flatMap fun o => (ρ o).notes
    signals := w.signals.modify (·.subscribeAll (links order ρ)) }

/-- What it comes to to run the bodies of effects for the values that signals have now. -/
def readings (w : World) (bodies : ℕ → Script) (o : ℕ) : Reading Unit :=
  Script.reading w (bodies o)

theorem visited_nil : w.visited [] ρ = w := by
  rw [visited, List.flatMap_nil, List.append_nil]
  rfl

theorem visited_cons : (w.visited [o] ρ).visited order ρ = w.visited (o :: order) ρ := by
  simp only [visited, links, Signals.modify, Reactive.subscribeAll, List.flatMap_cons,
    List.flatMap_nil, List.append_nil, List.append_assoc, List.foldl_append]

theorem reactive_visited (w : World) (order : List ℕ) (ρ : ℕ → Reading Unit) :
    (w.visited order ρ).signals.reactive =
      { w.signals.reactive with signals := (w.visited order ρ).signals.reactive.signals } :=
  Reactive.subscribeAll_eq rfl _

theorem Like.visited (h : w.Like w') (order : List ℕ) (ρ : ℕ → Reading Unit) :
    w.Like (w'.visited order ρ) :=
  ⟨h.names_eq, fun s => Reactive.value_subscribeAll.trans (h.value_eq s), h.forest_eq⟩

theorem Reader.visited (h : w.Reader o commands) (order : List ℕ) (ρ : ℕ → Reading Unit) :
    (w.visited order ρ).Reader o commands where
  isReading := h.isReading
  effect := by
    rw [reactive_visited]
    exact h.effect
  notMem_running := by
    rw [reactive_visited]
    exact h.notMem_running

/-- Writes run no effect, and take none away. -/
theorem Reader.writing (h : w.Reader o commands) (writes : List Write) :
    (w.writing writes).Reader o commands where
  isReading := h.isReading
  effect := by
    obtain ⟨n, hobserver, hroutine⟩ := h.effect
    exact ⟨n, by rw [← hobserver]; exact congrArg (·[o]?) (Reactive.frame_writing _ writes).1,
      hroutine⟩
  notMem_running hmem :=
    h.notMem_running ((Reactive.frame_writing w.signals.reactive writes).2 ▸ hmem)

/-- With the batch closed and no task in the queue. -/
def settled (w : World) : World :=
  w.modifyReactive fun r => { r with pending := [], scheduled := false, queue := [] }

/-- A flush that begins with no other task in the queue leaves none. -/
theorem closeBatch_visited (w : World) (order : List ℕ) (ρ : ℕ → Reading Unit) :
    ((w.modifyReactive fun r => { r with queue := [] }).visited order ρ).modifyReactive
      (·.closeBatch) = (w.visited order ρ).settled := by
  have hemptied := Reactive.subscribeAll_eq (q := { w.signals.reactive with queue := [] })
    (r := w.signals.reactive) rfl (links order ρ)
  have hsame := Reactive.subscribeAll_eq (r := w.signals.reactive) rfl (links order ρ)
  simp only [settled, visited, modifyReactive, Signals.modify]
  rw [hemptied, hsame]
  rfl

/-- Effects `order` have run, one after the other: what comes of their readings has been noted, they
are subscribed to what they have read, the batch is closed, and no task is left.  Nothing else is
different. -/
structure Propagated (w w' : World) (order : List ℕ) (ρ : ℕ → Reading Unit) : Prop where
  log_eq : w'.log = w.log ++ order.flatMap fun o => (ρ o).notes
  value_eq (s : ℕ) : w'.signals.reactive.value s = w.signals.reactive.value s
  mem_subscribers_iff {s o : ℕ} : s < w.signals.reactive.signals.size →
    (o ∈ w'.signals.reactive.subscribers s ↔
      o ∈ w.signals.reactive.subscribers s ∨ o ∈ order ∧ s ∈ (ρ o).reads)
  rest_eq : w' = { w.settled with
    log := w'.log
    signals := w.settled.signals.modify fun r =>
      { r with signals := w'.signals.reactive.signals } }

theorem propagated_settled (w : World) (order : List ℕ) (ρ : ℕ → Reading Unit) :
    w.Propagated (w.visited order ρ).settled order ρ where
  log_eq := rfl
  value_eq _ := Reactive.value_subscribeAll
  mem_subscribers_iff hs := by
    rw [← mem_links_iff]
    exact Reactive.mem_subscribers_subscribeAll hs
  rest_eq := by
    have hlinks := Reactive.subscribeAll_eq (r := w.signals.reactive) rfl (links order ρ)
    simp only [settled, visited, modifyReactive, Signals.modify]
    rw [hlinks]

end World

namespace Run

open History

variable {w w' : World} {o : ℕ} {order done rest : List ℕ} {commands : Script}
  {ρ : ℕ → Reading Unit}

/-- A routine whose script only reads records what it reads. -/
theorem yields_routine {n : ℕ} (hlike : w.Like w')
    (hroutine : w'.routines[n]? = some (.script commands))
    (hreading : Script.isReading commands = true) (hρ : ρ o = Script.reading w commands) :
    Yields (fun run => run (.routine n)) w' () (w'.recorded (ρ o).notes (ρ o).reads) := by
  rw [hρ]
  refine Yields.job (j := .routine n)
    ((realises_body commands hreading w' hlike).congr fun run => ?_)
  change Run.routine run n w' = _
  rw [Run.routine, Activity.get_bind, hroutine]

theorem starts_routine {n : ℕ} (hroutine : w.routines[n]? = some (.script commands))
    (hreading : Script.isReading commands = true) (fuel : ℕ) :
    starts (deeds fuel (.routine n) w) = [] := by
  cases fuel with
  | zero => rfl
  | succ fuel =>
    change starts (routineDeeds (deeds fuel) (run fuel) w n) = []
    rw [routineDeeds, hroutine]
    exact starts_body commands hreading fuel w

/-- An effect that only reads notes what it makes of it, and is subscribed to what it has read. -/
theorem does_observer (hlike : w.Like w') (hreader : w'.Reader o commands)
    (hρ : ρ o = Script.reading w commands) :
    Does (.observer o) w' () (w'.visited [o] ρ) [o] := by
  obtain ⟨n, hobserver, hroutine⟩ := hreader.effect
  have hfree : w'.signals.reactive.running.contains o = false := by
    simpa using hreader.notMem_running
  obtain ⟨inside, hinside⟩ : ∃ inside, inside =
    w'.modifyReactive fun r => (r.start o).push (some o) := ⟨_, rfl⟩
  have hlikeInside : w.Like inside := hinside ▸ ⟨hlike.names_eq, hlike.value_eq, hlike.forest_eq⟩
  have hroutineInside : inside.routines[n]? = some (.script commands) := hinside ▸ hroutine
  have hend : ((inside.recorded (ρ o).notes (ρ o).reads).modifyReactive (·.pop)).modifyReactive
      (·.finish o) = w'.visited [o] ρ := by
    subst hinside
    simp only [World.recorded, World.modifyReactive, Signals.modify, Reactive.foldl_track_push,
      Reactive.finish_pop, World.visited, World.links, List.flatMap_singleton]
  obtain ⟨enough, hyields⟩ := yields_routine hlikeInside hroutineInside hreader.isReading hρ
  refine .of_job ⟨enough, fun fuel hfuel => ⟨?_, ?_⟩⟩
  · have hobserving : observing (some o) (run fuel (.routine n)) (w'.modifyReactive (·.start o)) =
        some ((), (inside.recorded (ρ o).notes (ρ o).reads).modifyReactive (·.pop)) :=
      observing_eq_some_iff.2 ⟨_, hinside ▸ hyields fuel hfuel, rfl⟩
    change Run.observer (run fuel) o w' = _
    rw [Run.observer, Activity.get_bind]
    simp only [hobserver, if_true, hfree, Bool.false_eq_true, if_false, Activity.reactive_bind]
    rw [Activity.bind_of_eq_some hobserving, Activity.reactive_apply, hend]
  · have hstarts := starts_routine hroutineInside hreader.isReading fuel
    rw [hinside] at hstarts
    change starts (observerDeeds (deeds fuel) w' o) = [o]
    simp only [observerDeeds, hobserver, if_true, hfree, Bool.false_eq_true, if_false]
    change o :: starts (deeds fuel (.routine n) _ ++ [.pop, .finish o]) = [o]
    rw [starts_append, hstarts]
    rfl

/-- A flush runs the rest of its batch, which stays as it is meanwhile, and closes it. -/
theorem does_flush {bodies : ℕ → Script} (hlike : w.Like w')
    (hpending : w'.signals.reactive.pending = done ++ rest)
    (hreaders : ∀ o ∈ rest, w'.Reader o (bodies o)) :
    Does (.flush done.length) w' ()
      ((w'.visited rest (w.readings bodies)).modifyReactive (·.closeBatch)) rest := by
  -- The observers `done` have had their turn; each turn moves one observer over to them.
  induction rest generalizing done w' with
  | nil =>
    refine .of_job ⟨0, fun fuel _ => ?_⟩
    have hplace : w'.signals.reactive.pending[done.length]? = none := by
      rw [hpending, List.append_nil, List.getElem?_eq_none le_rfl]
    constructor
    · change Run.flush (run fuel) done.length w' = _
      rw [Run.flush, Activity.get_bind, hplace, World.visited_nil]
      rfl
    · change starts (flushDeeds _ _ w' done.length) = []
      rw [flushDeeds, hplace]
      rfl
  | cons o rest ih =>
    obtain ⟨ho, hrest⟩ := List.forall_mem_cons.1 hreaders
    let after := w'.visited [o] (w.readings bodies)
    have hplace : w'.signals.reactive.pending[done.length]? = some o := by simp [hpending]
    have hpendingAfter : after.signals.reactive.pending = (done ++ [o]) ++ rest := by
      rw [World.reactive_visited, List.append_assoc]
      exact hpending
    obtain ⟨enough, hfirst⟩ := does_observer hlike ho (ρ := w.readings bodies) rfl
    obtain ⟨enough', hlater⟩ := ih (hlike.visited _ _) hpendingAfter fun p hp =>
      (hrest p hp).visited _ _
    rw [List.length_append, List.length_singleton, World.visited_cons] at hlater
    refine .of_job ⟨max enough enough', fun fuel hfuel => ?_⟩
    obtain ⟨hrun, hstarts⟩ := hfirst fuel (le_of_max_le_left hfuel)
    obtain ⟨hrun', hstarts'⟩ := hlater fuel (le_of_max_le_right hfuel)
    constructor
    · change Run.flush (run fuel) done.length w' = _
      rw [Run.flush, Activity.get_bind, hplace]
      exact (Activity.bind_of_eq_some hrun).trans hrun'
    · change starts (flushDeeds _ _ w' done.length) = o :: rest
      rw [flushDeeds, hplace]
      change starts (deeds fuel (.observer o) w' ++ _) = _
      rw [hrun, starts_append, hstarts, hstarts']
      rfl

/-- An empty queue is drained already. -/
theorem does_drain_of_empty (count : ℕ) (hqueue : w.signals.reactive.queue = []) :
    Does (.drain count) w count w [] := by
  refine .of_job ⟨0, fun fuel _ => ⟨?_, ?_⟩⟩
  · have hnext : nextMicrotask w = some (none, w) := by rw [nextMicrotask, hqueue]
    exact Activity.bind_of_eq_some hnext
  · change starts (drainDeeds _ _ w count) = []
    rw [drainDeeds, hqueue]
    rfl

/-- If the queue holds a flush only, and the flush queues nothing, draining is flushing. -/
theorem does_drain (hqueue : w.signals.reactive.queue = [.flush])
    (hflush : Does (.flush 0) (w.modifyReactive fun r => { r with queue := [] }) () w' order)
    (hempty : w'.signals.reactive.queue = []) : Does (.drain 0) w 1 w' order := by
  obtain ⟨enough, hflush⟩ := hflush
  obtain ⟨enough', hlater⟩ := does_drain_of_empty 1 hempty
  refine .of_job ⟨max enough enough', fun fuel hfuel => ?_⟩
  obtain ⟨hrun, hstarts⟩ := hflush fuel (le_of_max_le_left hfuel)
  obtain ⟨hrun', hstarts'⟩ := hlater fuel (le_of_max_le_right hfuel)
  constructor
  · have hnext : nextMicrotask w =
        some (some .flush, w.modifyReactive fun r => { r with queue := [] }) := by
      rw [nextMicrotask, hqueue]
    change Run.drain (run fuel) 0 w = _
    rw [Run.drain, Activity.bind_of_eq_some hnext]
    exact (Activity.bind_of_eq_some hrun).trans hrun'
  · change starts (drainDeeds _ _ w 0) = order
    have hrunTask : run fuel (taskJob .flush) (w.modifyReactive fun r => { r with queue := [] }) =
      some ((), w') := hrun
    rw [drainDeeds, hqueue]
    dsimp only
    rw [hrunTask]
    change starts (deeds fuel (.flush 0) _ ++ deeds fuel (.drain 1) w') = order
    rw [starts_append, hstarts, hstarts', List.append_nil]

/-- Draining the queue of a batch of effects that only read runs each of them once. -/
theorem does_drain_batch {hs : List ℕ} {bodies : ℕ → Script}
    (hbatch : w.signals.reactive = w.signals.reactive.batching hs)
    (hreaders : ∀ o ∈ hs, w.Reader o (bodies o)) :
    Does (.drain 0) w (if hs.eraseDups = [] then 0 else 1)
      (w.visited hs.eraseDups (w.readings bodies)).settled hs.eraseDups := by
  rcases hs with _ | ⟨h, hs⟩
  · have hqueue : w.signals.reactive.queue = [] := congrArg Reactive.queue hbatch
    have hsettled : w.settled = w :=
      congrArg (fun r => { w with signals := { w.signals with reactive := r } }) hbatch.symm
    rw [List.eraseDups_nil, World.visited_nil, hsettled, if_pos rfl]
    exact does_drain_of_empty 0 hqueue
  · have hnonempty : (h :: hs).eraseDups ≠ [] := by simp [List.eraseDups_cons]
    have hpending : w.signals.reactive.pending = [] ++ (h :: hs).eraseDups :=
      congrArg Reactive.pending hbatch
    have hqueue : w.signals.reactive.queue = [.flush] := congrArg Reactive.queue hbatch
    let emptied := w.modifyReactive fun r => { r with queue := [] }
    have hlike : w.Like emptied := ⟨rfl, fun _ => rfl, rfl⟩
    have hreadersEmptied : ∀ o ∈ (h :: hs).eraseDups, emptied.Reader o (bodies o) := fun o ho =>
      let hreader := hreaders o (List.mem_eraseDups.1 ho)
      ⟨hreader.isReading, hreader.effect, hreader.notMem_running⟩
    have hflush := does_flush hlike hpending hreadersEmptied
    rw [World.closeBatch_visited] at hflush
    rw [if_neg hnonempty]
    exact does_drain hqueue hflush rfl

theorem does_runMicrotasks {n : ℕ} (h : Does (.drain 0) w n w' order) :
    Does (.command .runMicrotasks) w (.count n) w' order := by
  obtain ⟨enough, h⟩ := h
  exact .of_job ⟨enough, fun fuel hfuel =>
    ⟨Activity.bind_of_eq_some (h fuel hfuel).1, (h fuel hfuel).2⟩⟩

/-- **Writes reach every effect that has read what they change, once.**  The batch is closed, no
task is in the queue, signals are written, and the observers that the writes come upon are effects
that only read.  Then the queue is drained by running each of these effects once, in the order in
which the writes have come upon them first, and every run reads the values that the writes have left
at last.  Each of the effects is subscribed to all that it has read on the record.  An observer is
one of them exactly if it was subscribed to a signal when a write changed it, and setting a signal
to an equal value is no write at all. -/
theorem runMicrotasks_propagates {writes : List Write} {bodies : ℕ → Script}
    (hpending : w.signals.reactive.pending = []) (hscheduled : w.signals.reactive.scheduled = false)
    (hqueue : w.signals.reactive.queue = [])
    (hreaders : ∀ o ∈ w.signals.reactive.hits writes, w.Reader o (bodies o)) :
    (∃ w', Does (.command .runMicrotasks) (w.writing writes)
        (.count (if w.signals.reactive.batchOf writes = [] then 0 else 1)) w'
        (w.signals.reactive.batchOf writes) ∧
      (w.writing writes).Propagated w' (w.signals.reactive.batchOf writes)
        ((w.writing writes).readings bodies)) ∧
      (w.signals.reactive.batchOf writes).Nodup ∧
      (∀ o, o ∈ w.signals.reactive.batchOf writes ↔
        ∃ xs d ys, writes = xs ++ d :: ys ∧ o ∈ d.hit (w.signals.reactive.writing xs)) ∧
      ∀ xs s v, ((w.writing xs).signals.reactive.value s).equal v = true →
        w.writing (xs ++ [.set s v]) = w.writing xs := by
  obtain ⟨order, horder⟩ : ∃ order, order = w.signals.reactive.batchOf writes := ⟨_, rfl⟩
  have hmem (o : ℕ) : o ∈ order ↔ o ∈ w.signals.reactive.hits writes := by
    rw [horder, Reactive.batchOf, List.mem_eraseDups]
  rw [← horder]
  refine ⟨⟨((w.writing writes).visited order ((w.writing writes).readings bodies)).settled, ?_,
    World.propagated_settled _ _ _⟩, horder ▸ nodup_eraseDups _,
    fun o => (hmem o).trans Reactive.mem_hits_iff, fun xs s v hequal => ?_⟩
  · subst horder
    exact does_runMicrotasks (does_drain_batch
      (Reactive.writing_eq hpending hscheduled hqueue) fun o ho => (hreaders o ho).writing writes)
  · exact congrArg (fun r => { w with signals := { w.signals with reactive := r } })
      (Reactive.writing_concat_of_equal hequal)

/-- A script that reads the second of two signals, and one that reads it only if the first is
one. -/
def readerOf : ℕ → Script
  | 0 => [.signal (.read "b" .tracked false)]
  | _ => [.signal (.read "a" .tracked false),
      .describeValue (.choose "a" (.int 1) (.signal "b" .tracked) (.text "-"))]

/-- Two signals with effects that have read them. -/
def twoReaders : World :=
  { World.fresh "" with
    signals :=
      ⟨{ Reactive.empty with
          signals := #[⟨.int 1, [1]⟩, ⟨.int 2, [0, 1]⟩]
          observers := #[⟨true, 0⟩, ⟨true, 1⟩] },
        [("a", ⟨0, 0⟩), ("b", ⟨1, 1⟩)], [], []⟩
    routines := #[.script (readerOf 0), .script (readerOf 1)] }

def fiveWrites : List Write :=
  [.set 0 (.int 3), .set 1 (.int 5), .set 0 (.int 1), .update 1 (.int 4), .set 1 (.int 9)]

theorem runMicrotasks_propagates_twoReaders :
    ∃ w', Does (.command .runMicrotasks) (twoReaders.writing fiveWrites) (.count 1) w' [1, 0] ∧
      w'.log =
        [.value (.int 1), .texts ["bigint", "Primitive(BigInt(9))"], .value (.int 9)] ∧
      (∀ o, o ∈ w'.signals.reactive.subscribers 0 ↔ o = 1) ∧
      ∀ o, o ∈ w'.signals.reactive.subscribers 1 ↔ o = 1 ∨ o = 0 := by
  have hbatch : twoReaders.signals.reactive.batchOf fiveWrites = [1, 0] := by decide +kernel
  have hhits : twoReaders.signals.reactive.hits fiveWrites = [1, 0, 1] := by decide +kernel
  have hreaders : ∀ o ∈ twoReaders.signals.reactive.hits fiveWrites,
      twoReaders.Reader o (readerOf o) := by
    have hfirst : twoReaders.Reader 0 (readerOf 0) := ⟨rfl, ⟨0, rfl, rfl⟩, List.not_mem_nil⟩
    have hsecond : twoReaders.Reader 1 (readerOf 1) := ⟨rfl, ⟨1, rfl, rfl⟩, List.not_mem_nil⟩
    rw [hhits]
    simp only [List.forall_mem_cons]
    exact ⟨hsecond, hfirst, hsecond, fun o ho => absurd ho List.not_mem_nil⟩
  obtain ⟨⟨w', hdoes, hpropagated⟩, -⟩ := runMicrotasks_propagates rfl rfl rfl hreaders
  rw [hbatch] at hdoes hpropagated
  have hreads₀ : ((twoReaders.writing fiveWrites).readings readerOf 0).reads = [1] := rfl
  have hreads₁ : ((twoReaders.writing fiveWrites).readings readerOf 1).reads = [0, 0, 1] := rfl
  have hnone : ∀ s < 2, (twoReaders.writing fiveWrites).signals.reactive.subscribers s = [] := by
    decide +kernel
  refine ⟨w', hdoes, ?_, fun o => ?_, fun o => ?_⟩
  · rw [hpropagated.log_eq]
    rfl
  · rw [hpropagated.mem_subscribers_iff (by decide +kernel), hnone 0 (by decide)]
    constructor
    · rintro (h | ⟨ho, hs⟩)
      · cases h
      · rcases List.mem_pair.1 ho with rfl | rfl
        · rfl
        · simp [hreads₀] at hs
    · rintro rfl
      simp [hreads₁]
  · rw [hpropagated.mem_subscribers_iff (by decide +kernel), hnone 1 (by decide)]
    constructor
    · rintro (h | ⟨ho, -⟩)
      · cases h
      · exact List.mem_pair.1 ho
    · rintro (rfl | rfl)
      · simp [hreads₁]
      · simp [hreads₀]

end Run

end LiveMarkup
