import LiveMarkup.Proofs.Reactive.Batches
import LiveMarkup.Proofs.Reactive.Fidelity
import LiveMarkup.Proofs.Script.Names

/-!
# Batches of scripts

A script is observing if all it does is to make, read and write signals, to make, run and schedule
observers of any kind, to let code run untracked or later, and to drain the queue.  `Run.traces`
tells what its jobs do to signals and observers, also what a job has done that does not end: the
trace then goes as far as the fuel does, and after that only closes what was open.

Every trace is a proper history (`Run.regular`), whether the job ends or not and whatever runs in
the middle of a flush.  So the batch is as it should be at every time of every session
(`batched_of_observing`), and the batch is empty and closed when the draining of the queue has come
to its end outside of a flush.
-/

namespace LiveMarkup

mutual

/-- Whether a command is one of an observing script. -/
def Command.isObserving : Command → Bool
  | .signal _ => true
  | .log _ => true
  | .effect commands _ _ => areObserving commands
  | .runEffect _ => true
  | .observer _ commands => areObserving commands
  | .untrack commands => areObserving commands
  | .microtask commands => areObserving commands
  | .runMicrotasks => true
  | _ => false

/-- Whether all of several commands are ones of an observing script. -/
def areObserving : List Command → Bool
  | [] => true
  | c :: cs => c.isObserving && areObserving cs

end

namespace Run

/-! ### Traces -/

section

variable (tell : Job → World → History) (run : Runner)

/-- What a command does, the ones on the stack of observers and on plain observers included. -/
def commandTrace (w : World) : Command → History
  | .signal (.pushObserver none) => [.push none]
  | .signal (.pushObserver (some name)) =>
    match w.signals.observer? name with
    | .ok o => [.push (some o)]
    | .error _ => []
  | .signal .popObserver => [.pop]
  | .observer _ _ => [.addObserver ⟨false, w.routines.size⟩]
  | c => commandDeeds tell run w c

/-- What a job does. -/
def jobTrace : Job → World → History
  | .command c, w => commandTrace tell run w c
  | j, w => jobDeeds tell run j w

end

/-- The trace of a job in which jobs are nested to a depth of at most `fuel`. -/
def traces : Nat → Job → World → History
  | 0, _, _ => []
  | fuel + 1, j, w => jobTrace (traces fuel) (run fuel) j w

end Run

/-- The trace of commands that are performed one after the other. -/
def World.tracesAll (fuel : Nat) (watch : List String) (w : World) : List Command → History
  | [] => []
  | c :: cs =>
    Run.traces fuel (.command c) { w with log := [] } ++
      match w.perform fuel watch c with
      | some (_, w) => w.tracesAll fuel watch cs
      | none => []

/-! ### Histories and worlds -/

/-- Whether a deed is no part of a flush. -/
def Deed.isPlain : Deed → Bool
  | take .flush | turn _ | close => false
  | _ => true

open History

variable {α β : Type} {h h' : History} {w w' : World} {d : Deed}

theorem executing_concat_of_isPlain (hd : d.isPlain = true) :
    executing (h ++ [d]) = h.executing := by
  cases d with
  | take t => cases t <;> simp_all [executing, Deed.isPlain]
  | turn o | close => cases hd
  | _ => simp [executing]

theorem taken_concat_of_isPlain (hd : d.isPlain = true) : taken (h ++ [d]) = h.taken := by
  cases d with
  | turn o | close => cases hd
  | _ => simp [taken]

/-- No history takes an observer away. -/
theorem size_observers_le_append (a b : History) :
    a.state.observers.size ≤ (state (a ++ b)).observers.size := by
  induction b using List.reverseRecOn with
  | nil => rw [List.append_nil]
  | append_singleton b d ih =>
    rw [← List.append_assoc, state_concat]
    exact ih.trans (Deed.size_observers_le_perform _ d)

/-- All routines of a world are observing scripts, and names lead to signals and observers that are
there. -/
structure Observing (w : World) : Prop where
  routine {n : Nat} {routine : Routine} : w.routines[n]? = some routine →
    ∃ commands, routine = .script commands ∧ areObserving commands = true
  names {name : String} {g : SignalHandle} : w.signals.names.get? name = some g →
    g.whole < w.signals.reactive.signals.size ∧ g.half < w.signals.reactive.signals.size
  observers {name : String} {o : Nat} : w.signals.observers.get? name = some o →
    o < w.signals.reactive.observers.size
  effects {name : String} {o : Nat} : w.signals.effects.get? name = some o →
    o < w.signals.reactive.observers.size

/-- A proper history leads to the state of the signals of a world that observing scripts made. -/
structure Told (h : History) (w : World) : Prop where
  state_eq : w.signals.reactive = h.state
  proper : h.Proper
  observing : Observing w

/-- A history that leads to a world goes on from an earlier one, with the same flush under way. -/
structure Passed (h h' : History) (w : World) : Prop where
  told : Told h' w
  executing_eq : h'.executing = h.executing
  taken_eq : h'.taken = h.taken

/-- The history of something that may come to a result is proper, and its result is as required. -/
structure Goes (h : History) (result : Option (α × World)) (post : World → Prop) : Prop where
  proper : h.Proper
  post {a : α} {w : World} : result = some (a, w) → post w

namespace Observing

theorem of_eq (hw : Observing w) (hr : w'.routines = w.routines)
    (hn : w'.signals.names = w.signals.names) (ho : w'.signals.observers = w.signals.observers)
    (he : w'.signals.effects = w.signals.effects)
    (hs : w.signals.reactive.signals.size ≤ w'.signals.reactive.signals.size)
    (hos : w.signals.reactive.observers.size ≤ w'.signals.reactive.observers.size) :
    Observing w' where
  routine := by
    rw [hr]
    exact hw.routine
  names := by
    rw [hn]
    exact fun hg => ⟨(hw.names hg).1.trans_le hs, (hw.names hg).2.trans_le hs⟩
  observers := by
    rw [ho]
    exact fun hg => (hw.observers hg).trans_le hos
  effects := by
    rw [he]
    exact fun hg => (hw.effects hg).trans_le hos

/-- One more routine, and observers that are added. -/
theorem addRoutine (hw : Observing w) {commands : Script} (hcs : areObserving commands = true)
    {c : Reactive → Reactive} (hs : ∀ r, (c r).signals = r.signals)
    (hos : ∀ r, r.observers.size ≤ (c r).observers.size) :
    Observing ((w.addRoutine (.script commands)).2.modifyReactive c) where
  routine {n routine} hn := by
    rw [World.modifyReactive, World.addRoutine, Array.getElem?_push] at hn
    split_ifs at hn
    · exact ⟨commands, (Option.some.inj hn).symm, hcs⟩
    · exact hw.routine hn
  names hg := (hs w.signals.reactive).symm ▸ hw.names hg
  observers hg := (hw.observers hg).trans_le (hos w.signals.reactive)
  effects hg := (hw.effects hg).trans_le (hos w.signals.reactive)

/-- The signal that a name leads to is there. -/
theorem lt_of_signal? (hw : Observing w) {name : String} {half : Bool} {g : Nat}
    (hg : w.signals.signal? name half = .ok g) : g < w.signals.reactive.signals.size := by
  unfold Signals.signal? at hg
  cases hk : w.signals.names.get? name with
  | none => rw [hk] at hg; cases hg
  | some k =>
    rw [hk] at hg
    cases hg
    split_ifs
    · exact (hw.names hk).2
    · exact (hw.names hk).1

/-- The observer that a name leads to is there. -/
theorem lt_of_observer? (hw : Observing w) {name : String} {o : Nat}
    (ho : w.signals.observer? name = .ok o) : o < w.signals.reactive.observers.size := by
  unfold Signals.observer? at ho
  cases hk : w.signals.observers.get? name with
  | some p =>
    rw [hk] at ho
    cases ho
    exact hw.observers hk
  | none =>
    rw [hk, Option.orElse_none] at ho
    cases hl : w.signals.effects.get? name with
    | some p =>
      rw [hl] at ho
      cases ho
      exact hw.effects hl
    | none => rw [hl] at ho; cases ho

end Observing

namespace Told

theorem passed (ht : Told h w) : Passed h h w := ⟨ht, rfl, rfl⟩

/-- Where only other parts of the world change. -/
theorem of_eq (ht : Told h w) (hs : w'.signals = w.signals) (hr : w'.routines = w.routines) :
    Told h w' :=
  ⟨hs ▸ ht.state_eq, ht.proper,
    ht.observing.of_eq hr (by rw [hs]) (by rw [hs]) (by rw [hs]) (by rw [hs]) (by rw [hs])⟩

theorem note (ht : Told h w) (reply : Reply) : Told h (w.note reply) := by
  unfold World.note
  split_ifs
  · exact ht
  · exact ht.of_eq rfl rfl

theorem concat (ht : Told h w) (hd : h.Permits d)
    (hr : w'.signals.reactive = d.perform w.signals.reactive) (hw : Observing w') :
    Told (h ++ [d]) w' :=
  ⟨by rw [state_concat, hr, ht.state_eq], proper_concat_iff.2 ⟨ht.proper, hd⟩, hw⟩

/-- A deed that is no part of a flush and leaves routines and names alone. -/
theorem deed (ht : Told h w) (hd : h.Permits d) (hplain : d.isPlain = true) :
    Passed h (h ++ [d]) (w.modifyReactive fun r => d.perform r) :=
  ⟨ht.concat hd rfl (ht.observing.of_eq rfl rfl rfl rfl (size_signals_le_perform _ d)
    (Deed.size_observers_le_perform _ d)), executing_concat_of_isPlain hplain,
    taken_concat_of_isPlain hplain⟩

end Told

theorem Passed.trans {h'' : History} (hp : Passed h h' w) (hp' : Passed h' h'' w') :
    Passed h h'' w' :=
  ⟨hp'.told, hp'.executing_eq.trans hp.executing_eq, hp'.taken_eq.trans hp.taken_eq⟩

theorem Passed.of_eq (hp : Passed h h' w) (hs : w'.signals = w.signals)
    (hr : w'.routines = w.routines) : Passed h h' w' :=
  ⟨hp.told.of_eq hs hr, hp.executing_eq, hp.taken_eq⟩

/-- One more deed that is no part of a flush and leaves routines and names alone. -/
theorem Passed.deed (hp : Passed h h' w) (hd : h'.Permits d) (hplain : d.isPlain = true) :
    Passed h (h' ++ [d]) (w.modifyReactive fun r => d.perform r) :=
  hp.trans (hp.told.deed hd hplain)

/-- Naming an effect that is there. -/
theorem Passed.bindEffect (hp : Passed h h' w) {o : Nat}
    (ho : o < w.signals.reactive.observers.size) (as : Option String) :
    Passed h h' { w with signals :=
      { w.signals with effects := w.signals.effects.bindTo as o } } := by
  refine ⟨⟨hp.told.state_eq, hp.told.proper, hp.told.observing.routine, hp.told.observing.names,
    hp.told.observing.observers, fun {m k} hk => ?_⟩, hp.executing_eq, hp.taken_eq⟩
  cases as with
  | none => exact hp.told.observing.effects hk
  | some name =>
    rw [Table.bindTo, Table.get?_bind] at hk
    split_ifs at hk
    · exact Option.some.inj hk ▸ ho
    · exact hp.told.observing.effects hk

/-- Naming a plain observer that is there. -/
theorem Passed.bindObserver (hp : Passed h h' w) {o : Nat}
    (ho : o < w.signals.reactive.observers.size) (as : String) :
    Passed h h' { w with signals :=
      { w.signals with observers := w.signals.observers.bind as o } } := by
  refine ⟨⟨hp.told.state_eq, hp.told.proper, hp.told.observing.routine, hp.told.observing.names,
    fun {m k} hk => ?_, hp.told.observing.effects⟩, hp.executing_eq, hp.taken_eq⟩
  rw [Table.get?_bind] at hk
  split_ifs at hk
  · exact Option.some.inj hk ▸ ho
  · exact hp.told.observing.observers hk

namespace Goes

variable {post post' : World → Prop} {result : Option (α × World)}

theorem of_eq_some {a : α} (hresult : result = some (a, w)) (hp : h.Proper) (hpost : post w) :
    Goes h result post :=
  ⟨hp, fun hr => (Prod.mk.inj (Option.some.inj (hresult.symm.trans hr))).2 ▸ hpost⟩

/-- What comes to no result has to have a proper history only. -/
theorem of_eq_none (hresult : result = none) (hp : h.Proper) : Goes h result post :=
  ⟨hp, fun hr => by rw [hresult] at hr; cases hr⟩

theorem mono (hg : Goes h result post) (hpost : ∀ w, post w → post' w) : Goes h result post' :=
  ⟨hg.proper, fun hr => hpost _ (hg.post hr)⟩

/-- One thing after another: the history of both is proper if the first comes to no result, and
otherwise it is up to the second. -/
theorem bind {action : Activity α} {next : α → Activity β} (hg : Goes h (action w) post)
    (hnone : action w = none → h'.Proper)
    (hsome : ∀ a w₁, action w = some (a, w₁) → post w₁ → Goes h' (next a w₁) post') :
    Goes h' ((action >>= next) w) post' := by
  cases haction : action w with
  | none => exact .of_eq_none (Activity.bind_of_eq_none haction) (hnone haction)
  | some p =>
    rw [Activity.bind_of_eq_some haction]
    exact hsome p.1 p.2 haction (hg.post haction)

/-- A second thing that only changes what is not told. -/
theorem bind_of_eq {action : Activity α} {next : α → Activity β} (hg : Goes h (action w) post)
    (hnext : ∀ a w₁, post w₁ → ∃ b w₂, next a w₁ = some (b, w₂) ∧ post' w₂) :
    Goes h ((action >>= next) w) post' :=
  hg.bind (fun _ => hg.proper) fun a w₁ _ hpost => by
    obtain ⟨b, w₂, hb, hpost'⟩ := hnext a w₁ hpost
    exact .of_eq_some hb hg.proper hpost'

/-- One more deed that is no part of a flush and leaves routines and names alone. -/
theorem deed {action : Activity α} (hg : Goes h' (action w) (Passed h h')) (hd : h'.Permits d)
    (hplain : d.isPlain = true) :
    Goes (h' ++ [d]) ((action >>= fun _ => Activity.reactive fun r => d.perform r) w)
      (Passed h (h' ++ [d])) :=
  hg.bind (fun _ => proper_concat_iff.2 ⟨hg.proper, hd⟩) fun _ _ _ hpost =>
    .of_eq_some rfl (proper_concat_iff.2 ⟨hg.proper, hd⟩) (hpost.deed hd hplain)

end Goes

namespace Run

/-- Traces that tell what a runner does in observing scripts, and are proper histories. -/
structure Regular (tell : Job → World → History) (run : Runner) : Prop where
  command {h : History} {w : World} {c : Command} : Told h w → c.isObserving = true →
    Goes (h ++ tell (.command c) w) (run (.command c) w)
      (Passed h (h ++ tell (.command c) w))
  routine {h : History} {w : World} {n : Nat} : Told h w →
    Goes (h ++ tell (.routine n) w) (run (.routine n) w) (Passed h (h ++ tell (.routine n) w))
  observer {h : History} {w : World} {o : Nat} : Told h w →
    Goes (h ++ tell (.observer o) w) (run (.observer o) w) (Passed h (h ++ tell (.observer o) w))
  /-- A flush that is at the place after the observers that have had their turn ends. -/
  flush {h : History} {w : World} {place : Nat} : Told h w → h.executing = true →
    place = h.taken.length →
    Goes (h ++ tell (.flush place) w) (run (.flush place) w) fun w' =>
      Told (h ++ tell (.flush place) w) w' ∧ (h ++ tell (.flush place) w).executing = false
  /-- Draining leaves no task in the queue. -/
  drain {h : History} {w : World} {count : Nat} : Told h w →
    Goes (h ++ tell (.drain count) w) (run (.drain count) w) fun w' =>
      Passed h (h ++ tell (.drain count) w) w' ∧ w'.signals.reactive.queue = []

variable {tell : Job → World → History} {run : Runner}

theorem Regular.body (hr : Regular tell run) {cs : Script} (hcs : areObserving cs = true)
    (ht : Told h w) :
    Goes (h ++ bodyDeeds tell run cs w) (Activity.body run cs w)
      (Passed h (h ++ bodyDeeds tell run cs w)) := by
  induction cs generalizing h w with
  | nil =>
    rw [bodyDeeds, List.append_nil]
    exact .of_eq_some rfl ht.proper ht.passed
  | cons c cs ih =>
    obtain ⟨hc, hcs⟩ := Bool.and_eq_true_iff.1 hcs
    have hfirst := hr.command ht hc
    rw [bodyDeeds, Activity.body, ← List.append_assoc]
    refine hfirst.bind (fun hrun => ?_) fun reply w₁ hrun hpassed => ?_
    · rw [hrun]
      simpa using hfirst.proper
    · rw [hrun]
      exact (ih hcs (hpassed.told.note reply)).mono fun _ => hpassed.trans

/-! ### Commands on signals -/

theorem passed_create (ht : Told h w) (name : String) (v : Value) (split : Bool) :
    Passed h (h ++ signalDeeds w.signals (.create name v split))
      { w with signals := w.signals.create name v split } := by
  -- After the signals have been added, naming them is all that is left to do.
  have hname : ∀ {h' : History} {w' : World} {g : SignalHandle}, Passed h h' w' →
      g.whole < w'.signals.reactive.signals.size ∧ g.half < w'.signals.reactive.signals.size →
      Passed h h'
        { w' with signals := { w'.signals with names := w'.signals.names.bind name g } } := by
    intro h' w' g hp hg
    refine ⟨⟨hp.told.state_eq, hp.told.proper, hp.told.observing.routine, fun {m k} hk => ?_,
      hp.told.observing.observers, hp.told.observing.effects⟩, hp.executing_eq, hp.taken_eq⟩
    rw [Table.get?_bind] at hk
    split_ifs at hk
    · exact Option.some.inj hk ▸ hg
    · exact hp.told.observing.names hk
  have hfirst := ht.deed (d := .addSignal v) ⟨trivial, trivial⟩ rfl
  cases split with
  | false =>
    refine hname hfirst ?_
    simp [World.modifyReactive, Signals.modify, Deed.perform, Reactive.addSignal]
  | true =>
    have hsecond := hfirst.deed (d := .addSignal v) ⟨trivial, trivial⟩ rfl
    rw [List.append_assoc] at hsecond
    refine hname hsecond ?_
    simp only [World.modifyReactive, Signals.modify, Deed.perform, Reactive.addSignal,
      Array.size_push]
    omega

theorem passed_signals (ht : Told h w) (c : SignalCommand) :
    Passed h (h ++ commandTrace tell run w (.signal c))
      { w with signals := (w.signals.run c).2 } := by
  cases c with
  | create name v split => exact passed_create ht name v split
  | read name mode half =>
    cases hg : w.signals.signal? name half with
    | error fault =>
      cases mode <;>
        simpa [Signals.run, commandTrace, commandDeeds, signalDeeds, hg] using ht.passed
    | ok g =>
      cases mode with
      | untracked =>
        simpa [Signals.run, commandTrace, commandDeeds, signalDeeds, hg] using ht.passed
      | tracked =>
        have hlt : g < h.state.signals.size := ht.state_eq ▸ ht.observing.lt_of_signal? hg
        simp only [Signals.run, commandTrace, commandDeeds, signalDeeds, hg]
        exact ht.deed (d := .track g) ⟨hlt, trivial⟩ rfl
  | set name v half =>
    cases hg : w.signals.signal? name half with
    | error fault =>
      simpa [Signals.run, commandTrace, commandDeeds, signalDeeds, hg] using ht.passed
    | ok g =>
      simp only [Signals.run, commandTrace, commandDeeds, signalDeeds, hg]
      exact ht.deed (d := .set g v) ⟨trivial, trivial⟩ rfl
  | update name arg half =>
    cases hg : w.signals.signal? name half with
    | error fault =>
      simpa [Signals.run, commandTrace, commandDeeds, signalDeeds, hg] using ht.passed
    | ok g =>
      simp only [Signals.run, commandTrace, commandDeeds, signalDeeds, hg]
      exact ht.deed (d := .update g arg) ⟨trivial, trivial⟩ rfl
  | subscriberCount name =>
    cases hg : w.signals.signal? name false <;>
      simpa [Signals.run, commandTrace, commandDeeds, signalDeeds, hg] using ht.passed
  | pendingCount | currentObserver =>
    simpa [Signals.run, commandTrace, commandDeeds, signalDeeds] using ht.passed
  | schedule name =>
    cases ho : w.signals.observer? name with
    | error fault =>
      simpa [Signals.run, commandTrace, commandDeeds, signalDeeds, ho] using ht.passed
    | ok o =>
      have hlt : o < h.state.observers.size := ht.state_eq ▸ ht.observing.lt_of_observer? ho
      simp only [Signals.run, commandTrace, commandDeeds, signalDeeds, ho]
      exact ht.deed (d := .schedule o) ⟨trivial, hlt⟩ rfl
  | pushObserver name =>
    cases name with
    | none => exact ht.deed (d := .push none) ⟨trivial, trivial⟩ rfl
    | some name =>
      cases ho : w.signals.observer? name with
      | error fault => simpa [Signals.run, commandTrace, ho] using ht.passed
      | ok o =>
        have hlt : o < h.state.observers.size := ht.state_eq ▸ ht.observing.lt_of_observer? ho
        simp only [Signals.run, commandTrace, ho]
        exact ht.deed (d := .push (some o)) ⟨trivial, hlt⟩ rfl
  | popObserver => exact ht.deed (d := .pop) ⟨trivial, trivial⟩ rfl

/-! ### Jobs -/

theorem Regular.goes_routine (hr : Regular tell run) (ht : Told h w) (n : Nat) :
    Goes (h ++ routineDeeds tell run w n) (Run.routine run n w)
      (Passed h (h ++ routineDeeds tell run w n)) := by
  rw [Run.routine, Activity.get_bind, routineDeeds]
  cases hn : w.routines[n]? with
  | none =>
    rw [List.append_nil]
    exact .of_eq_some rfl ht.proper ht.passed
  | some routine =>
    obtain ⟨commands, rfl, hcs⟩ := ht.observing.routine hn
    exact hr.body hcs ht

/-- What runs while an observer, or nobody, is the current one. -/
theorem goes_observing {o : Option Nat} {ds : History} {action : Activity Unit}
    (hpush : Passed h h' (w.modifyReactive (·.push o)))
    (hg : Goes (h' ++ ds) (action (w.modifyReactive (·.push o))) (Passed h' (h' ++ ds))) :
    Goes (h' ++ ds ++ [.pop]) (Run.observing o action w) (Passed h (h' ++ ds ++ [.pop])) := by
  refine ⟨proper_concat_iff.2 ⟨hg.proper, trivial, trivial⟩, fun hrun => ?_⟩
  obtain ⟨w₁, haction, rfl⟩ := observing_eq_some_iff.1 hrun
  exact (hpush.trans (hg.post haction)).deed ⟨trivial, trivial⟩ rfl

theorem Regular.goes_observer (hr : Regular tell run) (ht : Told h w) (o : Nat) :
    Goes (h ++ observerDeeds tell w o) (Run.observer run o w)
      (Passed h (h ++ observerDeeds tell w o)) := by
  have hnone : Goes (h ++ []) (some ((), w)) (Passed h (h ++ [])) := by
    rw [List.append_nil]
    exact .of_eq_some rfl ht.proper ht.passed
  rw [Run.observer, Activity.get_bind, observerDeeds]
  cases hob : w.signals.reactive.observers[o]? with
  | none => exact hnone
  | some ob =>
    dsimp only
    split_ifs with heffect hrunning
    · exact hnone
    · have hlt : o < h.state.observers.size := by
        obtain ⟨hlt, -⟩ := Array.getElem?_eq_some_iff.1 hob
        exact ht.state_eq ▸ hlt
      have hstart := ht.deed (d := .start o) ⟨trivial, trivial⟩ rfl
      have hpush := hstart.deed (d := .push (some o)) ⟨trivial, by rwa [state_concat]⟩ rfl
      have hinside := goes_observing hpush (hr.routine (n := ob.routine) hpush.told)
      have hend := hinside.deed (d := .finish o) ⟨trivial, trivial⟩ rfl
      simp only [List.append_assoc, List.cons_append, List.nil_append] at hend ⊢
      exact hend
    · exact hr.routine ht

theorem Regular.goes_flush (hr : Regular tell run) (ht : Told h w) (he : h.executing = true)
    {place : Nat} (hplace : place = h.taken.length) :
    Goes (h ++ flushDeeds tell run w place) (Run.flush run place w) fun w' =>
      Told (h ++ flushDeeds tell run w place) w' ∧
        (h ++ flushDeeds tell run w place).executing = false := by
  rw [Run.flush, Activity.get_bind, flushDeeds]
  cases ho : w.signals.reactive.pending[place]? with
  | none =>
    have hend : h.state.pending.length ≤ h.taken.length := by
      rw [← ht.state_eq, ← hplace]
      exact List.getElem?_eq_none_iff.1 ho
    have hclose : h.Permits .close := ⟨⟨he, hend⟩, trivial⟩
    exact .of_eq_some rfl (proper_concat_iff.2 ⟨ht.proper, hclose⟩)
      ⟨ht.concat hclose rfl (ht.observing.of_eq rfl rfl rfl rfl le_rfl le_rfl),
        by simp [executing]⟩
  | some o =>
    have hturn : Told (h ++ [.turn o]) w :=
      ht.concat ⟨⟨he, by rw [← ht.state_eq, ← hplace, ho]⟩, trivial⟩ rfl ht.observing
    have hobserver := hr.observer hturn (o := o)
    dsimp only
    rw [List.cons_append, List.append_cons, ← List.append_assoc]
    refine hobserver.bind (fun hrun => ?_) fun _ w₁ hrun hpassed => ?_
    · rw [hrun]
      simpa using hobserver.proper
    · rw [hrun]
      exact hr.flush hpassed.told (hpassed.executing_eq.trans (by simpa [executing] using he))
        (by rw [hpassed.taken_eq, hplace]; simp [taken])

/-- A flush that is taken out of the queue is done before anything else. -/
theorem Regular.goes_taken_flush (hr : Regular tell run) (ht : Told h w)
    (hd : h.Permits (.take .flush)) (hw : Told (h ++ [.take .flush]) w') :
    Goes (h ++ [.take .flush] ++ tell (.flush 0) w') (run (.flush 0) w')
      (Passed h (h ++ [.take .flush] ++ tell (.flush 0) w')) := by
  have hidle := (ht.proper.orderly.concat_take_flush hd.1).1
  have htaken := ht.proper.orderly.taken_of_idle hidle
  have hplace : 0 = (taken (h ++ [.take .flush])).length := by
    rw [show taken (h ++ [.take .flush]) = h.taken by simp [taken], htaken]
    rfl
  have hflush := hr.flush hw (by simp [executing]) hplace
  refine hflush.mono fun w₁ hdone => ⟨hdone.1, by rw [hdone.2, hidle], ?_⟩
  rw [hdone.1.proper.orderly.taken_of_idle hdone.2, htaken]

/-- The rest of the queue is drained after its first task. -/
theorem Regular.goes_rest (hr : Regular tell run) {ds : History} {action : Activity Unit}
    (hfirst : Goes (h ++ ds) (action w) (Passed h' (h ++ ds))) (count : Nat) {rest : History}
    (hnone : action w = none → rest = [])
    (hsome : ∀ w₁, action w = some ((), w₁) → rest = tell (.drain count) w₁) :
    Goes (h ++ ds ++ rest) ((action >>= fun _ => run (.drain count)) w) fun w' =>
      Passed h' (h ++ ds ++ rest) w' ∧ w'.signals.reactive.queue = [] := by
  refine hfirst.bind (fun hrun => ?_) fun _ w₁ hrun hpassed => ?_
  · rw [hnone hrun, List.append_nil]
    exact hfirst.proper
  · rw [hsome w₁ hrun]
    exact (hr.drain hpassed.told).mono fun _ => And.imp_left hpassed.trans

theorem Regular.goes_drain (hr : Regular tell run) (ht : Told h w) (count : Nat) :
    Goes (h ++ drainDeeds tell run w count) (Run.drain run count w) fun w' =>
      Passed h (h ++ drainDeeds tell run w count) w' ∧ w'.signals.reactive.queue = [] := by
  rw [Run.drain, drainDeeds]
  cases hq : w.signals.reactive.queue with
  | nil =>
    have hnext : nextMicrotask w = some (none, w) := by rw [nextMicrotask, hq]
    rw [Activity.bind_of_eq_some hnext, List.append_nil]
    exact .of_eq_some rfl ht.proper ⟨ht.passed, hq⟩
  | cons t queue =>
    have hnext : nextMicrotask w =
        some (some t, w.modifyReactive fun r => { r with queue := queue }) := by
      rw [nextMicrotask, hq]
    have hallows : h.Permits (.take t) := ⟨⟨queue, by rw [← ht.state_eq, hq]⟩, trivial⟩
    have htake : Told (h ++ [.take t]) (w.modifyReactive fun r => { r with queue := queue }) := by
      refine ht.concat hallows ?_ (ht.observing.of_eq rfl rfl rfl rfl le_rfl le_rfl)
      simp [World.modifyReactive, Signals.modify, Deed.perform, hq]
    rw [Activity.bind_of_eq_some hnext]
    dsimp only
    rw [List.cons_append, List.append_cons, ← List.append_assoc]
    cases t with
    | flush =>
      exact hr.goes_rest (hr.goes_taken_flush ht hallows htake) (count + 1)
        (fun hrun => by simp only [taskJob, hrun]) fun w₁ hrun => by simp only [taskJob, hrun]
    | routine k =>
      have hfirst : Passed h (h ++ [.take (.routine k)]) _ :=
        ⟨htake, executing_concat_of_isPlain rfl, taken_concat_of_isPlain rfl⟩
      exact hr.goes_rest ((hr.routine htake).mono fun _ => hfirst.trans) (count + 1)
        (fun hrun => by simp only [taskJob, hrun]) fun w₁ hrun => by simp only [taskJob, hrun]

/-! ### Commands -/

theorem passed_addObserver (ht : Told h w) (isEffect : Bool) {commands : Script}
    (hcs : areObserving commands = true) {o : Nat}
    (hrun : addObserver isEffect (.script commands) w = some (o, w')) :
    Passed h (h ++ [.addObserver ⟨isEffect, w.routines.size⟩]) w' ∧
      o < w'.signals.reactive.observers.size := by
  obtain ⟨rfl, rfl⟩ := Prod.mk.inj (Option.some.inj hrun)
  have hobserving := ht.observing.addRoutine hcs
    (c := fun r => (r.addObserver ⟨isEffect, w.routines.size⟩).2) (fun _ => rfl)
    fun r => by simp [Reactive.addObserver]
  refine ⟨⟨ht.concat ⟨trivial, trivial⟩ rfl hobserving, executing_concat_of_isPlain rfl,
    taken_concat_of_isPlain rfl⟩, ?_⟩
  simp [World.modifyReactive, Signals.modify]

theorem Regular.goes_effect (hr : Regular tell run) (ht : Told h w) {commands : Script}
    (hcs : areObserving commands = true) (as : Option String) (later : Bool) :
    Goes (h ++ commandDeeds tell run w (.effect commands as later))
      (Run.effect run commands as later w)
      (Passed h (h ++ commandDeeds tell run w (.effect commands as later))) := by
  obtain ⟨⟨o, w₁⟩, hadd⟩ : ∃ p, addObserver true (.script commands) w = some p := ⟨_, rfl⟩
  obtain ⟨hpassed, ho⟩ := passed_addObserver ht true hcs hadd
  rw [Run.effect, Activity.bind_of_eq_some hadd, commandDeeds, List.append_cons]
  cases later with
  | true =>
    rw [if_pos rfl, List.append_nil]
    exact .of_eq_some rfl hpassed.told.proper (hpassed.bindEffect ho as)
  | false =>
    rw [if_neg (by simp), hadd]
    have hobserver := hr.observer hpassed.told (o := o)
    refine hobserver.bind_of_eq fun _ w₂ hdone =>
      ⟨_, _, rfl, (hpassed.trans hdone).bindEffect (ho.trans_le ?_) as⟩
    rw [hpassed.told.state_eq, hdone.told.state_eq]
    exact size_observers_le_append _ _

theorem Regular.goes_untrack (hr : Regular tell run) (ht : Told h w) {commands : Script}
    (hcs : areObserving commands = true) :
    Goes (h ++ commandDeeds tell run w (.untrack commands))
      (silently (observing none (Activity.body run commands)) w)
      (Passed h (h ++ commandDeeds tell run w (.untrack commands))) := by
  have hpush := ht.deed (d := .push none) ⟨trivial, trivial⟩ rfl
  have hinside := goes_observing hpush (hr.body hcs hpush.told)
  rw [commandDeeds, List.cons_append, List.append_cons, ← List.append_assoc]
  exact hinside.bind_of_eq fun _ w₂ hdone => ⟨_, _, rfl, hdone⟩

theorem passed_microtask (ht : Told h w) {commands : Script}
    (hcs : areObserving commands = true) :
    Passed h (h ++ [.enqueue w.routines.size]) ((w.addRoutine (.script commands)).2.modifyReactive
      (·.enqueue (.routine w.routines.size))) :=
  ⟨ht.concat ⟨trivial, trivial⟩ rfl (ht.observing.addRoutine hcs (fun _ => rfl) fun _ => le_rfl),
    executing_concat_of_isPlain rfl, taken_concat_of_isPlain rfl⟩

theorem Regular.goes_command (hr : Regular tell run) (ht : Told h w) {c : Command}
    (hc : c.isObserving = true) :
    Goes (h ++ commandTrace tell run w c) (Run.command run c w)
      (Passed h (h ++ commandTrace tell run w c)) := by
  have hnone : ∀ {reply : Reply}, Goes (h ++ []) (some (reply, w)) (Passed h (h ++ [])) := by
    intro reply
    rw [List.append_nil]
    exact .of_eq_some rfl ht.proper ht.passed
  cases c with
  | signal c =>
    have hpassed : Passed h (h ++ commandTrace tell run w (.signal c)) _ := passed_signals ht c
    exact .of_eq_some rfl hpassed.told.proper hpassed
  | log message => exact hnone
  | effect commands as later => exact hr.goes_effect ht hc as later
  | runEffect name =>
    have htrace : commandTrace tell run w (.runEffect name) =
        commandDeeds tell run w (.runEffect name) := rfl
    rw [Run.command, Run.runEffect, Activity.get_bind, htrace, commandDeeds]
    cases ho : w.signals.effects.get? name with
    | none => exact hnone
    | some o => exact (hr.observer ht).bind_of_eq fun _ w₁ hdone => ⟨_, _, rfl, hdone⟩
  | untrack commands => exact hr.goes_untrack ht hc
  | microtask commands =>
    have hpassed := passed_microtask ht hc
    exact .of_eq_some rfl hpassed.told.proper hpassed
  | runMicrotasks => exact (hr.drain ht).bind_of_eq fun n w₁ hdone => ⟨_, _, rfl, hdone.1⟩
  | observer as commands =>
    obtain ⟨⟨o, w₁⟩, hadd⟩ : ∃ p, addObserver false (.script commands) w = some p := ⟨_, rfl⟩
    obtain ⟨hpassed, ho⟩ := passed_addObserver ht false hc hadd
    rw [Run.command, bindObserver, Activity.bind_of_eq_some hadd]
    exact .of_eq_some rfl hpassed.told.proper (hpassed.bindObserver ho as)
  | _ => cases hc

/-- The trace of every depth is regular. -/
theorem regular (fuel : Nat) : Regular (traces fuel) (Run.run fuel) := by
  induction fuel with
  | zero =>
    have hnil : ∀ {h : History} {w : World}, Told h w → (h ++ []).Proper := by
      intro h w ht
      rw [List.append_nil]
      exact ht.proper
    exact ⟨fun ht _ => .of_eq_none rfl (hnil ht), fun ht => .of_eq_none rfl (hnil ht),
      fun ht => .of_eq_none rfl (hnil ht), fun ht _ _ => .of_eq_none rfl (hnil ht),
      fun ht => .of_eq_none rfl (hnil ht)⟩
  | succ fuel ih =>
    exact ⟨fun ht hc => ih.goes_command ht hc, fun ht => ih.goes_routine ht _,
      fun ht => ih.goes_observer ht _, fun ht he hplace => ih.goes_flush ht he hplace,
      fun ht => ih.goes_drain ht _⟩

end Run

/-! ### Sessions -/

variable (fuel : Nat) (watch : List String)

/-- What is released belongs to no history of signals. -/
theorem goes_perform (ht : Told h w) {c : Command} (hc : c.isObserving = true) :
    Goes (h ++ Run.traces fuel (.command c) { w with log := [] }) (w.perform fuel watch c)
      (Passed h (h ++ Run.traces fuel (.command c) { w with log := [] })) := by
  have ht' : Told h { w with log := [] } := ht.of_eq rfl rfl
  have hcommand := (Run.regular fuel).command ht' hc
  unfold World.perform
  cases hrun : Run.run fuel (.command c) { w with log := [] } with
  | none => exact .of_eq_none rfl hcommand.proper
  | some p => exact .of_eq_some rfl hcommand.proper ((hcommand.post hrun).of_eq rfl rfl)

theorem goes_performAll (ht : Told h w) {cs : List Command} (hcs : areObserving cs = true) :
    Goes (h ++ w.tracesAll fuel watch cs) (w.performAll fuel watch cs)
      (Passed h (h ++ w.tracesAll fuel watch cs)) := by
  induction cs generalizing h w with
  | nil =>
    rw [World.tracesAll, List.append_nil]
    exact .of_eq_some rfl ht.proper ht.passed
  | cons c cs ih =>
    obtain ⟨hc, hcs⟩ := Bool.and_eq_true_iff.1 hcs
    have hfirst := goes_perform fuel watch ht hc
    rw [World.tracesAll, World.performAll, ← List.append_assoc]
    cases hstep : w.perform fuel watch c with
    | none =>
      dsimp only
      rw [List.append_nil]
      exact .of_eq_none rfl hfirst.proper
    | some p =>
      obtain ⟨report, w₁⟩ := p
      have hpassed := hfirst.post hstep
      have hrest := ih hpassed.told hcs
      dsimp only
      cases hrun : w₁.performAll fuel watch cs with
      | none => exact .of_eq_none rfl hrest.proper
      | some q => exact .of_eq_some rfl hrest.proper (hpassed.trans (hrest.post hrun))

theorem told_fresh (base : String) : Told [] (World.fresh base) :=
  ⟨rfl, proper_nil, ⟨fun hn => by simp [World.fresh] at hn, nofun, nofun, nofun⟩⟩

/-- The batch is as it should be at all times: in every proper history, whatever code runs between
its deeds, and so at every time of every session of an observing script, whether it ends or not.
Wherever such a script has the queue drained outside of a flush, the batch is empty and closed when
the draining is done. -/
theorem batched_of_observing :
    (∀ h : History, h.Proper → h.Batched) ∧
    (∀ (base : String) (fuel : Nat) (watch : List String) (cs : List Command),
      areObserving cs = true →
      let h : History := (World.fresh base).tracesAll fuel watch cs
      h.Proper ∧ (∀ a b : History, h = a ++ b → a.Batched) ∧
        ∀ reports w, (World.fresh base).performAll fuel watch cs = some (reports, w) → Told h w) ∧
    ∀ (h : History) (w : World) (fuel count : Nat) (n : Nat) (w' : World),
      Told h w → h.flushing = 0 → Run.run fuel (.drain count) w = some (n, w') →
      let r := w'.signals.reactive
      r.queue = [] ∧ r.pending = [] ∧ r.scheduled = false := by
  refine ⟨fun h hp => hp.batched, fun base fuel watch cs hcs => ?_,
    fun h w fuel count n w' ht hflushing hrun => ?_⟩
  · have hgoes := goes_performAll fuel watch (told_fresh base) hcs
    rw [List.nil_append] at hgoes
    exact ⟨hgoes.proper, fun a b hab => (Proper.left (hab ▸ hgoes.proper)).batched,
      fun reports w hrun => (hgoes.post hrun).told⟩
  · obtain ⟨hpassed, hqueue⟩ := ((Run.regular fuel).drain ht).post hrun
    have hp := hpassed.told.proper
    have hidle : flushing (h ++ Run.traces fuel (.drain count) w) = 0 := by
      rw [hp.flushing_eq, hpassed.executing_eq, ← ht.proper.flushing_eq, hflushing]
    have hclosed := hp.batched.closed_of_queue hidle
    rw [← hpassed.told.state_eq] at hclosed
    exact ⟨hqueue, hclosed hqueue⟩

/-- A task schedules an observer that is already in the batch, and drains the queue while the queue
is drained.  The flush that this runs comes to the observer, whose update brings an effect into the
batch; the effect updates what another reads, and drains the queue in the middle of the flush. -/
def nestedDrains : List Command :=
  [.signal (.create "x" (.int 0) false), .signal (.create "y" (.int 0) false),
    .effect [.signal (.read "x" .tracked false), .signal (.update "y" (.int 1) false),
      .runMicrotasks] none false,
    .effect [.signal (.read "y" .tracked false)] none false,
    .observer "o" [.signal (.update "x" (.int 1) false)],
    .microtask [.signal (.schedule "o"), .runMicrotasks], .signal (.schedule "o")]

theorem batched_nestedDrains :
    areObserving nestedDrains = true ∧
    (∃ a b : History,
      (World.fresh "a").tracesAll 12 [] (nestedDrains ++ [.runMicrotasks]) = a ++ b ∧
        a.flushing = 1 ∧ a.taken = [2, 0, 1] ∧ a.Proper ∧ a.Batched) ∧
    ∃ reports w n w', (World.fresh "a").performAll 12 [] nestedDrains = some (reports, w) ∧
      w.signals.reactive.pending = [2] ∧ Run.run 12 (.drain 0) w = some (n, w') ∧
      w'.signals.reactive.pending = [] ∧ w'.signals.reactive.scheduled = false := by
  have hcs : areObserving nestedDrains = true := by decide +kernel
  have hcs' : areObserving (nestedDrains ++ [.runMicrotasks]) = true := by decide +kernel
  obtain ⟨hproper, hsession, hdrain⟩ := batched_of_observing
  refine ⟨hcs, ?_, ?_⟩
  · -- The flush ends with the last deed of the trace.
    have hsplit := List.take_append_drop 36
      ((World.fresh "a").tracesAll 12 [] (nestedDrains ++ [.runMicrotasks]))
    have hall : Proper ((World.fresh "a").tracesAll 12 [] (nestedDrains ++ [.runMicrotasks])) :=
      (hsession "a" 12 [] _ hcs').1
    rw [← hsplit] at hall
    exact ⟨_, _, hsplit.symm, by decide +kernel, by decide +kernel, hall.left,
      hproper _ hall.left⟩
  · have hpending : ((World.fresh "a").performAll 12 [] nestedDrains).map
        (·.2.signals.reactive.pending) = some [2] := by decide +kernel
    obtain ⟨⟨reports, w⟩, hrun, hw⟩ := Option.map_eq_some_iff.1 hpending
    have hsome : (((World.fresh "a").performAll 12 [] nestedDrains).bind fun p =>
        Run.run 12 (.drain 0) p.2).isSome = true := by decide +kernel
    rw [hrun] at hsome
    obtain ⟨⟨n, w'⟩, hlast⟩ := Option.isSome_iff_exists.1 hsome
    have htold := (hsession "a" 12 [] _ hcs).2.2 reports w hrun
    obtain ⟨-, hempty, hclosed⟩ := hdrain _ w 12 0 n w' htold (by decide +kernel) hlast
    exact ⟨reports, w, n, w', hrun, hw, hlast, hempty, hclosed⟩

end LiveMarkup
