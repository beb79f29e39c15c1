import LiveMarkup.Proofs.Reactive.Chronicle

/-!
# Chronicles are faithful

A job of a reactive script takes the state that a history leads to on to the state of the history
with the chronicle of the job, and if the history was orderly it still is (`Run.faithful`).  Jobs
other than a flush leave the flush that is under way where it was: whatever runs inside a flush, and
be it the whole queue, comes back to the same place of the same batch.
-/

namespace LiveMarkup

/-! ### Histories and worlds -/

open History

variable {h h' : History} {w w' : World} {d : Deed}

/-- All routines of a world are reactive scripts, and names lead to signals that are there. -/
structure Scripted (w : World) : Prop where
  routine {n : Nat} {routine : Routine} : w.routines[n]? = some routine →
    ∃ commands, routine = .script commands ∧ areReactive commands = true
  names {name : String} {g : SignalHandle} : (name, g) ∈ w.signals.names →
    g.whole < w.signals.reactive.signals.size ∧ g.half < w.signals.reactive.signals.size

/-- An orderly history leads to the state of the signals of a world that reactive scripts made. -/
structure Tells (h : History) (w : World) : Prop where
  state_eq : w.signals.reactive = h.state
  orderly : h.Orderly
  scripted : Scripted w

/-- A history that leads to a world goes on from an earlier one, with the same flush under way. -/
structure Carried (h h' : History) (w : World) : Prop where
  tells : Tells h' w
  executing_eq : h'.executing = h.executing
  taken_eq : h'.taken = h.taken

theorem Tells.carried (ht : Tells h w) : Carried h h w := ⟨ht, rfl, rfl⟩

theorem Carried.trans {h'' : History} (hc : Carried h h' w) (hc' : Carried h' h'' w') :
    Carried h h'' w' :=
  ⟨hc'.tells, hc'.executing_eq.trans hc.executing_eq, hc'.taken_eq.trans hc.taken_eq⟩

theorem size_signals_foldl_schedule (os : List Nat) (r : Reactive) :
    (os.foldl Reactive.schedule r).signals.size = r.signals.size := by
  rw [(Reactive.foldl_schedule os r).2.2]

/-- No deed takes a signal away. -/
theorem size_signals_le_perform (r : Reactive) (d : Deed) :
    r.signals.size ≤ (d.perform r).signals.size := by
  have hmod : ∀ (r : Reactive) (s : Nat) (change : Signal → Signal),
      (r.modifySignal s change).signals.size = r.signals.size := by
    simp [Reactive.modifySignal]
  have hnotify : ∀ (r : Reactive) (s : Nat), (r.notify s).signals.size = r.signals.size :=
    fun r s => (size_signals_foldl_schedule _ _).trans (hmod r s _)
  cases d with
  | addSignal v => simp [Deed.perform, Reactive.addSignal]
  | track s =>
    simp only [Deed.perform, Reactive.track]
    cases r.current with
    | none => exact le_rfl
    | some o =>
      simp only [Reactive.subscribe]
      split_ifs
      · exact le_rfl
      · exact (hmod r s _).symm.le
  | set s v =>
    simp only [Deed.perform, Reactive.set]
    split_ifs
    · exact le_rfl
    · rw [hnotify]
      exact (hmod r s _).symm.le
  | update s arg =>
    rw [Deed.perform, Reactive.update, hnotify]
    exact (hmod r s _).symm.le
  | schedule o => rw [Deed.perform, Reactive.signals_schedule]
  | _ => exact le_rfl

theorem Scripted.of_eq (hw : Scripted w) (hr : w'.routines = w.routines)
    (hn : w'.signals.names = w.signals.names)
    (hs : w.signals.reactive.signals.size ≤ w'.signals.reactive.signals.size) : Scripted w' where
  routine := by
    rw [hr]
    exact hw.routine
  names := by
    rw [hn]
    exact fun hg => ⟨(hw.names hg).1.trans_le hs, (hw.names hg).2.trans_le hs⟩

theorem Scripted.bind (hw : Scripted w) {name : String} {g : SignalHandle}
    (hr : w'.routines = w.routines) (hn : w'.signals.names = w.signals.names.bind name g)
    (hg : g.whole < w'.signals.reactive.signals.size ∧
      g.half < w'.signals.reactive.signals.size)
    (hs : w.signals.reactive.signals.size ≤ w'.signals.reactive.signals.size) :
    Scripted w' where
  routine := by
    rw [hr]
    exact hw.routine
  names := by
    intro m k hk
    rw [hn, Table.bind, List.mem_cons] at hk
    rcases hk with hk | hk
    · exact (Prod.mk.inj hk).2 ▸ hg
    · have hold := hw.names (List.mem_of_mem_filter hk)
      exact ⟨hold.1.trans_le hs, hold.2.trans_le hs⟩

/-- The signal that a name leads to is there. -/
theorem Scripted.lt_of_signal? (hw : Scripted w) {name : String} {half : Bool} {g : Nat}
    (hg : w.signals.signal? name half = .ok g) : g < w.signals.reactive.signals.size := by
  unfold Signals.signal? at hg
  cases hk : w.signals.names.get? name with
  | none => rw [hk] at hg; cases hg
  | some k =>
    rw [hk] at hg
    obtain ⟨l, l', hl, -⟩ := List.lookup_eq_some_iff.1 hk
    have hmem : (name, k) ∈ w.signals.names := hl ▸ by simp
    cases hg
    split_ifs
    · exact (hw.names hmem).2
    · exact (hw.names hmem).1

theorem Scripted.addRoutine (hw : Scripted w) {commands : Script}
    (hcs : areReactive commands = true) (hr : w'.routines = w.routines.push (.script commands))
    (hn : w'.signals.names = w.signals.names)
    (hs : w'.signals.reactive.signals = w.signals.reactive.signals) : Scripted w' where
  routine := by
    intro n routine hroutine
    rw [hr, Array.getElem?_push] at hroutine
    split_ifs at hroutine
    · exact ⟨commands, (Option.some.inj hroutine).symm, hcs⟩
    · exact hw.routine hroutine
  names := by
    rw [hn, hs]
    exact hw.names

/-- Where only other parts of the world change. -/
theorem Tells.of_eq (ht : Tells h w) (hs : w'.signals.reactive = w.signals.reactive)
    (hn : w'.signals.names = w.signals.names) (hr : w'.routines = w.routines) : Tells h w' :=
  ⟨hs ▸ ht.state_eq, ht.orderly, ht.scripted.of_eq hr hn (by rw [hs])⟩

theorem Tells.note (ht : Tells h w) (reply : Reply) : Tells h (w.note reply) := by
  unfold World.note
  split_ifs
  · exact ht
  · exact ht.of_eq rfl rfl rfl

theorem Tells.concat (ht : Tells h w) (hd : h.Allows d)
    (hr : w'.signals.reactive = d.perform w.signals.reactive) (hw : Scripted w') :
    Tells (h ++ [d]) w' :=
  ⟨by rw [state_concat, hr, ht.state_eq], ht.orderly.concat hd, hw⟩

/-- A deed that belongs to no flush and leaves routines and names alone. -/
theorem Tells.deed (ht : Tells h w) (hd : h.Allows d)
    (he : executing (h ++ [d]) = h.executing) (hk : taken (h ++ [d]) = h.taken) :
    Carried h (h ++ [d]) (w.modifyReactive fun r => d.perform r) :=
  ⟨ht.concat hd rfl (ht.scripted.of_eq rfl rfl (size_signals_le_perform _ d)), he, hk⟩

namespace Run

/-- A chronicle that tells what a runner does in reactive scripts. -/
structure Faithful (tell : Job → World → History) (run : Runner) : Prop where
  command {h : History} {w w' : World} {c : Command} {reply : Reply} : Tells h w →
    c.isReactive = true → run (.command c) w = some (reply, w') →
    Carried h (h ++ tell (.command c) w) w'
  routine {h : History} {w w' : World} {n : Nat} : Tells h w →
    run (.routine n) w = some ((), w') → Carried h (h ++ tell (.routine n) w) w'
  observer {h : History} {w w' : World} {o : Nat} : Tells h w →
    run (.observer o) w = some ((), w') → Carried h (h ++ tell (.observer o) w) w'
  /-- A flush that is at the place after the observers that have had their turn ends. -/
  flush {h : History} {w w' : World} {place : Nat} : Tells h w → h.executing = true →
    place = h.taken.length → run (.flush place) w = some ((), w') →
    Tells (h ++ tell (.flush place) w) w' ∧ (h ++ tell (.flush place) w).executing = false
  /-- Draining leaves no task in the queue. -/
  drain {h : History} {w w' : World} {count n : Nat} : Tells h w →
    run (.drain count) w = some (n, w') →
    Carried h (h ++ tell (.drain count) w) w' ∧ w'.signals.reactive.queue = []

variable {tell : Job → World → History} {run : Runner}

theorem Faithful.body (hf : Faithful tell run) {cs : Script} (hcs : areReactive cs = true)
    (ht : Tells h w) (hrun : Activity.body run cs w = some ((), w')) :
    Carried h (h ++ bodyDeeds tell run cs w) w' := by
  induction cs generalizing h w with
  | nil =>
    obtain rfl : w = w' := by simpa [Activity.body] using hrun
    rw [bodyDeeds, List.append_nil]
    exact ht.carried
  | cons c cs ih =>
    obtain ⟨hc, hcs⟩ := Bool.and_eq_true_iff.1 hcs
    obtain ⟨reply, w₁, hfirst, hrest⟩ := Activity.body_cons_eq_some_iff.1 hrun
    have hcarried := hf.command ht hc hfirst
    rw [bodyDeeds, hfirst, ← List.append_assoc]
    exact hcarried.trans (ih hcs (hcarried.tells.note reply) hrest)

/-! ### Commands on signals -/

theorem carried_create (ht : Tells h w) (name : String) (v : Value) (split : Bool) :
    Carried h (h ++ signalDeeds w.signals (.create name v split))
      { w with signals := w.signals.create name v split } := by
  cases split with
  | false =>
    refine ⟨ht.concat (d := .addSignal v) trivial rfl (ht.scripted.bind rfl rfl ?_ ?_), ?_, ?_⟩
    · simp [Signals.create, Reactive.addSignal]
    · simp [Signals.create, Reactive.addSignal]
    · simp [signalDeeds, executing]
    · simp [signalDeeds, taken]
  | true =>
    have hfirst := ht.deed (d := .addSignal v) trivial (by simp [executing]) (by simp [taken])
    have hdeeds : h ++ signalDeeds w.signals (.create name v true) =
        (h ++ [.addSignal v]) ++ [.addSignal v] := by simp [signalDeeds]
    rw [hdeeds]
    refine hfirst.trans ⟨hfirst.tells.concat trivial rfl
      (ht.scripted.bind rfl rfl ?_ ?_), ?_, ?_⟩
    · simp only [Signals.create, Reactive.addSignal, if_true, Array.size_push]
      omega
    · simp only [Signals.create, Reactive.addSignal, if_true, Array.size_push]
      omega
    · simp [executing]
    · simp [taken]

theorem carried_signals (ht : Tells h w) {c : SignalCommand}
    (hc : (Command.signal c).isReactive = true) {reply : Reply}
    (hrun : onSignals c w = some (reply, w')) :
    Carried h (h ++ signalDeeds w.signals c) w' := by
  obtain rfl : { w with signals := (w.signals.run c).2 } = w' :=
    (Prod.mk.inj (Option.some.inj hrun)).2
  cases c with
  | create name v split => exact carried_create ht name v split
  | read name mode half =>
    cases hg : w.signals.signal? name half with
    | error fault =>
      cases mode <;> simpa [Signals.run, signalDeeds, hg] using ht.carried
    | ok g =>
      cases mode with
      | untracked => simpa [Signals.run, signalDeeds, hg] using ht.carried
      | tracked =>
        have hlt : h.Allows (.track g) := by
          rw [Allows, ← ht.state_eq]
          exact ht.scripted.lt_of_signal? hg
        have hdeed := ht.deed hlt (by simp [executing]) (by simp [taken])
        simp only [Signals.run, signalDeeds, hg]
        exact hdeed
  | set name v half =>
    cases hg : w.signals.signal? name half with
    | error fault => simpa [Signals.run, signalDeeds, hg] using ht.carried
    | ok g =>
      have hdeed := ht.deed (d := .set g v) trivial (by simp [executing]) (by simp [taken])
      simp only [Signals.run, signalDeeds, hg]
      exact hdeed
  | update name arg half =>
    cases hg : w.signals.signal? name half with
    | error fault => simpa [Signals.run, signalDeeds, hg] using ht.carried
    | ok g =>
      have hdeed := ht.deed (d := .update g arg) trivial (by simp [executing]) (by simp [taken])
      simp only [Signals.run, signalDeeds, hg]
      exact hdeed
  | schedule name =>
    cases ho : w.signals.observer? name with
    | error fault => simpa [Signals.run, signalDeeds, ho] using ht.carried
    | ok o =>
      have hdeed := ht.deed (d := .schedule o) trivial (by simp [executing]) (by simp [taken])
      simp only [Signals.run, signalDeeds, ho]
      exact hdeed
  | subscriberCount name =>
    cases hg : w.signals.signal? name false <;>
      simpa [Signals.run, signalDeeds, hg] using ht.carried
  | pendingCount | currentObserver => simpa [Signals.run, signalDeeds] using ht.carried
  | pushObserver o | popObserver => cases hc

/-! ### Jobs -/

theorem observing_eq_some_iff {o : Option Nat} {action : Activity Unit} :
    observing o action w = some ((), w') ↔
      ∃ w₁, action (w.modifyReactive (·.push o)) = some ((), w₁) ∧
        w₁.modifyReactive (·.pop) = w' := by
  rw [observing, Activity.reactive_bind, Activity.bind_eq_some_iff]
  simp only [Activity.reactive_bind, Activity.pure_apply, Option.some.injEq, Prod.mk.injEq,
    true_and]
  exact ⟨fun ⟨_, h⟩ => h, fun h => ⟨(), h⟩⟩

theorem Faithful.carried_routine (hf : Faithful tell run) (ht : Tells h w) {n : Nat}
    (hrun : Run.routine run n w = some ((), w')) :
    Carried h (h ++ routineDeeds tell run w n) w' := by
  rw [Run.routine, Activity.get_bind] at hrun
  rw [routineDeeds]
  cases hn : w.routines[n]? with
  | none =>
    obtain rfl : w = w' := by simpa [hn] using hrun
    rw [List.append_nil]
    exact ht.carried
  | some routine =>
    obtain ⟨commands, rfl, hcs⟩ := ht.scripted.routine hn
    rw [hn] at hrun
    exact hf.body hcs ht hrun

theorem Faithful.carried_observer (hf : Faithful tell run) (ht : Tells h w) {o : Nat}
    (hrun : Run.observer run o w = some ((), w')) :
    Carried h (h ++ observerDeeds tell w o) w' := by
  rw [Run.observer, Activity.get_bind] at hrun
  rw [observerDeeds]
  cases hob : w.signals.reactive.observers[o]? with
  | none =>
    obtain rfl : w = w' := by simpa [hob] using hrun
    rw [List.append_nil]
    exact ht.carried
  | some ob =>
    simp only [hob] at hrun ⊢
    split_ifs at hrun ⊢ with heffect hrunning
    · obtain rfl : w = w' := by simpa using hrun
      rw [List.append_nil]
      exact ht.carried
    · rw [Activity.reactive_bind, Activity.bind_eq_some_iff] at hrun
      obtain ⟨_, w₂, hobserving, hfinish⟩ := hrun
      obtain ⟨w₁, hbody, rfl⟩ := observing_eq_some_iff.1 hobserving
      obtain rfl := (Prod.mk.inj (Option.some.inj hfinish)).2
      have hstart := ht.deed (d := .start o) trivial (by simp [executing]) (by simp [taken])
      have hpush := hstart.trans (hstart.tells.deed (d := .push (some o)) trivial
        (by simp [executing]) (by simp [taken]))
      have hinside := hpush.trans (hf.routine hpush.tells hbody)
      have hpop := hinside.trans (hinside.tells.deed (d := .pop) trivial
        (by simp [executing]) (by simp [taken]))
      have hend := hpop.trans (hpop.tells.deed (d := .finish o) trivial
        (by simp [executing]) (by simp [taken]))
      simp only [List.append_assoc, List.cons_append, List.nil_append] at hend ⊢
      exact hend
    · exact hf.routine ht hrun

theorem Faithful.carried_flush (hf : Faithful tell run) (ht : Tells h w)
    (he : h.executing = true) {place : Nat} (hplace : place = h.taken.length)
    (hrun : Run.flush run place w = some ((), w')) :
    Tells (h ++ flushDeeds tell run w place) w' ∧
      (h ++ flushDeeds tell run w place).executing = false := by
  rw [Run.flush, Activity.get_bind] at hrun
  rw [flushDeeds]
  cases ho : w.signals.reactive.pending[place]? with
  | none =>
    rw [ho] at hrun
    obtain rfl := (Prod.mk.inj (Option.some.inj hrun)).2
    have hend : h.state.pending.length ≤ h.taken.length := by
      rw [← ht.state_eq, ← hplace]
      exact List.getElem?_eq_none_iff.1 ho
    exact ⟨ht.concat ⟨he, hend⟩ rfl (ht.scripted.of_eq rfl rfl le_rfl), by simp [executing]⟩
  | some o =>
    rw [ho] at hrun
    obtain ⟨_, w₁, hobserver, hrest⟩ := Activity.bind_eq_some_iff.1 hrun
    have hturn : Tells (h ++ [.turn o]) w :=
      ht.concat ⟨he, by rw [← ht.state_eq, ← hplace, ho]⟩ rfl ht.scripted
    have hcarried := hf.observer hturn hobserver
    have hnext :=
      hf.flush hcarried.tells (hcarried.executing_eq.trans (by simpa [executing] using he))
      (by rw [hcarried.taken_eq, hplace]; simp [taken]) hrest
    simp only [hobserver]
    simpa [List.append_assoc] using hnext

theorem Faithful.carried_drain (hf : Faithful tell run) (ht : Tells h w) {count n : Nat}
    (hrun : Run.drain run count w = some (n, w')) :
    Carried h (h ++ drainDeeds tell run w count) w' ∧ w'.signals.reactive.queue = [] := by
  obtain ⟨task, w₁, hnext, hrun⟩ := Activity.bind_eq_some_iff.1 hrun
  rw [drainDeeds]
  rw [nextMicrotask] at hnext
  cases hq : w.signals.reactive.queue with
  | nil =>
    rw [hq] at hnext
    obtain ⟨rfl, rfl⟩ := Prod.mk.inj (Option.some.inj hnext)
    obtain ⟨-, rfl⟩ := Prod.mk.inj (Option.some.inj hrun)
    rw [List.append_nil]
    exact ⟨ht.carried, hq⟩
  | cons t queue =>
    rw [hq] at hnext
    obtain ⟨rfl, rfl⟩ := Prod.mk.inj (Option.some.inj hnext)
    have hallows : h.Allows (.take t) := ⟨queue, by rw [← ht.state_eq, hq]⟩
    have htake : Tells (h ++ [.take t]) (w.modifyReactive fun r => { r with queue := queue }) := by
      refine ht.concat hallows ?_ (ht.scripted.of_eq rfl rfl le_rfl)
      simp [World.modifyReactive, Signals.modify, Deed.perform, hq]
    cases t with
    | flush =>
      obtain ⟨_, w₂, hflush, hrest⟩ := Activity.bind_eq_some_iff.1 hrun
      have hidle := (ht.orderly.concat_take_flush hallows).1
      have htaken := ht.orderly.taken_of_idle hidle
      obtain ⟨hdone, hexec⟩ := hf.flush htake (by simp [executing])
        (by simp [taken] at htaken ⊢; simp [htaken]) hflush
      obtain ⟨hcarried, hempty⟩ := hf.drain hdone hrest
      have hback : Carried h (h ++ [.take .flush] ++ tell (.flush 0)
          (w.modifyReactive fun r => { r with queue := queue })) w₂ :=
        ⟨hdone, by rw [hexec, hidle], by rw [hdone.orderly.taken_of_idle hexec, htaken]⟩
      simp only [taskJob, hflush]
      exact ⟨by simpa [List.append_assoc] using hback.trans hcarried, hempty⟩
    | routine k =>
      obtain ⟨_, w₂, hroutine, hrest⟩ := Activity.bind_eq_some_iff.1 hrun
      have hfirst : Carried h (h ++ [.take (.routine k)]) _ :=
        ⟨htake, by simp [executing], by simp [taken]⟩
      have hsecond := hfirst.trans (hf.routine htake hroutine)
      obtain ⟨hcarried, hempty⟩ := hf.drain hsecond.tells hrest
      simp only [taskJob, hroutine]
      exact ⟨by simpa [List.append_assoc] using hsecond.trans hcarried, hempty⟩

/-! ### Commands -/

theorem carried_addObserver (ht : Tells h w) {commands : Script}
    (hcs : areReactive commands = true) {o : Nat}
    (hrun : addObserver true (.script commands) w = some (o, w')) :
    Carried h (h ++ [.addObserver ⟨true, w.routines.size⟩]) w' := by
  obtain rfl := (Prod.mk.inj (Option.some.inj hrun)).2
  exact ⟨ht.concat trivial rfl (ht.scripted.addRoutine hcs rfl rfl rfl), by simp [executing],
    by simp [taken]⟩

theorem Faithful.carried_effect (hf : Faithful tell run) (ht : Tells h w) {commands : Script}
    (hcs : areReactive commands = true) {as : Option String} {later : Bool} {reply : Reply}
    (hrun : Run.effect run commands as later w = some (reply, w')) :
    Carried h (h ++ commandDeeds tell run w (.effect commands as later)) w' := by
  obtain ⟨o, w₁, hadd, hrun⟩ := Activity.bind_eq_some_iff.1 hrun
  have hcarried := carried_addObserver ht hcs hadd
  rw [commandDeeds, List.append_cons]
  refine hcarried.trans ?_
  cases later with
  | true =>
    obtain rfl := (Prod.mk.inj (Option.some.inj hrun)).2
    rw [if_pos rfl, List.append_nil]
    exact ⟨hcarried.tells.of_eq rfl rfl rfl, rfl, rfl⟩
  | false =>
    obtain ⟨_, w₂, hfirst, hrun⟩ := Activity.bind_eq_some_iff.1 hrun
    obtain rfl := (Prod.mk.inj (Option.some.inj hrun)).2
    have hobserver := hf.observer hcarried.tells hfirst
    rw [if_neg (by simp), hadd]
    exact ⟨hobserver.tells.of_eq rfl rfl rfl, hobserver.executing_eq, hobserver.taken_eq⟩

theorem Faithful.carried_untrack (hf : Faithful tell run) (ht : Tells h w) {commands : Script}
    (hcs : areReactive commands = true) {reply : Reply}
    (hrun : silently (observing none (Activity.body run commands)) w = some (reply, w')) :
    Carried h (h ++ commandDeeds tell run w (.untrack commands)) w' := by
  obtain ⟨_, w₂, hobserving, hrun⟩ := Activity.bind_eq_some_iff.1 hrun
  obtain rfl := (Prod.mk.inj (Option.some.inj hrun)).2
  obtain ⟨w₁, hbody, rfl⟩ := observing_eq_some_iff.1 hobserving
  have hpush := ht.deed (d := .push none) trivial (by simp [executing]) (by simp [taken])
  have hinside := hpush.trans (hf.body hcs hpush.tells hbody)
  have hpop := hinside.trans (hinside.tells.deed (d := .pop) trivial
    (by simp [executing]) (by simp [taken]))
  rw [commandDeeds, List.cons_append, List.append_cons, ← List.append_assoc]
  exact hpop

theorem carried_microtask (ht : Tells h w) {commands : Script}
    (hcs : areReactive commands = true) {reply : Reply}
    (hrun : silently (queueScript commands) w = some (reply, w')) :
    Carried h (h ++ [.enqueue w.routines.size]) w' := by
  obtain rfl := (Prod.mk.inj (Option.some.inj hrun)).2
  exact ⟨ht.concat trivial rfl (ht.scripted.addRoutine hcs rfl rfl rfl), by simp [executing],
    by simp [taken]⟩

theorem Faithful.carried_command (hf : Faithful tell run) (ht : Tells h w) {c : Command}
    (hc : c.isReactive = true) {reply : Reply}
    (hrun : Run.command run c w = some (reply, w')) :
    Carried h (h ++ commandDeeds tell run w c) w' := by
  cases c with
  | signal c => exact carried_signals ht hc hrun
  | log message =>
    obtain rfl := (Prod.mk.inj (Option.some.inj hrun)).2
    simpa [commandDeeds] using ht.carried
  | effect commands as later => exact hf.carried_effect ht hc hrun
  | runEffect name =>
    rw [Run.command, Run.runEffect, Activity.get_bind] at hrun
    rw [commandDeeds]
    cases ho : w.signals.effects.get? name with
    | none =>
      rw [ho] at hrun
      obtain rfl := (Prod.mk.inj (Option.some.inj hrun)).2
      rw [List.append_nil]
      exact ht.carried
    | some o =>
      rw [ho] at hrun
      obtain ⟨_, w₁, hobserver, hrun⟩ := Activity.bind_eq_some_iff.1 hrun
      obtain rfl := (Prod.mk.inj (Option.some.inj hrun)).2
      exact hf.observer ht hobserver
  | untrack commands => exact hf.carried_untrack ht hc hrun
  | microtask commands => exact carried_microtask ht hc hrun
  | runMicrotasks =>
    obtain ⟨n, w₁, hdrain, hrun⟩ := Activity.bind_eq_some_iff.1 hrun
    obtain rfl := (Prod.mk.inj (Option.some.inj hrun)).2
    exact (hf.drain ht hdrain).1
  | _ => cases hc

/-- The chronicle of every depth is faithful. -/
theorem faithful (fuel : Nat) : Faithful (deeds fuel) (Run.run fuel) := by
  induction fuel with
  | zero =>
    refine ⟨fun _ _ hrun => ?_, fun _ hrun => ?_, fun _ hrun => ?_, fun _ _ _ hrun => ?_,
      fun _ hrun => ?_⟩
    all_goals cases hrun
  | succ fuel ih =>
    exact ⟨fun ht hc hrun => ih.carried_command ht hc hrun,
      fun ht hrun => ih.carried_routine ht hrun,
      fun ht hrun => ih.carried_observer ht hrun,
      fun ht he hplace hrun => ih.carried_flush ht he hplace hrun,
      fun ht hrun => ih.carried_drain ht hrun⟩

end Run

end LiveMarkup
