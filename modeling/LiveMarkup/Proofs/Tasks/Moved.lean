import LiveMarkup.Proofs.Tasks.Moves

/-!
# What operations on tasks come to

The operations on channels, sources and machines wake tasks and do nothing else to them
(`Scheduler.Stirs`).  So do the commands on channels and machines (`Tasks.stirs_run`).

More generally, tasks make moves that leave the mark of polling as it was and take no value of a
task that was there before (`Scheduler.Passes`).
-/

namespace LiveMarkup

namespace Scheduler

variable {s s' s'' : Scheduler} {m : Move}

/-- The scheduler makes moves, after which it is marked as before, and takes no values but those of
new tasks. -/
structure Passes (s s' : Scheduler) : Prop where
  polling_eq : s'.pool.polling = s.pool.polling
  story : s.Numbered →
    ∃ moves, Story s moves s' ∧ ∀ task, .collect task ∈ moves → s.programs.size ≤ task

namespace Passes

theorem refl (s : Scheduler) : Passes s s :=
  ⟨rfl, fun _ => ⟨[], .nil, fun _ h => absurd h List.not_mem_nil⟩⟩

theorem of_eq (h : s' = s) : Passes s s' := h ▸ refl s

theorem trans (h : Passes s s') (h' : Passes s' s'') : Passes s s'' := by
  refine ⟨h'.polling_eq.trans h.polling_eq, fun hs => ?_⟩
  obtain ⟨moves, hstory, htaken⟩ := h.story hs
  obtain ⟨moves', hstory', htaken'⟩ := h'.story (hstory.numbered hs)
  refine ⟨moves ++ moves', hstory.append hstory', fun task hin => ?_⟩
  rcases List.mem_append.1 hin with hin | hin
  · exact htaken task hin
  · exact Nat.le_trans hstory.programs.1 (htaken' task hin)

theorem of_makes (h : Makes m s s') (hpolling : s'.pool.polling = s.pool.polling)
    (hm : ∀ task, m ≠ .collect task) : Passes s s' :=
  ⟨hpolling, fun _ => ⟨[m], .single h, fun task hin =>
    absurd (List.mem_singleton.1 hin).symm (hm task)⟩⟩

/-- Whether tasks have numbers of their own matters to the moves only. -/
theorem of_numbered (h : s'.pool.polling = s.pool.polling) (hs : s.Numbered → Passes s s') :
    Passes s s' := ⟨h, fun hn => (hs hn).story hn⟩

theorem numbered (h : Passes s s') (hs : s.Numbered) : s'.Numbered := by
  obtain ⟨moves, hstory, -⟩ := h.story hs
  exact hstory.numbered hs

/-- What a task is for does not change. -/
theorem isKeep_iff (h : Passes s s') (hs : s.Numbered) {t : ℕ} (ht : t < s.programs.size) :
    (s'.program t).IsKeep ↔ (s.program t).IsKeep := by
  obtain ⟨moves, hstory, -⟩ := h.story hs
  exact hstory.programs.2 t ht

end Passes

/-- The scheduler wakes tasks, and does nothing else to them. -/
def Stirs (s s' : Scheduler) : Prop :=
  ∃ moves, Story s moves s' ∧ ∀ m ∈ moves, ∃ task, m = .wake task

namespace Stirs

theorem refl (s : Scheduler) : Stirs s s := ⟨[], .nil, List.forall_mem_nil _⟩

theorem trans (h : Stirs s s') (h' : Stirs s' s'') : Stirs s s'' := by
  obtain ⟨moves, hstory, hwakes⟩ := h
  obtain ⟨moves', hstory', hwakes'⟩ := h'
  exact ⟨moves ++ moves', hstory.append hstory', fun m hm =>
    (List.mem_append.1 hm).elim (hwakes m) (hwakes' m)⟩

theorem of_aside (h : Aside s s') : Stirs s s' := ⟨[], .aside .nil h, List.forall_mem_nil _⟩

/-- Tasks that are woken have joined the line before. -/
theorem pool_eq (h : Stirs s s') :
    s'.pool.active = s.pool.active ∧ s'.pool.polling = s.pool.polling := by
  obtain ⟨moves, hstory, hwakes⟩ := h
  induction hstory with
  | nil => exact ⟨rfl, rfl⟩
  | aside _ hstep ih =>
    rw [hstep.pool_eq]
    exact ih hwakes
  | move _ hstep ih =>
    obtain ⟨task, rfl⟩ := hwakes _ (List.mem_append_right _ (List.mem_singleton_self _))
    have hbefore := ih fun m hm => hwakes m (List.mem_append_left _ hm)
    cases hstep with
    | wake =>
      unfold Scheduler.wake
      split_ifs <;> exact hbefore

theorem passes (h : Stirs s s') : Passes s s' := by
  refine ⟨h.pool_eq.2, fun _ => ?_⟩
  obtain ⟨moves, hstory, hwakes⟩ := h
  refine ⟨moves, hstory, fun task hin => ?_⟩
  obtain ⟨t, ht⟩ := hwakes _ hin
  cases ht

end Stirs

/-! ### Changes that move no task -/

variable (s) (task c g : ℕ)

/-- What leaves the line, the programs and the values of tasks alone moves no task. -/
theorem stirs_of_eq (hpool : s'.pool = s.pool) (hkept : s'.kept = s.kept)
    (hprograms : s'.programs = s.programs) : Stirs s s' :=
  .of_aside ⟨hpool, hkept, by rw [hprograms], fun t => by rw [program, program, hprograms]⟩

theorem stirs_modifyChannel (change : Channel → Channel) : s.Stirs (s.modifyChannel c change) :=
  stirs_of_eq s rfl rfl rfl

theorem stirs_modifyMachine (change : Machine → Machine) : s.Stirs (s.modifyMachine g change) :=
  stirs_of_eq s rfl rfl rfl

theorem stirs_addChannel : s.Stirs s.addChannel.2 := stirs_of_eq s rfl rfl rfl

theorem stirs_addError (message : String) : s.Stirs (s.addError message) :=
  stirs_of_eq s rfl rfl rfl

/-- A task goes on as what it was. -/
theorem stirs_setProgram {p : Program} (hp : p.IsKeep ↔ (s.program task).IsKeep) :
    s.Stirs (s.setProgram task p) := by
  refine .of_aside ⟨rfl, rfl, by simp [setProgram], fun t => ?_⟩
  rw [program_setProgram]
  split_ifs with ht
  · rw [ht.1, hp]
  · rfl

/-! ### Spawning and waking -/

theorem passes_spawn (p : Program) : s.Passes (s.spawn p).2 := .of_makes (.spawn s p) rfl (by simp)

theorem passes_joinLine : s.Passes s.joinLine := .of_makes (.join s) rfl (by simp)

theorem stirs_wake : s.Stirs (s.wake task) :=
  ⟨[.wake task], .single (.wake s task), fun _ hm => ⟨task, List.mem_singleton.1 hm⟩⟩

theorem stirs_wakeWaiting : s.Stirs (s.wakeWaiting c) := by
  unfold wakeWaiting
  split
  · exact (stirs_modifyChannel s c _).trans (stirs_wake _ _)
  · exact .refl s

/-! ### Channels -/

theorem stirs_send (message : Message) : s.Stirs (s.send c message).2 := by
  unfold send
  split_ifs
  · exact stirs_modifyChannel s c _
  · exact (stirs_modifyChannel s c _).trans (stirs_wakeWaiting _ c)

theorem stirs_dropSender : s.Stirs (s.dropSender c) := by
  unfold dropSender
  split_ifs
  · exact .refl s
  · exact (stirs_modifyChannel s c _).trans (stirs_wakeWaiting _ c)

theorem stirs_dropReceiver : s.Stirs (s.dropReceiver c) := stirs_modifyChannel s c _

theorem stirs_receive : s.Stirs (s.receive task c).2 := by
  unfold receive
  split
  · exact stirs_dropReceiver s c
  · exact stirs_dropReceiver s c
  · exact stirs_modifyChannel s c _

/-! ### Sources -/

mutual

theorem stirs_dropSource (source : Source) (s : Scheduler) : s.Stirs (s.dropSource source) := by
  cases source with
  | channel c | fired c => exact stirs_dropReceiver s c
  | ready text | never => exact .refl s
  | state m generation racers => exact stirs_dropSources racers s

theorem stirs_dropSources (sources : List Source) (s : Scheduler) :
    s.Stirs (s.dropSources sources) := by
  cases sources with
  | nil => exact .refl s
  | cons source sources =>
    exact (stirs_dropSource source s).trans (stirs_dropSources sources _)

end

theorem stirs_dropPending : s.Stirs (s.dropPending g) := by
  unfold dropPending
  split
  · exact (stirs_modifyMachine s g _).trans (stirs_dropSender _ _)
  · exact .refl s

theorem stirs_settle (generation : ℕ) : s.Stirs (s.settle g generation) := by
  unfold settle
  split_ifs
  · exact (stirs_modifyMachine s g _).trans (stirs_dropPending _ g)
  · exact .refl s

theorem stirs_race {poll : Scheduler → Source → Polled × Scheduler}
    (hpoll : ∀ s source, Stirs s (poll s source).2) (sources : List Source) (s : Scheduler) :
    s.Stirs (race poll s sources).2 := by
  induction sources generalizing s with
  | nil => exact .refl s
  | cons racer racers ih =>
    have hfirst := hpoll s racer
    unfold race
    split
    · next heq => rw [heq] at hfirst; exact hfirst
    · next heq => rw [heq] at hfirst; exact hfirst
    · next s' heq =>
      rw [heq] at hfirst
      exact hfirst.trans (ih s')

theorem stirs_pollTo (fuel : ℕ) (s : Scheduler) (source : Source) :
    s.Stirs (pollTo task fuel s source).2 := by
  induction fuel generalizing s source with
  | zero => exact .refl s
  | succ fuel ih =>
    cases source with
    | ready text => exact .refl s
    | never => exact .refl s
    | channel c =>
      have hreceive := stirs_receive s task c
      rw [pollTo]
      split <;> next heq => rw [heq] at hreceive; exact hreceive
    | fired c =>
      have hreceive := stirs_receive s task c
      rw [pollTo]
      split <;> next heq => rw [heq] at hreceive; exact hreceive
    | state m generation racers =>
      have hwon (s : Scheduler) (racers : List Source) (i : ℕ) :
          s.Stirs ((s.dropSources (swapRemove racers i)).settle m generation) :=
        (stirs_dropSources _ s).trans (stirs_settle _ m generation)
      have hrace := stirs_race ih racers s
      rw [pollTo]
      split
      · next heq => rw [heq] at hrace; exact hrace
      · next heq => rw [heq] at hrace; exact hrace.trans (hwon _ _ _)
      · next i racers s' heq =>
        rw [heq] at hrace
        have hagain := hrace.trans (stirs_race ih (swapRemove racers i) s')
        split
        · next heq' => rw [heq'] at hagain; exact hagain.trans (hwon _ _ _)
        · next heq' => rw [heq'] at hagain; exact hagain

theorem stirs_poll (source : Source) : s.Stirs (s.poll task source).2 := stirs_pollTo _ _ _ _

/-! ### Machines -/

theorem stirs_begin (names : List String) (extras : List Source) :
    s.Stirs (s.begin g names extras).2 :=
  (stirs_addChannel s).trans ((stirs_modifyMachine _ g _).trans
    ((stirs_dropPending _ g).trans (stirs_modifyMachine _ g _)))

theorem stirs_fire (name text : String) : s.Stirs (s.fire g name text).2 := by
  unfold fire
  split_ifs
  · split
    · exact (stirs_modifyMachine s g _).trans (stirs_send _ _ _)
    · exact .refl s
  · exact .refl s

end Scheduler

/-! ### Commands on channels and machines -/

namespace Tasks

open Scheduler

variable (t : Tasks)

theorem stirs_take (value : Awaitable) : t.scheduler.Stirs (t.take value).2.scheduler := by
  cases value with
  | future name | channel name =>
    rw [take]
    split <;> exact .refl _
  | ready value | never => exact .refl _

theorem stirs_takeAll (values : List Awaitable) (t : Tasks) :
    t.scheduler.Stirs (t.takeAll values).2.scheduler := by
  induction values generalizing t with
  | nil => exact .refl _
  | cons value values ih => exact (t.stirs_take value).trans (ih _)

theorem stirs_dropFuture (name : String) : t.scheduler.Stirs (t.dropFuture name).2.scheduler := by
  unfold dropFuture
  split
  · exact stirs_dropSource _ _
  · exact .refl _

theorem stirs_dropChannel (name : String) : t.scheduler.Stirs (t.dropChannel name).scheduler := by
  unfold dropChannel
  dsimp only
  cases t.senders.get? name with
  | none =>
    cases t.receivers.get? name with
    | none => exact .refl _
    | some d => exact stirs_dropReceiver _ d
  | some c =>
    cases t.receivers.get? name with
    | none => exact stirs_dropSender _ c
    | some d => exact (stirs_dropSender _ c).trans (stirs_dropReceiver _ d)

theorem stirs_begin (m : ℕ) (names : List String) (extras : List Awaitable) (as : String) :
    t.scheduler.Stirs (t.begin m names extras as).scheduler := by
  unfold begin
  have hbegin := Scheduler.stirs_begin (t.takeAll extras).2.scheduler m names
    (t.takeAll extras).1
  refine (t.stirs_takeAll extras).trans (hbegin.trans ?_)
  exact stirs_dropFuture { (t.takeAll extras).2 with scheduler := _ } as

theorem stirs_send (name : String) (message : Message) :
    t.scheduler.Stirs (t.send name message).2.scheduler := by
  rw [send, takeSender]
  split <;> next heq =>
    obtain ⟨-, rfl⟩ := Prod.mk.inj heq
    first | exact Scheduler.stirs_send _ _ _ | exact .refl _

/-- No command on channels and machines does more than to wake tasks. -/
theorem stirs_run (command : TaskCommand) : t.scheduler.Stirs (t.run command).2.scheduler := by
  cases command with
  | channel as => exact (t.stirs_dropChannel as).trans (stirs_addChannel _)
  | dropSender name =>
    rw [run, takeSender]
    split <;> next heq =>
      obtain ⟨-, rfl⟩ := Prod.mk.inj heq
      first | exact stirs_dropSender _ _ | exact .refl _
  | machine as => exact stirs_of_eq _ rfl rfl rfl
  | state name names extras as =>
    rw [run]
    split
    · exact t.stirs_begin _ names extras as
    · exact .refl _
  | dropFuture name => exact t.stirs_dropFuture name
  | fire name transition value =>
    rw [run]
    split
    · exact stirs_fire _ _ _ _
    · exact .refl _
  | armed name | isArmed name transition | describeMachine name =>
    rw [run]
    split <;> exact .refl _
  | takeErrors => exact stirs_of_eq _ rfl rfl rfl

end Tasks

end LiveMarkup
