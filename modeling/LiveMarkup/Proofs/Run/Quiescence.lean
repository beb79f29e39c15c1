import LiveMarkup.Proofs.Run.Passing

/-!
# When nothing can move

Settling comes to an end only when nothing can move (`Run.stops_when_nothing_moves`): the queue is
empty, no task is about to join the line, and every task that has not finished has been polled since
it was last woken.  This is so in every world, whatever tasks and queued scripts do.  From inside of
a task settling does nothing, and a value that is waited for is there exactly if its source had it
by then.
-/

namespace LiveMarkup

/-- No queued task is to run, and no task is to be polled. -/
structure World.Quiescent (w : World) : Prop where
  queue_eq : w.signals.reactive.queue = []
  ready_eq : w.tasks.scheduler.pool.ready = []
  incoming_eq : w.tasks.scheduler.pool.incoming = []

namespace Run

open Activity Scheduler

variable {fuel : ℕ} {w v : World} {task : ℕ}

/-! ### Draining -/

theorem nextMicrotask_eq_none_iff :
    nextMicrotask w = some (none, v) ↔ w.signals.reactive.queue = [] ∧ v = w := by
  unfold nextMicrotask
  split
  · next hqueue => simp [hqueue, eq_comm]
  · next hqueue => simp [hqueue]

/-- Draining counts on from the number it is given. -/
theorem le_drain {count n : ℕ} (h : Run.run fuel (.drain count) w = some (n, v)) : count ≤ n := by
  induction fuel generalizing w count with
  | zero => cases h
  | succ fuel ih =>
    change drain (Run.run fuel) count w = some (n, v) at h
    obtain ⟨next, w₁, -, h⟩ := bind_eq_some_iff.1 h
    split at h
    · exact Nat.le_of_eq (Prod.mk.inj (Option.some.inj h)).1
    · obtain ⟨⟨⟩, w₂, -, h⟩ := bind_eq_some_iff.1 h
      exact Nat.le_of_succ_le (ih h)
    · obtain ⟨⟨⟩, w₂, -, h⟩ := bind_eq_some_iff.1 h
      exact Nat.le_of_succ_le (ih h)

/-- Nothing runs exactly if the queue is empty. -/
theorem drain_eq_zero (h : Run.run fuel (.drain 0) w = some (0, v)) :
    w.signals.reactive.queue = [] ∧ v = w := by
  cases fuel with
  | zero => cases h
  | succ fuel =>
    change drain (Run.run fuel) 0 w = some (0, v) at h
    obtain ⟨next, w₁, hnext, h⟩ := bind_eq_some_iff.1 h
    split at h
    · obtain ⟨-, rfl⟩ := Prod.mk.inj (Option.some.inj h)
      exact nextMicrotask_eq_none_iff.1 hnext
    · obtain ⟨⟨⟩, w₂, -, h⟩ := bind_eq_some_iff.1 h
      exact absurd (le_drain h) (Nat.not_succ_le_zero 0)
    · obtain ⟨⟨⟩, w₂, -, h⟩ := bind_eq_some_iff.1 h
      exact absurd (le_drain h) (Nat.not_succ_le_zero 0)

/-! ### Settling -/

/-- Polling goes on until no task stands in the line or is about to join it. -/
theorem turn_ends (h : Run.run fuel .turn w = some ((), v)) :
    v.tasks.scheduler.pool.ready = [] ∧ v.tasks.scheduler.pool.incoming = [] := by
  induction fuel generalizing w with
  | zero => cases h
  | succ fuel ih =>
    change turn (Run.run fuel) w = some ((), v) at h
    obtain ⟨⟨⟩, w₁, -, h⟩ := bind_eq_some_iff.1 h
    rw [get_bind] at h
    obtain ⟨⟨⟩, w₂, -, h⟩ := bind_eq_some_iff.1 h
    rw [get_bind] at h
    split_ifs at h with hdone
    · obtain ⟨-, rfl⟩ := Prod.mk.inj (Option.some.inj h)
      simpa [and_comm] using hdone
    · exact ih h

/-- Inside of a task nothing settles. -/
theorem settle_of_polling (hw : w.Polling) : Run.run (fuel + 1) .settle w = some (false, w) := by
  change settle (Run.run fuel) w = _
  rw [settle, get_bind]
  exact congrFun (if_pos hw) w

/-- Otherwise settling ends when nothing can move. -/
theorem settle_ends (hw : ¬ w.Polling) {settled : Bool}
    (h : Run.run fuel .settle w = some (settled, v)) : settled = true ∧ v.Quiescent := by
  induction fuel generalizing w with
  | zero => cases h
  | succ fuel ih =>
    change settle (Run.run fuel) w = some (settled, v) at h
    rw [settle, get_bind] at h
    replace h := (congrFun (if_neg hw) w).symm.trans h
    obtain ⟨⟨⟩, w₁, -, h⟩ := bind_eq_some_iff.1 h
    obtain ⟨⟨⟩, w₂, hturn, h⟩ := bind_eq_some_iff.1 h
    obtain ⟨⟨⟩, w₃, hunmark, h⟩ := bind_eq_some_iff.1 h
    obtain ⟨count, w₄, hdrain, hlast⟩ := bind_eq_some_iff.1 h
    obtain ⟨-, rfl⟩ := Prod.mk.inj (Option.some.inj hunmark)
    obtain ⟨hready, hincoming⟩ := turn_ends hturn
    split_ifs at hlast with hcount
    · subst hcount
      obtain ⟨hqueue, rfl⟩ := drain_eq_zero hdrain
      obtain ⟨rfl, rfl⟩ := Prod.mk.inj (Option.some.inj hlast)
      exact ⟨rfl, hqueue, hready, hincoming⟩
    · have hpolling := (passes_run fuel (.drain 0) _ trivial _ _ hdrain).polling_eq
      refine ih (fun hin => ?_) hlast
      exact Bool.false_ne_true (hpolling.symm.trans hin)

/-- Every task that has not finished has been polled since it was woken or spawned. -/
theorem polled_of_quiescent {s : Scheduler} {moves before after : List Move} (hv : v.Quiescent)
    (hs : s.Numbered) (hstory : Story s moves v.tasks.scheduler)
    (hactive : task ∈ v.tasks.scheduler.pool.active)
    (hmoves : moves = before ++ .wake task :: after ∨ moves = before ++ .spawn task :: after) :
    .poll task ∈ after := by
  by_contra hm
  have hready : task ∈ v.tasks.scheduler.pool.ready := by
    rcases hmoves with rfl | rfl
    · exact hstory.ready_of_woken hm hactive
    · exact hstory.ready_of_spawned hs hm hactive
  rw [hv.ready_eq] at hready
  exact List.not_mem_nil hready

/-! ### Waiting for a value -/

/-- Outside of tasks, a value that is waited for is there exactly if the new task has kept it, and
the task goes on waiting otherwise. -/
theorem blockOn_ends (hw : ¬ w.Polling) (hs : w.tasks.scheduler.Numbered) {source : Source}
    {outcome : Option String}
    (h : blockOn (Run.run fuel) source w = some (outcome, v)) :
    v.Quiescent ∧ ∃ moves,
      Story w.tasks.scheduler (.spawn w.tasks.scheduler.programs.size :: moves ++
        [.collect w.tasks.scheduler.programs.size]) v.tasks.scheduler ∧
      (∀ text, outcome = some text ↔ .conclude w.tasks.scheduler.programs.size text ∈ moves) ∧
      (outcome = none ↔ w.tasks.scheduler.programs.size ∈ v.tasks.scheduler.pool.active) ∧
      (outcome = none →
        ∃ rest, v.tasks.scheduler.program w.tasks.scheduler.programs.size = .keep rest) := by
  obtain ⟨settled, u, hsettle, rfl, rfl⟩ := blockOn_eq_some_iff.1 h
  have hspawn := Makes.spawn w.tasks.scheduler (.keep source)
  have hspawned : ¬ (w.setScheduler (w.tasks.scheduler.spawn (.keep source)).2).Polling := hw
  obtain ⟨-, hquiet⟩ := settle_ends hspawned hsettle
  obtain ⟨moves, hstory, htaken⟩ :=
    (passes_run fuel .settle _ trivial _ _ hsettle).story (hspawn.numbered hs)
  have hsize : (w.tasks.scheduler.spawn (.keep source)).2.programs.size =
      w.tasks.scheduler.programs.size + 1 := by simp [Scheduler.spawn]
  have hnot : .collect w.tasks.scheduler.programs.size ∉ moves := fun hin => by
    have hle := htaken _ hin
    change (w.tasks.scheduler.spawn (.keep source)).2.programs.size ≤ _ at hle
    omega
  refine ⟨⟨hquiet.queue_eq, hquiet.ready_eq, hquiet.incoming_eq⟩, moves,
    ((Story.single hspawn).append hstory).move (.collect _ _), ?_⟩
  rcases hstory.kept (hspawn.numbered hs) (.spawn hs source) hnot with
    ⟨hwaits, hnone⟩ | ⟨text, hhas, hiff⟩
  · have hactive : w.tasks.scheduler.programs.size ∈ u.tasks.scheduler.pool.active := by
      have hmem := hwaits.mem
      rwa [hquiet.incoming_eq, List.append_nil] at hmem
    refine ⟨fun text => ?_, ?_, fun _ => Program.isKeep_iff.1 hwaits.isKeep⟩
    · rw [hwaits.kept_eq]
      exact iff_of_false (Option.some_ne_none text).symm (hnone text)
    · exact iff_of_true hwaits.kept_eq hactive
  · refine ⟨fun other => ?_, ?_, fun hnone => ?_⟩
    · rw [hhas.kept_eq, hiff other, Option.some.injEq, eq_comm]
    · refine iff_of_false (by simp [hhas.kept_eq]) fun hactive => hhas.notMem ?_
      exact List.mem_append_left _ hactive
    · rw [hhas.kept_eq] at hnone
      cases hnone

/-! ### Sessions -/

/-- In every session, tasks have numbers of their own. -/
theorem numbered_performAll {watch : List String} {cs : List Command} {reports : List StepReport}
    (hw : w.tasks.scheduler.Numbered) (h : w.performAll fuel watch cs = some (reports, v)) :
    v.tasks.scheduler.Numbered := by
  induction cs generalizing w reports with
  | nil =>
    obtain ⟨-, rfl⟩ := Prod.mk.inj (Option.some.inj h)
    exact hw
  | cons c cs ih =>
    rw [World.performAll, World.perform] at h
    rcases hrun : Run.run fuel (.command c) { w with log := [] } with _ | ⟨reply, w₁⟩
    · simp [hrun] at h
    · have hnumbered : w₁.release.tasks.scheduler.Numbered :=
        (passes_run fuel (.command c) { w with log := [] } trivial _ _ hrun).numbered hw
      simp only [hrun] at h
      split at h
      · cases h
      · next hrest =>
        obtain ⟨-, rfl⟩ := Prod.mk.inj (Option.some.inj h)
        exact ih hnumbered hrest

/-- Settling that succeeds leaves nothing that can move, and every task that has not finished has
been polled since it was woken or spawned.  Inside of a task, whatever the task has done before,
settling is refused and changes nothing.  Outside, waiting for a source gives its value exactly if
the task that waits for it had the value when nothing could move any more, and leaves that task
waiting otherwise.  All this holds in every world in which tasks have numbers of their own; every
session leads to such worlds, and every job leaves them so. -/
theorem stops_when_nothing_moves (fuel : ℕ) :
    (∀ w v, Run.run fuel .settle w = some (true, v) → v.Quiescent ∧
      (w.tasks.scheduler.Numbered → ∃ moves, Story w.tasks.scheduler moves v.tasks.scheduler ∧
        ∀ task ∈ v.tasks.scheduler.pool.active, ∀ before after,
          moves = before ++ .wake task :: after ∨ moves = before ++ .spawn task :: after →
            .poll task ∈ after)) ∧
    (∀ w commands v, w.Polling → body (Run.run fuel) commands w = some ((), v) →
      v.Polling ∧ Run.run (fuel + 1) .settle v = some (false, v)) ∧
    (∀ w source outcome v, ¬ w.Polling → w.tasks.scheduler.Numbered →
      blockOn (Run.run fuel) source w = some (outcome, v) →
        let task := w.tasks.scheduler.programs.size
        v.Quiescent ∧ ∃ moves,
          Story w.tasks.scheduler (.spawn task :: moves ++ [.collect task]) v.tasks.scheduler ∧
          (∀ text, outcome = some text ↔ .conclude task text ∈ moves) ∧
          (outcome = none ↔ task ∈ v.tasks.scheduler.pool.active) ∧
          (outcome = none → ∃ rest, v.tasks.scheduler.program task = .keep rest)) ∧
    (∀ base watch cs reports w, (World.fresh base).performAll fuel watch cs = some (reports, w) →
      w.tasks.scheduler.Numbered) ∧
    ∀ (j : Job) w a v, j.Allowed w → Run.run fuel j w = some (a, v) → (v.Polling ↔ w.Polling) ∧
      (w.tasks.scheduler.Numbered → v.tasks.scheduler.Numbered) := by
  refine ⟨fun w v h => ?_, fun w commands v hw h => ?_, fun w source outcome v hw hs h => ?_,
    fun base watch cs reports w h => numbered_performAll numbered_empty h, fun j w a v hj h => ?_⟩
  · have hmoved := passes_run fuel .settle w trivial _ _ h
    have hquiet : v.Quiescent := by
      by_cases hw : w.Polling
      · cases fuel with
        | zero => cases h
        | succ fuel => cases (settle_of_polling hw).symm.trans h
      · exact (settle_ends hw h).2
    refine ⟨hquiet, fun hs => ?_⟩
    obtain ⟨moves, hstory, -⟩ := hmoved.story hs
    exact ⟨moves, hstory, fun task hactive before after hmoves =>
      polled_of_quiescent hquiet hs hstory hactive hmoves⟩
  · have hmoved : w.tasks.scheduler.Passes v.tasks.scheduler :=
      obeys_body (passes_run fuel).obeys commands _ _ h
    have hv : v.Polling := hmoved.polling_eq.trans hw
    exact ⟨hv, settle_of_polling hv⟩
  · exact blockOn_ends hw hs h
  · have hmoved := passes_run fuel j w hj a v h
    exact ⟨by rw [World.Polling, World.Polling, hmoved.polling_eq], hmoved.numbered⟩

/-- A world in which a task waits for a message that a queued script is to send. -/
def waking : World :=
  (((World.fresh "a").performAll 12 []
    [.task (.channel "c"), .spawn [.await (.channel "c") [("woken", [.runUntilStalled])]] false,
      .microtask [.send "c" "woken" (.text "woken")]]).map Prod.snd).getD (World.fresh "a")

/-- The same world while tasks are being polled. -/
def pollingWaking : World :=
  waking.setScheduler { waking.tasks.scheduler with
    pool := { waking.tasks.scheduler.pool with polling := true } }

theorem stops_when_nothing_moves_waking :
    (∃ v, Run.run 20 .settle waking = some (true, v) ∧ v.Quiescent) ∧
    (∃ v, body (Run.run 20) [.microtask []] pollingWaking = some ((), v) ∧
      Run.run 21 .settle v = some (false, v)) ∧
    (∃ v, blockOn (Run.run 20) (.ready "now") waking = some (some "now", v) ∧ v.Quiescent) ∧
    ∃ v, blockOn (Run.run 20) .never waking = some (none, v) ∧
      waking.tasks.scheduler.programs.size ∈ v.tasks.scheduler.pool.active := by
  obtain ⟨hsettle, hinside, hwait, -⟩ := stops_when_nothing_moves 20
  have hpolling : ¬ waking.Polling := by
    unfold World.Polling
    decide +kernel
  have hnumbered : waking.tasks.scheduler.Numbered :=
    ⟨by decide +kernel, by decide +kernel, by decide +kernel⟩
  refine ⟨?_, ?_, ?_, ?_⟩
  · have h : ((Run.run 20 .settle waking).map Prod.fst : Option Bool) = some true := by
      decide +kernel
    obtain ⟨⟨b, v⟩, hv, rfl⟩ := Option.map_eq_some_iff.1 h
    exact ⟨v, hv, (hsettle waking v hv).1⟩
  · have h : (body (Run.run 20) [.microtask []] pollingWaking).map Prod.fst = some () := by
      decide +kernel
    obtain ⟨⟨⟨⟩, v⟩, hv, -⟩ := Option.map_eq_some_iff.1 h
    exact ⟨v, hv, (hinside pollingWaking _ v rfl hv).2⟩
  · have h : (blockOn (Run.run 20) (.ready "now") waking).map Prod.fst = some (some "now") := by
      decide +kernel
    obtain ⟨⟨b, v⟩, hv, rfl⟩ := Option.map_eq_some_iff.1 h
    exact ⟨v, hv, (hwait waking _ _ v hpolling hnumbered hv).1⟩
  · have h : (blockOn (Run.run 20) .never waking).map Prod.fst = some none := by
      decide +kernel
    obtain ⟨⟨b, v⟩, hv, rfl⟩ := Option.map_eq_some_iff.1 h
    obtain ⟨-, moves, -, -, hnone, -⟩ := hwait waking _ _ v hpolling hnumbered hv
    exact ⟨v, hv, hnone.1 rfl⟩

end Run

end LiveMarkup
