import Mathlib.Data.Nat.Notation
import Mathlib.Tactic.SplitIfs
import LiveMarkup.Tasks.Command

/-!
# What tasks do next

Channels, machines and the line of tasks come and go, but what a task does next is changed only by
`spawn` and `setProgram`.
-/

namespace LiveMarkup

namespace Scheduler

variable (s : Scheduler) (task c m : ℕ)

@[simp] theorem programs_modifyChannel (change : Channel → Channel) :
    (s.modifyChannel c change).programs = s.programs := rfl

@[simp] theorem programs_modifyMachine (change : Machine → Machine) :
    (s.modifyMachine m change).programs = s.programs := rfl

@[simp] theorem programs_addError (message : String) :
    (s.addError message).programs = s.programs := rfl

@[simp] theorem programs_finish : (s.finish task).programs = s.programs := rfl

@[simp] theorem programs_joinLine : s.joinLine.programs = s.programs := rfl

@[simp] theorem programs_wake : (s.wake task).programs = s.programs := by
  unfold wake
  split_ifs <;> rfl

theorem programs_next? {s s' : Scheduler} {task : ℕ} (h : s.next? = some (task, s')) :
    s'.programs = s.programs := by
  unfold next? at h
  split at h
  · cases h
  · obtain ⟨-, rfl⟩ := Prod.mk.inj (Option.some.inj h)
    rfl

/-! ### Channels -/

@[simp] theorem programs_wakeWaiting : (s.wakeWaiting c).programs = s.programs := by
  unfold wakeWaiting
  split <;> simp

@[simp] theorem programs_send (message : Message) : (s.send c message).2.programs = s.programs := by
  unfold send
  split_ifs <;> simp

@[simp] theorem programs_dropSender : (s.dropSender c).programs = s.programs := by
  unfold dropSender
  split_ifs <;> simp

@[simp] theorem programs_dropReceiver : (s.dropReceiver c).programs = s.programs := rfl

@[simp] theorem programs_receive : (s.receive task c).2.programs = s.programs := by
  unfold receive
  split <;> rfl

/-! ### Sources -/

mutual

@[simp] theorem programs_dropSource (source : Source) (s : Scheduler) :
    (s.dropSource source).programs = s.programs := by
  cases source with
  | channel c | fired c | ready text | never => rfl
  | state m generation racers => exact programs_dropSources racers s

@[simp] theorem programs_dropSources (sources : List Source) (s : Scheduler) :
    (s.dropSources sources).programs = s.programs := by
  cases sources with
  | nil => rfl
  | cons source sources =>
    exact (programs_dropSources sources _).trans (programs_dropSource source s)

end

@[simp] theorem programs_dropPending : (s.dropPending m).programs = s.programs := by
  unfold dropPending
  split <;> simp

@[simp] theorem programs_settle (generation : ℕ) :
    (s.settle m generation).programs = s.programs := by
  unfold settle
  split_ifs <;> simp

theorem programs_race {poll : Scheduler → Source → Polled × Scheduler}
    (hpoll : ∀ s source, (poll s source).2.programs = s.programs) (sources : List Source)
    (s : Scheduler) : (race poll s sources).2.programs = s.programs := by
  induction sources generalizing s with
  | nil => rfl
  | cons racer racers ih =>
    have hfirst := hpoll s racer
    unfold race
    split
    · next heq => rw [heq] at hfirst; exact hfirst
    · next heq => rw [heq] at hfirst; exact hfirst
    · next s' heq =>
      rw [heq] at hfirst
      exact (ih s').trans hfirst

theorem programs_pollTo (fuel : ℕ) (s : Scheduler) (source : Source) :
    (pollTo task fuel s source).2.programs = s.programs := by
  induction fuel generalizing s source with
  | zero => rfl
  | succ fuel ih =>
    cases source with
    | ready text => rfl
    | never => rfl
    | channel c =>
      have hreceive := programs_receive s task c
      rw [pollTo]
      split <;> next heq => rw [heq] at hreceive; exact hreceive
    | fired c =>
      have hreceive := programs_receive s task c
      rw [pollTo]
      split <;> next heq => rw [heq] at hreceive; exact hreceive
    | state m generation racers =>
      have hrace := programs_race ih racers s
      rw [pollTo]
      split
      · next heq => rw [heq] at hrace; exact hrace
      · next heq => rw [heq] at hrace; simpa using hrace
      · next i racers s' heq =>
        rw [heq] at hrace
        have hagain := programs_race ih (swapRemove racers i) s'
        split
        · next heq' => rw [heq'] at hagain; simpa using hagain.trans hrace
        · next heq' => rw [heq'] at hagain; exact hagain.trans hrace

@[simp] theorem programs_poll (source : Source) :
    (s.poll task source).2.programs = s.programs := programs_pollTo _ _ _ _

/-! ### Machines -/

@[simp] theorem programs_begin (names : List String) (extras : List Source) :
    (s.begin m names extras).2.programs = s.programs := by
  simp [begin, addChannel]

@[simp] theorem programs_fire (name text : String) :
    (s.fire m name text).2.programs = s.programs := by
  unfold fire
  split_ifs
  · split <;> simp
  · rfl

end Scheduler

namespace Tasks

variable (t : Tasks)

theorem programs_take (value : Awaitable) :
    (t.take value).2.scheduler.programs = t.scheduler.programs := by
  cases value with
  | future name | channel name =>
    rw [take]
    split <;> rfl
  | ready value | never => rfl

theorem programs_takeAll (values : List Awaitable) (t : Tasks) :
    (t.takeAll values).2.scheduler.programs = t.scheduler.programs := by
  induction values generalizing t with
  | nil => rfl
  | cons value values ih => exact (ih _).trans (t.programs_take value)

theorem programs_dropFuture (name : String) :
    (t.dropFuture name).2.scheduler.programs = t.scheduler.programs := by
  unfold dropFuture
  split
  · exact Scheduler.programs_dropSource _ _
  · rfl

theorem programs_dropChannel (name : String) :
    (t.dropChannel name).scheduler.programs = t.scheduler.programs := by
  unfold dropChannel
  dsimp only
  split <;> split <;> simp

theorem programs_begin (m : ℕ) (names : List String) (extras : List Awaitable) (as : String) :
    (t.begin m names extras as).scheduler.programs = t.scheduler.programs := by
  unfold begin
  refine (programs_dropFuture _ as).trans ?_
  have hbegin := Scheduler.programs_begin (t.takeAll extras).2.scheduler m names
    (t.takeAll extras).1
  exact hbegin.trans (programs_takeAll extras t)

/-- No command on channels and machines changes what tasks do next. -/
theorem programs_run (command : TaskCommand) :
    (t.run command).2.scheduler.programs = t.scheduler.programs := by
  cases command with
  | channel as => exact t.programs_dropChannel as
  | dropSender name =>
    rw [run, takeSender]
    split <;> next heq => obtain ⟨-, rfl⟩ := Prod.mk.inj heq; simp
  | machine as => rfl
  | state name names extras as =>
    rw [run]
    split
    · exact t.programs_begin _ names extras as
    · rfl
  | dropFuture name => exact t.programs_dropFuture name
  | fire name transition value =>
    rw [run]
    split
    · simp
    · rfl
  | armed name | isArmed name transition | describeMachine name =>
    rw [run]
    split <;> rfl
  | takeErrors => rfl

theorem programs_sendTo (name : String) (message : Message) :
    (t.send name message).2.scheduler.programs = t.scheduler.programs := by
  rw [send, takeSender]
  split <;> next heq => obtain ⟨-, rfl⟩ := Prod.mk.inj heq; simp

end Tasks

end LiveMarkup
