import Mathlib.Tactic.SplitIfs
import Mathlib.Data.Nat.Notation
import LiveMarkup.Tasks.Scheduler

/-!
# Channels and machines after a change

What the operations of the scheduler do to each channel and each machine.  Waking a task touches
neither, so the other parts of the scheduler do not show up here.
-/

namespace LiveMarkup.Scheduler

variable (s : Scheduler) (c d m : ℕ)

/-! ### Changing one channel or one machine -/

@[simp] theorem size_channels_modifyChannel (change : Channel → Channel) :
    (s.modifyChannel c change).channels.size = s.channels.size := by
  simp [modifyChannel]

theorem channel_modifyChannel (change : Channel → Channel) :
    (s.modifyChannel c change).channel d =
      if d = c ∧ c < s.channels.size then change (s.channel c) else s.channel d := by
  by_cases hd : d = c
  · subst hd
    by_cases hs : d < s.channels.size <;> simp [channel, modifyChannel, hs, Array.getElem_modify]
  · simp [channel, modifyChannel, Array.getElem?_modify, hd, Ne.symm hd]

@[simp] theorem machine_modifyChannel (change : Channel → Channel) :
    (s.modifyChannel c change).machine m = s.machine m := rfl

@[simp] theorem size_machines_modifyMachine (change : Machine → Machine) :
    (s.modifyMachine m change).machines.size = s.machines.size := by
  simp [modifyMachine]

theorem machine_modifyMachine (n : ℕ) (change : Machine → Machine) :
    (s.modifyMachine m change).machine n =
      if n = m ∧ m < s.machines.size then change (s.machine m) else s.machine n := by
  by_cases hn : n = m
  · subst hn
    by_cases hs : n < s.machines.size <;> simp [machine, modifyMachine, hs, Array.getElem_modify]
  · simp [machine, modifyMachine, Array.getElem?_modify, hn, Ne.symm hn]

@[simp] theorem channels_modifyMachine (change : Machine → Machine) :
    (s.modifyMachine m change).channels = s.channels := rfl

@[simp] theorem channel_modifyMachine (change : Machine → Machine) :
    (s.modifyMachine m change).channel c = s.channel c := rfl

/-! ### What a change leaves alone -/

/-- The change concerns neither the machine `m` nor a channel outside of `P`, adds nothing, and
gives no machine a new sender. -/
structure Keeps (m : ℕ) (P : ℕ → Prop) (s s' : Scheduler) : Prop where
  channels_size : s'.channels.size = s.channels.size
  machines_size : s'.machines.size = s.machines.size
  machine_eq : s'.machine m = s.machine m
  channel_eq {c : ℕ} : ¬ P c → s'.channel c = s.channel c
  pending {n c : ℕ} : (s'.machine n).pending = some c → (s.machine n).pending = some c

namespace Keeps

variable {s} {m} {P : ℕ → Prop} {s' s'' : Scheduler} {c : ℕ}

theorem refl (s : Scheduler) (m : ℕ) (P : ℕ → Prop) : Keeps m P s s :=
  ⟨rfl, rfl, rfl, fun _ => rfl, id⟩

theorem trans (h : Keeps m P s s') (h' : Keeps m P s' s'') : Keeps m P s s'' :=
  ⟨h'.channels_size.trans h.channels_size, h'.machines_size.trans h.machines_size,
    h'.machine_eq.trans h.machine_eq, fun hc => (h'.channel_eq hc).trans (h.channel_eq hc),
    fun hn => h.pending (h'.pending hn)⟩

theorem mono {Q : ℕ → Prop} (h : Keeps m P s s') (hPQ : ∀ c, P c → Q c) : Keeps m Q s s' :=
  ⟨h.channels_size, h.machines_size, h.machine_eq, fun hc => h.channel_eq fun hp => hc (hPQ _ hp),
    h.pending⟩

theorem modifyChannel (hc : P c) (change : Channel → Channel) :
    Keeps m P s (s.modifyChannel c change) := by
  refine ⟨by simp, rfl, rfl, fun {d} hd => ?_, id⟩
  have hne : d ≠ c := fun e => hd (e ▸ hc)
  rw [channel_modifyChannel, if_neg fun e => hne e.1]

theorem wake (s : Scheduler) (task : ℕ) : Keeps m P s (s.wake task) := by
  unfold Scheduler.wake
  split_ifs
  · exact ⟨rfl, rfl, rfl, fun _ => rfl, id⟩
  · exact refl s m P

theorem wakeWaiting (hc : P c) : Keeps m P s (s.wakeWaiting c) := by
  unfold Scheduler.wakeWaiting
  cases (s.channel c).waiting with
  | none => exact refl s m P
  | some task => exact (modifyChannel hc _).trans (wake _ task)

theorem dropSender (hc : P c) : Keeps m P s (s.dropSender c) := by
  unfold Scheduler.dropSender
  split_ifs
  · exact refl s m P
  · exact (modifyChannel hc _).trans (wakeWaiting hc)

theorem dropReceiver (hc : P c) : Keeps m P s (s.dropReceiver c) := modifyChannel hc _

theorem send (hc : P c) (message : Message) : Keeps m P s (s.send c message).2 := by
  unfold Scheduler.send
  split_ifs
  · exact modifyChannel hc _
  · exact (modifyChannel hc _).trans (wakeWaiting hc)

theorem receive (hc : P c) (task : ℕ) : Keeps m P s (s.receive task c).2 := by
  unfold Scheduler.receive
  split
  · exact dropReceiver hc
  · exact dropReceiver hc
  · exact modifyChannel hc _

/-- Changing another machine, if it gets no new sender. -/
theorem modifyMachine {n : ℕ} (hn : n ≠ m) {change : Machine → Machine}
    (hchange : ∀ a c, (change a).pending = some c → a.pending = some c) :
    Keeps m P s (s.modifyMachine n change) := by
  refine ⟨rfl, by simp, ?_, fun _ => rfl, fun {k c} hk => ?_⟩
  · rw [machine_modifyMachine, if_neg fun e => hn e.1.symm]
  · rw [machine_modifyMachine] at hk
    split_ifs at hk with heq
    · exact heq.1 ▸ hchange _ _ hk
    · exact hk

theorem dropPending {n : ℕ} (hn : n ≠ m) (hpending : ∀ c, (s.machine n).pending = some c → P c) :
    Keeps m P s (s.dropPending n) := by
  unfold Scheduler.dropPending
  cases hp : (s.machine n).pending with
  | none => exact refl s m P
  | some c => exact (modifyMachine hn (by simp)).trans (dropSender (hpending c hp))

/-- Settling a state of another machine, whose sender may be dropped. -/
theorem settle {n : ℕ} (hn : n ≠ m) (hpending : ∀ c, (s.machine n).pending = some c → P c)
    (generation : ℕ) : Keeps m P s (s.settle n generation) := by
  unfold Scheduler.settle
  split_ifs
  · have hclear : Keeps m P s (s.modifyMachine n fun a => { a with armed := [] }) :=
      modifyMachine hn fun _ _ => id
    exact hclear.trans (dropPending hn fun c hc => hpending c (hclear.pending hc))
  · exact refl s m P

end Keeps

/-- All channels hold the same messages, and the same senders are gone. -/
def Quiet (s s' : Scheduler) : Prop :=
  ∀ c, (s'.channel c).message = (s.channel c).message ∧
    (s'.channel c).senderGone = (s.channel c).senderGone

namespace Quiet

variable {s} {s' s'' : Scheduler}

theorem refl (s : Scheduler) : Quiet s s := fun _ => ⟨rfl, rfl⟩

theorem trans (h : Quiet s s') (h' : Quiet s' s'') : Quiet s s'' := fun c =>
  ⟨(h' c).1.trans (h c).1, (h' c).2.trans (h c).2⟩

end Quiet

/-! ### The ends of a channel -/

variable {s} {c}

/-- Waking the task that waits for a channel changes no more of the channel than that it waits. -/
theorem channel_wakeWaiting (d : ℕ) :
    ((s.wakeWaiting c).channel d).message = (s.channel d).message ∧
      ((s.wakeWaiting c).channel d).senderGone = (s.channel d).senderGone := by
  unfold wakeWaiting
  cases (s.channel c).waiting with
  | none => exact ⟨rfl, rfl⟩
  | some task =>
    have hwake : ∀ t : Scheduler, (t.wake task).channel d = t.channel d := fun t => by
      unfold wake
      split_ifs <;> rfl
    simp only [hwake, channel_modifyChannel]
    split_ifs with hd
    · rw [hd.1]
      exact ⟨rfl, rfl⟩
    · exact ⟨rfl, rfl⟩

/-- A channel whose sender is dropped keeps its message. -/
theorem channel_dropSender (hc : c < s.channels.size) :
    ((s.dropSender c).channel c).message = (s.channel c).message ∧
      ((s.dropSender c).channel c).senderGone = true := by
  unfold dropSender
  split_ifs with h
  · exact ⟨rfl, h⟩
  · obtain ⟨hm, hs⟩ := channel_wakeWaiting (s := s.modifyChannel c fun ch =>
      { ch with senderGone := true }) (c := c) c
    rw [hm, hs, channel_modifyChannel, if_pos ⟨rfl, hc⟩]
    exact ⟨rfl, rfl⟩

/-- A message is sent if the receiver is there. -/
theorem send_eq_true (hc : c < s.channels.size) (hr : (s.channel c).receiverGone = false)
    (message : Message) :
    (s.send c message).1 = true ∧ ((s.send c message).2.channel c).message = some message := by
  unfold send
  rw [if_neg (by simp [hr])]
  refine ⟨rfl, ?_⟩
  rw [(channel_wakeWaiting c).1, channel_modifyChannel, if_pos ⟨rfl, hc⟩]

/-! ### Looking into a channel -/

/-- What a receiver gets is what the channel holds. -/
theorem receive_message {task : ℕ} {message : Message} {s' : Scheduler}
    (h : s.receive task c = (.message message, s')) :
    (s.channel c).message = some message ∧ s' = s.dropReceiver c := by
  unfold receive at h
  split at h
  · next hm =>
    obtain ⟨heq, rfl⟩ := Prod.mk.inj h
    exact ⟨hm.trans (congrArg some (Received.message.inj heq)), rfl⟩
  · cases (Prod.mk.inj h).1
  · cases (Prod.mk.inj h).1

theorem receive_canceled {task : ℕ} {s' : Scheduler} (h : s.receive task c = (.canceled, s')) :
    (s.channel c).message = none ∧ (s.channel c).senderGone = true ∧ Quiet s s' := by
  unfold receive at h
  split at h
  · cases (Prod.mk.inj h).1
  · next hm hs =>
    obtain ⟨-, rfl⟩ := Prod.mk.inj h
    refine ⟨hm, hs, fun d => ?_⟩
    rw [dropReceiver, channel_modifyChannel]
    split_ifs with hd
    · rw [hd.1]
      exact ⟨hm.symm, rfl⟩
    · exact ⟨rfl, rfl⟩
  · cases (Prod.mk.inj h).1

theorem receive_nothing {task : ℕ} {s' : Scheduler} (h : s.receive task c = (.nothing, s')) :
    (s.channel c).message = none ∧ (s.channel c).senderGone = false ∧ Quiet s s' := by
  unfold receive at h
  split at h
  · cases (Prod.mk.inj h).1
  · cases (Prod.mk.inj h).1
  · next hm hs =>
    obtain ⟨-, rfl⟩ := Prod.mk.inj h
    refine ⟨hm, hs, fun d => ?_⟩
    rw [channel_modifyChannel]
    split_ifs with hd
    · rw [hd.1]
      exact ⟨rfl, rfl⟩
    · exact ⟨rfl, rfl⟩

end LiveMarkup.Scheduler
