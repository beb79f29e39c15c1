import Mathlib.Tactic.Set
import LiveMarkup.Proofs.Tasks.Polling

/-!
# The states of one machine

What begins, fires and settles a state does to its machine and to the channels, and what a look at
the value of a state tells, by how far the state has come: its channel is open, its transition has
fired, its sender was dropped, or only its other sources are left.
-/

namespace LiveMarkup.Scheduler

open Source

variable {s s' : Scheduler} {m n c d g : ℕ}

/-! ### The machine and its sender -/

@[simp] theorem machine_dropSender (c n : ℕ) : (s.dropSender c).machine n = s.machine n :=
  (Keeps.dropSender (P := fun _ => True) trivial).machine_eq

theorem channel_dropSender_of_ne (h : d ≠ c) : (s.dropSender c).channel d = s.channel d :=
  (Keeps.dropSender (m := 0) (P := fun e => e = c) rfl).channel_eq h

@[simp] theorem size_channels_dropSender (c : ℕ) :
    (s.dropSender c).channels.size = s.channels.size :=
  (Keeps.dropSender (m := 0) (P := fun _ => True) trivial).channels_size

@[simp] theorem size_machines_dropSender (c : ℕ) :
    (s.dropSender c).machines.size = s.machines.size :=
  (Keeps.dropSender (m := 0) (P := fun _ => True) trivial).machines_size

/-- What a machine that drops its sender leaves behind. -/
structure Dropped (m : ℕ) (s s' : Scheduler) : Prop where
  channels_size : s'.channels.size = s.channels.size
  machines_size : s'.machines.size = s.machines.size
  machine_self : s'.machine m = { s.machine m with pending := none }
  machine_of_ne {n : ℕ} : n ≠ m → s'.machine n = s.machine n
  channel_of_ne {c : ℕ} : (s.machine m).pending ≠ some c → s'.channel c = s.channel c
  channel_pending {c : ℕ} : (s.machine m).pending = some c → c < s.channels.size →
    (s'.channel c).message = (s.channel c).message ∧ (s'.channel c).senderGone = true

theorem dropped_dropPending (hm : m < s.machines.size) : Dropped m s (s.dropPending m) := by
  unfold dropPending
  rcases hp : (s.machine m).pending with _ | c
  · have hself : s.machine m = { s.machine m with pending := none } := by rw [← hp]
    exact ⟨rfl, rfl, hself, fun _ => rfl, fun _ => rfl, fun hc _ => by simp [hp] at hc⟩
  · refine ⟨by simp, by simp, ?_, fun hn => ?_, fun hc => ?_, fun hc hlt => ?_⟩
    · rw [machine_dropSender, machine_modifyMachine, if_pos ⟨rfl, hm⟩]
    · rw [machine_dropSender, machine_modifyMachine, if_neg fun e => hn e.1]
    · rw [channel_dropSender_of_ne fun e => hc (hp.trans (congrArg some e.symm)),
        channel_modifyMachine]
    · obtain rfl : c = _ := Option.some.inj (hp.symm.trans hc)
      exact channel_dropSender hlt

/-- To settle the state that the machine is in disarms the machine and drops its sender. -/
theorem settle_eq (hg : (s.machine m).generation = g) :
    s.settle m g = (s.modifyMachine m fun a => { a with armed := [] }).dropPending m := by
  rw [settle, if_pos hg]

/-- To settle a state that another one has replaced changes nothing. -/
theorem settle_eq_self (hg : (s.machine m).generation ≠ g) : s.settle m g = s := by
  rw [settle, if_neg hg]

/-- What a machine leaves behind that begins a state. -/
structure Began (m : ℕ) (names : List String) (s s' : Scheduler) : Prop where
  channels_size : s'.channels.size = s.channels.size + 1
  machines_size : s'.machines.size = s.machines.size
  machine_self : s'.machine m =
    ⟨names.eraseDups, some s.channels.size, (s.machine m).generation + 1⟩
  machine_of_ne {n : ℕ} : n ≠ m → s'.machine n = s.machine n
  channel_new : s'.channel s.channels.size = ⟨none, false, false, none⟩
  channel_of_ne {c : ℕ} : c < s.channels.size → (s.machine m).pending ≠ some c →
    s'.channel c = s.channel c
  channel_pending {c : ℕ} : (s.machine m).pending = some c → c < s.channels.size →
    (s'.channel c).message = (s.channel c).message ∧ (s'.channel c).senderGone = true

theorem channel_addChannel_of_lt (hc : c < s.channels.size) :
    s.addChannel.2.channel c = s.channel c := by
  simp [addChannel, channel, Array.getElem?_push, Nat.ne_of_lt hc]

theorem channel_addChannel_self :
    s.addChannel.2.channel s.channels.size = ⟨none, false, false, none⟩ := by
  simp [addChannel, channel]

theorem began_begin (hm : m < s.machines.size)
    (hpending : ∀ c, (s.machine m).pending = some c → c < s.channels.size) (names : List String)
    (extras : List Source) : Began m names s (s.begin m names extras).2 := by
  have hadd : ∀ n, s.addChannel.2.machine n = s.machine n := fun _ => rfl
  set armed := s.addChannel.2.modifyMachine m fun a => { a with armed := names.eraseDups } with ha
  have hm' : m < armed.machines.size := by simpa [ha, addChannel] using hm
  have hself : armed.machine m = { s.machine m with armed := names.eraseDups } := by
    rw [ha, machine_modifyMachine, if_pos ⟨rfl, by simpa [addChannel] using hm⟩, hadd]
  have hne : ∀ n ≠ m, armed.machine n = s.machine n := fun n hn => by
    rw [ha, machine_modifyMachine, if_neg fun e => hn e.1, hadd]
  have hsize : armed.channels.size = s.channels.size + 1 := by
    simp [ha, addChannel, modifyMachine]
  have hchannel : ∀ c, armed.channel c = s.addChannel.2.channel c := fun _ => rfl
  have hpend : (armed.machine m).pending = (s.machine m).pending := by rw [hself]
  obtain ⟨hcs, hms, hmm, hmn, hcn, hcp⟩ := dropped_dropPending hm'
  have hbegin : (s.begin m names extras).2 = (armed.dropPending m).modifyMachine m fun a =>
      { a with pending := some s.channels.size, generation := (s.machine m).generation + 1 } := rfl
  rw [hbegin]
  refine ⟨by rw [← hsize, ← hcs]; rfl, ?_, ?_, fun {n} hn => ?_, ?_, fun {c} hc hpc => ?_,
    fun {c} hpc hc => ?_⟩
  · rw [size_machines_modifyMachine, hms]
    simp [ha, addChannel]
  · rw [machine_modifyMachine, if_pos ⟨rfl, hms ▸ hm'⟩, hmm, hself]
  · rw [machine_modifyMachine, if_neg fun e => hn e.1, hmn hn, hne n hn]
  · rw [channel_modifyMachine, hcn fun e => absurd (hpending _ (hpend ▸ e)) (Nat.lt_irrefl _),
      hchannel, channel_addChannel_self]
  · rw [channel_modifyMachine, hcn (hpend ▸ hpc), hchannel, channel_addChannel_of_lt hc]
  · obtain ⟨hmessage, hgone⟩ := hcp (hpend ▸ hpc) (by omega)
    rw [channel_modifyMachine, hmessage, hgone, hchannel, channel_addChannel_of_lt hc]
    exact ⟨rfl, rfl⟩

/-- The value of a new state. -/
theorem begin_fst (names : List String) (extras : List Source) :
    (s.begin m names extras).1 =
      .state m ((s.machine m).generation + 1) (.fired s.channels.size :: extras) := rfl

/-! ### Firing -/

theorem isArmed_iff {name : String} :
    s.isArmed m name = true ↔
      (∃ c, (s.machine m).pending = some c) ∧ name ∈ (s.machine m).armed := by
  simp [isArmed, Option.isSome_iff_exists]

/-- A transition that is not armed does nothing. -/
theorem fire_of_not_isArmed {name text : String} (h : ¬ s.isArmed m name = true) :
    s.fire m name text = (false, s) := by
  rw [fire, if_neg h]

/-- What a transition leaves behind that has fired. -/
structure Fired (m c : ℕ) (text : String) (s s' : Scheduler) : Prop where
  channels_size : s'.channels.size = s.channels.size
  machines_size : s'.machines.size = s.machines.size
  machine_self : s'.machine m = { s.machine m with pending := none }
  machine_of_ne {n : ℕ} : n ≠ m → s'.machine n = s.machine n
  channel_self : ∃ message, (s'.channel c).message = some message ∧ message.text = text
  channel_of_ne {d : ℕ} : d ≠ c → s'.channel d = s.channel d

/-- An armed transition fires if the receiver of its state is there. -/
theorem fire_of_isArmed {name text : String} (hm : m < s.machines.size)
    (h : s.isArmed m name = true) (hp : (s.machine m).pending = some c)
    (hc : c < s.channels.size) (hr : (s.channel c).receiverGone = false) :
    (s.fire m name text).1 = true ∧ Fired m c text s (s.fire m name text).2 := by
  set s₁ := s.modifyMachine m fun a => { a with pending := none } with hs₁
  have hfire : s.fire m name text = s₁.send c ⟨text, .text text⟩ := by
    rw [fire, if_pos h, hp]
  obtain ⟨hsent, hmessage⟩ := send_eq_true (s := s₁) hc hr ⟨text, .text text⟩
  have hkeeps : ∀ n, Keeps n (fun e => e = c) s₁ (s₁.send c ⟨text, .text text⟩).2 :=
    fun n => Keeps.send (P := fun e => e = c) rfl _
  rw [hfire]
  refine ⟨hsent, (hkeeps 0).channels_size, ?_, ?_, fun {n} hn => ?_, ⟨_, hmessage, rfl⟩,
    fun hd => (hkeeps 0).channel_eq hd⟩
  · rw [(hkeeps 0).machines_size, hs₁, size_machines_modifyMachine]
  · rw [(hkeeps m).machine_eq, hs₁, machine_modifyMachine, if_pos ⟨rfl, hm⟩]
  · rw [(hkeeps n).machine_eq, hs₁, machine_modifyMachine, if_neg fun e => hn e.1]

/-! ### Looking at the value of a state -/

/-- Without the first item, what remains was among the others. -/
theorem swapRemove_zero_subset (source : Source) (sources : List Source) :
    swapRemove (source :: sources) 0 ⊆ sources := by
  rcases List.eq_nil_or_concat sources with rfl | ⟨front, last, rfl⟩
  · simp [swapRemove]
  · have hremove : swapRemove (source :: (front ++ [last])) 0 = last :: front := by
      rw [← List.cons_append, swapRemove, List.getLast?_concat]
      simp only [List.cons_append, List.set_cons_zero]
      rw [← List.cons_append, List.dropLast_concat]
    rw [List.concat_eq_append, hremove]
    intro a ha
    rcases List.mem_cons.1 ha with rfl | ha
    · simp
    · simp [ha]

variable {P Q : ℕ → Prop} {racers rest extras mine : List Source} (task : ℕ)

/-- What a look at a state tells whose own receiver has no text: the value is one of the other
sources, and then the state is settled, or what is left of them stays behind. -/
def Looked (m g : ℕ) (P : ℕ → Prop) (s s' : Scheduler) (extras mine : List Source) :
    Polled → Prop
  | .value text => s.OffersAny extras text ∧ ∃ s₁, Keeps m P s s₁ ∧ s' = s₁.settle m g
  | .pending future => ∃ rest, future = .state m g (mine ++ rest) ∧ LeftAll rest extras ∧
      Keeps m P s s'
  | .canceled => False

/-- The end of a race that another source has won. -/
theorem looked_won {s₁ : Scheduler} {text : String} (hoffers : s.OffersAny extras text)
    (hkeeps : Keeps m P s s₁) (havoids : AvoidsAll m P racers) (i : ℕ) :
    Looked m g P s ((s₁.dropSources (swapRemove racers i)).settle m g) extras mine
      (.value text) :=
  ⟨hoffers, _, hkeeps.trans (keeps_dropSources _ _
    ((LeftAll.of_subset (swapRemove_subset racers i)).avoidsAll havoids)), rfl⟩

/-- A race of sources none of which is the receiver of a state ends only with a value. -/
theorem race_ne_canceled (hs : Others m P s) (havoids : AvoidsAll m P racers)
    (hfired : ∀ r ∈ racers, ¬ r.IsFired) (fuel i : ℕ) :
    (race (pollTo task fuel) s racers).1.1 ≠ some (i, none) := by
  intro h
  have hseen := (race_spec (pollTo_spec task fuel) racers s hs havoids).2.1
  rw [h] at hseen
  obtain ⟨⟨r, hr, hrf⟩, -⟩ := hseen
  exact hfired r hr hrf

/-- A look at a state of which only the other sources are left. -/
theorem looked_alone (hs : Others m P s) (havoids : AvoidsAll m P rest)
    (hfired : ∀ r ∈ rest, ¬ r.IsFired) :
    Looked m g P s (s.poll task (.state m g rest)).2 rest [] (s.poll task (.state m g rest)).1 := by
  have hne := race_ne_canceled task hs havoids hfired (depths rest + 1)
  obtain ⟨hkeeps, hseen, hleft⟩ :=
    race_spec (pollTo_spec task (depths rest + 1)) rest s hs havoids
  rw [poll, depth, pollTo]
  rcases hrace : race (pollTo task (depths rest + 1)) s rest with ⟨⟨_ | ⟨i, _ | text⟩, left⟩, s₁⟩
  · rw [hrace] at hkeeps hleft
    exact ⟨left, rfl, hleft, hkeeps⟩
  · rw [hrace] at hne
    exact absurd rfl (hne i)
  · rw [hrace] at hkeeps hseen hleft
    exact looked_won hseen hkeeps (hleft.avoidsAll havoids) i

/-- A look at a state that another one has replaced goes on with the other sources alone. -/
theorem looked_replaced (hs : Others m P s) (havoids : AvoidsAll m P rest)
    (hfired : ∀ r ∈ rest, ¬ r.IsFired) (hPQ : ∀ d, P d → Q d) (hc : Q c)
    (hmessage : (s.channel c).message = none) (hgone : (s.channel c).senderGone = true) :
    Looked m g Q s (s.poll task (.state m g (.fired c :: rest))).2 rest []
      (s.poll task (.state m g (.fired c :: rest))).1 := by
  set fuel := depths (.fired c :: rest) + 1 with hfuel
  have hreceive : s.receive task c = (.canceled, s.dropReceiver c) := by
    rw [receive, hmessage, hgone]
  have hfirst : race (pollTo task fuel) s (.fired c :: rest) =
      ((some (0, none), .fired c :: rest), s.dropReceiver c) := by
    rw [race, hfuel, pollTo, hreceive]
  have hquiet : Quiet s (s.dropReceiver c) := (receive_canceled hreceive).2.2
  have hdrop : Keeps m Q s (s.dropReceiver c) := .dropReceiver hc
  have hs₁ : Others m Q s := fun n hn c hc => hPQ c (hs n hn c hc)
  set others := swapRemove (.fired c :: rest) 0
  have hothers : LeftAll others rest := .of_subset (swapRemove_zero_subset _ rest)
  have havoids' : AvoidsAll m Q others := hothers.avoidsAll (havoids.mono hPQ)
  have hne := race_ne_canceled task (hs₁.keeps hdrop) havoids'
    (hothers.not_isFired hfired) fuel
  obtain ⟨hkeeps, hseen, hleft⟩ :=
    race_spec (pollTo_spec task fuel) others _ (hs₁.keeps hdrop) havoids'
  rw [poll, depth, pollTo, hfirst]
  simp only
  rcases hrace : race (pollTo task fuel) (s.dropReceiver c) others with
    ⟨⟨_ | ⟨i, _ | text⟩, left⟩, s₁⟩
  · rw [hrace] at hkeeps hleft
    exact ⟨left, rfl, hleft.trans hothers, hdrop.trans hkeeps⟩
  · rw [hrace] at hne
    exact absurd rfl (hne i)
  · rw [hrace] at hkeeps hseen hleft
    exact looked_won (hothers.offersAny (hquiet.offersAny hseen)) (hdrop.trans hkeeps)
      (hleft.avoidsAll havoids') i

/-- A look at a state whose channel is open leaves the channel open as long as no value has come. -/
theorem looked_open (hs : Others m P s) (havoids : AvoidsAll m P rest)
    (hfired : ∀ r ∈ rest, ¬ r.IsFired) (hPQ : ∀ d, P d → Q d) (hc : Q c) (hPc : ¬ P c)
    (hlt : c < s.channels.size)
    (hmessage : (s.channel c).message = none) (hgone : (s.channel c).senderGone = false) :
    Looked m g Q s (s.poll task (.state m g (.fired c :: rest))).2 rest [.fired c]
        (s.poll task (.state m g (.fired c :: rest))).1 ∧
      ∀ future, (s.poll task (.state m g (.fired c :: rest))).1 = .pending future →
        (s.poll task (.state m g (.fired c :: rest))).2.channel c =
          { s.channel c with waiting := some task } := by
  set fuel := depths (.fired c :: rest) + 1 with hfuel
  set s₁ := s.modifyChannel c fun ch => { ch with waiting := some task } with hs₁
  have hreceive : s.receive task c = (.nothing, s₁) := by rw [receive, hmessage, hgone]
  have hquiet : Quiet s s₁ := (receive_nothing hreceive).2.2
  have hwait : ∀ R : ℕ → Prop, R c → Keeps m R s s₁ := fun R hR => .modifyChannel hR _
  have hothers : Others m P s₁ := fun n hn d hd => hs n hn d ((hwait Q hc).pending hd)
  have hne := race_ne_canceled task hothers havoids hfired fuel
  obtain ⟨hkeeps, hseen, hleft⟩ := race_spec (pollTo_spec task fuel) rest s₁ hothers havoids
  have hrace : race (pollTo task fuel) s (.fired c :: rest) =
      (((race (pollTo task fuel) s₁ rest).1.1.map fun won => (won.1 + 1, won.2),
        .fired c :: (race (pollTo task fuel) s₁ rest).1.2),
        (race (pollTo task fuel) s₁ rest).2) := by
    rw [race, hfuel, pollTo, hreceive]
  rw [poll, depth, pollTo, hrace]
  rcases hrest : race (pollTo task fuel) s₁ rest with ⟨⟨_ | ⟨i, _ | text⟩, left⟩, s₂⟩
  · rw [hrest] at hkeeps hleft
    refine ⟨⟨left, rfl, hleft, (hwait Q hc).trans (hkeeps.mono hPQ)⟩, fun _ _ => ?_⟩
    rw [Option.map_none]
    exact (hkeeps.channel_eq hPc).trans (by rw [hs₁, channel_modifyChannel, if_pos ⟨rfl, hlt⟩])
  · rw [hrest] at hne
    exact absurd rfl (hne i)
  · rw [hrest] at hkeeps hseen hleft
    have hall : AvoidsAll m Q (.fired c :: left) := ⟨hc, (hleft.avoidsAll havoids).mono hPQ⟩
    refine ⟨looked_won (hquiet.offersAny hseen) ((hwait Q hc).trans (hkeeps.mono hPQ)) hall (i + 1),
      fun _ h => ?_⟩
    cases h

/-- A look at a state whose transition has fired yields the text that was fired, and settles the
state, whatever the other sources offer. -/
theorem poll_fired {message : Message} (havoids : AvoidsAll m Q rest) (hc : Q c)
    (hmessage : (s.channel c).message = some message) :
    (s.poll task (.state m g (.fired c :: rest))).1 = .value message.text ∧
      ∃ s₁, Keeps m Q s s₁ ∧
        (s.poll task (.state m g (.fired c :: rest))).2 = s₁.settle m g := by
  have hreceive : s.receive task c = (.message message, s.dropReceiver c) := by
    rw [receive, hmessage]
  have hrace : race (pollTo task (depths (.fired c :: rest) + 1)) s (.fired c :: rest) =
      ((some (0, some message.text), .fired c :: rest), s.dropReceiver c) := by
    rw [race, pollTo, hreceive]
  have hothers : LeftAll (swapRemove (.fired c :: rest) 0) rest :=
    .of_subset (swapRemove_zero_subset _ rest)
  have hdrop : Keeps m Q s (s.dropReceiver c) := .dropReceiver hc
  rw [poll, depth, pollTo, hrace]
  exact ⟨rfl, _, hdrop.trans (keeps_dropSources _ _ (hothers.avoidsAll havoids)), rfl⟩

end LiveMarkup.Scheduler
