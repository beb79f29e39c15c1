import LiveMarkup.Proofs.Run.Activities
import LiveMarkup.Proofs.Tasks.Ledger
import LiveMarkup.Run.Events

/-!
# Histories of a machine

`Play.safe_performAll` says what holds at every point of every history of a machine: which
transitions can fire, which texts the value of a call can have, and what its completion does to the
machine.
-/

namespace LiveMarkup

open Scheduler Source

namespace Play

variable {m k j : ℕ} {p : Play} {s : Scheduler} {call other : Call}

/-- What a look at the value of a call that leads to `s` tells: a value is the text that was fired
or the value of one of the other sources, and the state is settled; otherwise nothing was fired. -/
def Polls (m : ℕ) (p : Play) (k : ℕ) (call : Call) (s : Scheduler) : Polled → Prop
  | .value text =>
    (call.fired = [text] ∨ call.fired = [] ∧ p.scheduler.OffersAny call.extras text) ∧
      ∃ s₁, Keeps m (fun c => p.Foreign c ∨ c = call.channel) p.scheduler s₁ ∧
        s = s₁.settle m (k + 1)
  | .pending future => call.fired = [] ∧
      Keeps m (fun c => p.Foreign c ∨ c = call.channel) p.scheduler s ∧
      Standing m s k (k + 1 = p.calls.length) { call with future := future }
  | .canceled => False

/-- What a completed value leaves behind: the machine is disarmed if its call was the last one, and
left as it is otherwise. -/
structure Settled (m : ℕ) (p : Play) (k : ℕ) (call : Call) (s : Scheduler) : Prop where
  channels_size : s.channels.size = p.scheduler.channels.size
  machines_size : s.machines.size = p.scheduler.machines.size
  machine_last : k + 1 = p.calls.length →
    s.machine m = { p.scheduler.machine m with armed := [], pending := none }
  machine_eq : k + 1 ≠ p.calls.length → s.machine m = p.scheduler.machine m
  others : Others m p.Foreign s
  channel_eq {c : ℕ} : c ∈ p.calls.map Call.channel → c ≠ call.channel →
    s.channel c = p.scheduler.channel c

namespace Consistent

/-! ### Firing -/

/-- The last call that is open has its channel open. -/
theorem open_channel (h : Consistent m p) (hk : p.calls[k]? = some call)
    (hlast : k + 1 = p.calls.length) (hopen : call.Open) :
    ∃ rest, call.future = .state m (k + 1) (.fired call.channel :: rest) ∧
      LeftAll rest call.extras ∧ (p.scheduler.channel call.channel).receiverGone = false := by
  cases (h.entry k call hk).standing hopen.2 with
  | armed rest _ _ future left _ _ receiver => exact ⟨rest, future, left, receiver⟩
  | fired rest _ fired => exact absurd (hopen.1.symm.trans fired) (by simp)
  | replaced _ last => exact absurd hlast last
  | alone _ last => exact absurd hlast last

theorem getLast?_eq_some_iff :
    p.calls.getLast? = some call ↔ ∃ k, p.calls[k]? = some call ∧ k + 1 = p.calls.length := by
  rw [List.getLast?_eq_getElem?]
  constructor
  · intro h
    have hlt := (List.getElem?_eq_some_iff.1 h).1
    exact ⟨_, h, by omega⟩
  · rintro ⟨k, hk, hlast⟩
    rwa [show p.calls.length - 1 = k by omega]

/-- A transition is armed if the last call is open and has its name. -/
theorem isArmed_iff (h : Consistent m p) (name : String) :
    p.scheduler.isArmed m name = true ↔
      ∃ call, p.calls.getLast? = some call ∧ name ∈ call.names ∧ call.Open := by
  rw [Scheduler.isArmed_iff]
  constructor
  · rintro ⟨⟨c, hpending⟩, hname⟩
    rcases List.eq_nil_or_concat p.calls with hnil | ⟨front, call, hcalls⟩
    · rw [h.pending_nil hnil] at hpending
      cases hpending
    · have hcall : p.calls.getLast? = some call := by
        rw [hcalls, List.concat_eq_append, List.getLast?_concat]
      obtain ⟨k, hk, hlast⟩ := getLast?_eq_some_iff.1 hcall
      by_cases hopen : call.Open
      · rw [((h.entry k call hk).armed hlast hopen).2] at hname
        exact ⟨call, hcall, List.mem_eraseDups.1 hname, hopen⟩
      · rw [(h.entry k call hk).settled hlast hopen] at hpending
        cases hpending
  · rintro ⟨call, hcall, hname, hopen⟩
    obtain ⟨k, hk, hlast⟩ := getLast?_eq_some_iff.1 hcall
    obtain ⟨hpending, harmed⟩ := (h.entry k call hk).armed hlast hopen
    exact ⟨⟨_, hpending⟩, harmed ▸ List.mem_eraseDups.2 hname⟩

/-- What a transition that is armed does: it fires for the last call. -/
theorem fired (h : Consistent m p) {name : String} (harmed : p.scheduler.isArmed m name = true)
    (text : String) : ∃ k call, p.calls[k]? = some call ∧ k + 1 = p.calls.length ∧ call.Open ∧
      (p.scheduler.fire m name text).1 = true ∧
      Fired m call.channel text p.scheduler (p.scheduler.fire m name text).2 := by
  obtain ⟨call, hcall, -, hopen⟩ := (h.isArmed_iff name).1 harmed
  obtain ⟨k, hk, hlast⟩ := getLast?_eq_some_iff.1 hcall
  obtain ⟨-, -, -, hreceiver⟩ := h.open_channel hk hlast hopen
  exact ⟨k, call, hk, hlast, hopen, fire_of_isArmed h.machine_lt harmed
    ((h.entry k call hk).armed hlast hopen).1 (h.entry k call hk).channel_lt hreceiver⟩

/-- A transition fires exactly if the last call is open and has its name. -/
theorem fire_iff (h : Consistent m p) (name text : String) :
    (p.scheduler.fire m name text).1 = true ↔
      ∃ call, p.calls.getLast? = some call ∧ name ∈ call.names ∧ call.Open := by
  rw [← h.isArmed_iff]
  constructor
  · intro hfire
    by_contra harmed
    rw [fire_of_not_isArmed harmed] at hfire
    cases hfire
  · intro harmed
    obtain ⟨_, _, -, -, -, hfire, -⟩ := h.fired harmed text
    exact hfire

theorem perform_fire (h : Consistent m p) (name text : String) :
    Consistent m (p.perform m (.fire name text)) := by
  by_cases harmed : p.scheduler.isArmed m name = true
  · obtain ⟨k, call, hk, hlast, hopen, hfire, hfired⟩ := h.fired harmed text
    have hentry := h.entry k call hk
    rcases hs : p.scheduler.fire m name text with ⟨sent, s⟩
    rw [hs] at hfire hfired
    obtain rfl : sent = true := hfire
    rw [perform, hs]
    simp only
    rw [show p.calls.length - 1 = k by omega]
    refine h.modify hk (fun _ => rfl) hfired.channels_size hfired.machines_size
      (by rw [hfired.machine_self]) (fun hne => absurd hlast hne) ?_
      (fun c _ hc => hfired.channel_of_ne hc) fun hforeign => ?_
    · exact fun n hn c hc => h.others n hn c (hfired.machine_of_ne hn ▸ hc)
    · obtain ⟨rest, hfuture, hleft, -⟩ := h.open_channel hk hlast hopen
      obtain ⟨message, hmessage, htext⟩ := hfired.channel_self
      have htexts : call.fired ++ [text] = [text] := by rw [hopen.1, List.nil_append]
      refine ⟨hfired.channels_size ▸ hentry.channel_lt, fun source hsource =>
        ⟨(hentry.extras source hsource).1.mono hforeign, (hentry.extras source hsource).2⟩,
        fun _ => ?_, fun _ hopen' => ?_, fun _ _ => ?_, ?_, fun _ houtcome => ?_⟩
      · exact .fired rest message (by rw [htexts, htext]) hfuture hleft hmessage
      · exact absurd (htexts.symm.trans hopen'.1) (by simp)
      · rw [scheduler_amend, hfired.machine_self]
      · simp [htexts]
      · exact absurd (hopen.2.symm.trans houtcome) (by simp)
  · rw [perform, fire_of_not_isArmed harmed]
    exact h

/-! ### Looking at a value -/

theorem polls (h : Consistent m p) (hk : p.calls[k]? = some call) (hnone : call.outcome = none)
    (task : ℕ) : Polls m p k call (p.scheduler.poll task call.future).2
      (p.scheduler.poll task call.future).1 := by
  have hentry := h.entry k call hk
  have hmine : ¬ p.Foreign call.channel := fun hf => hf.2 (channel_mem hk)
  have hfired : ∀ source ∈ call.extras, ¬ source.IsFired := fun source hs =>
    (hentry.extras source hs).2
  have havoids : AvoidsAll m p.Foreign call.extras :=
    avoidsAll_iff.2 fun source hs => (hentry.extras source hs).1
  set Q := fun c => p.Foreign c ∨ c = call.channel with hQ
  have hPQ : ∀ c, p.Foreign c → Q c := fun _ => Or.inl
  have hown : Q call.channel := Or.inr rfl
  cases hentry.standing hnone with
  | armed rest last hnothing future left message sender receiver =>
    obtain ⟨hlooked, hchannel⟩ := looked_open (m := m) (g := k + 1) task h.others
      (left.avoidsAll havoids) (left.not_isFired hfired) hPQ hown hmine hentry.channel_lt message
      sender
    rw [future]
    rcases hpoll : p.scheduler.poll task (.state m (k + 1) (.fired call.channel :: rest)) with
      ⟨text | _ | next, s⟩
    · rw [hpoll] at hlooked
      exact ⟨Or.inr ⟨hnothing, left.offersAny hlooked.1⟩, hlooked.2⟩
    · rw [hpoll] at hlooked
      exact hlooked
    · rw [hpoll] at hlooked hchannel
      obtain ⟨rest', rfl, hleft, hkeeps⟩ := hlooked
      have hch := hchannel _ rfl
      exact ⟨hnothing, hkeeps, .armed rest' last hnothing rfl (hleft.trans left)
        (by rw [hch]; exact message) (by rw [hch]; exact sender) (by rw [hch]; exact receiver)⟩
  | fired rest message htext future left hmessage =>
    obtain ⟨hvalue, hsettled⟩ := poll_fired (m := m) (g := k + 1) task
      ((left.avoidsAll havoids).mono hPQ) hown hmessage
    rw [future, hvalue]
    exact ⟨Or.inl htext, hsettled⟩
  | replaced rest last hnothing future left message sender =>
    have hlooked := looked_replaced (m := m) (g := k + 1) task h.others
      (left.avoidsAll havoids) (left.not_isFired hfired) hPQ hown message sender
    rw [future]
    rcases hpoll : p.scheduler.poll task (.state m (k + 1) (.fired call.channel :: rest)) with
      ⟨text | _ | next, s⟩
    · rw [hpoll] at hlooked
      exact ⟨Or.inr ⟨hnothing, left.offersAny hlooked.1⟩, hlooked.2⟩
    · rw [hpoll] at hlooked
      exact hlooked
    · rw [hpoll] at hlooked
      obtain ⟨rest', rfl, hleft, hkeeps⟩ := hlooked
      exact ⟨hnothing, hkeeps, .alone rest' last hnothing rfl (hleft.trans left)⟩
  | alone rest last hnothing future left =>
    have hlooked := looked_alone (m := m) (g := k + 1) task h.others
      (left.avoidsAll havoids) (left.not_isFired hfired)
    rw [future]
    rcases hpoll : p.scheduler.poll task (.state m (k + 1) rest) with ⟨text | _ | next, s⟩
    · rw [hpoll] at hlooked
      obtain ⟨hoffers, s₁, hkeeps, hs₁⟩ := hlooked
      exact ⟨Or.inr ⟨hnothing, left.offersAny hoffers⟩, s₁, hkeeps.mono hPQ, hs₁⟩
    · rw [hpoll] at hlooked
      exact hlooked
    · rw [hpoll] at hlooked
      obtain ⟨rest', rfl, hleft, hkeeps⟩ := hlooked
      exact ⟨hnothing, hkeeps.mono hPQ, .alone rest' last hnothing rfl (hleft.trans left)⟩

theorem settled (h : Consistent m p) (hk : p.calls[k]? = some call) {s₁ : Scheduler}
    (hkeeps : Keeps m (fun c => p.Foreign c ∨ c = call.channel) p.scheduler s₁) :
    Settled m p k call (s₁.settle m (k + 1)) := by
  have hothers : Others m p.Foreign s₁ := h.others.keeps hkeeps
  have hchannel : ∀ c ∈ p.calls.map Call.channel, c ≠ call.channel →
      s₁.channel c = p.scheduler.channel c := fun c hc hne =>
    hkeeps.channel_eq fun hQ => hQ.elim (fun hf => hf.2 hc) hne
  by_cases hlast : k + 1 = p.calls.length
  · have hgeneration : (s₁.machine m).generation = k + 1 := by
      rw [hkeeps.machine_eq, h.generation, hlast]
    set s₂ := s₁.modifyMachine m fun a => { a with armed := [] } with hs₂
    have hlt : m < s₁.machines.size := hkeeps.machines_size ▸ h.machine_lt
    have hmachine : s₂.machine m = { p.scheduler.machine m with armed := [] } := by
      rw [hs₂, machine_modifyMachine, if_pos ⟨rfl, hlt⟩, hkeeps.machine_eq]
    have hdropped : Dropped m s₂ (s₂.dropPending m) :=
      dropped_dropPending (by rwa [hs₂, size_machines_modifyMachine])
    rw [settle_eq hgeneration, ← hs₂]
    refine ⟨hdropped.channels_size.trans hkeeps.channels_size, ?_, fun _ => ?_,
      fun hne => absurd hlast hne, fun n hn c hc => ?_, fun {c} hc hne => ?_⟩
    · rw [hdropped.machines_size, hs₂, size_machines_modifyMachine, hkeeps.machines_size]
    · rw [hdropped.machine_self, hmachine]
    · rw [hdropped.machine_of_ne hn, hs₂, machine_modifyMachine, if_neg fun e => hn e.1] at hc
      exact hothers n hn c hc
    -- The sender that is dropped is that of the call itself.
    · have hpending : (s₂.machine m).pending ≠ some c := fun hp => by
        rw [hmachine] at hp
        by_cases hopen : call.Open
        · rw [((h.entry k call hk).armed hlast hopen).1] at hp
          exact hne (Option.some.inj hp).symm
        · rw [(h.entry k call hk).settled hlast hopen] at hp
          cases hp
      rw [hdropped.channel_of_ne hpending, hs₂, channel_modifyMachine, hchannel c hc hne]
  · have hgeneration : (s₁.machine m).generation ≠ k + 1 := by
      rw [hkeeps.machine_eq, h.generation]
      exact Ne.symm hlast
    rw [settle_eq_self hgeneration]
    exact ⟨hkeeps.channels_size, hkeeps.machines_size, fun e => absurd e hlast,
      fun _ => hkeeps.machine_eq, hothers, fun hc hne => hchannel _ hc hne⟩

theorem perform_poll (h : Consistent m p) (task k : ℕ) :
    Consistent m (p.perform m (.poll task k)) := by
  rw [perform]
  rcases hk : p.calls[k]? with _ | call
  · exact h
  simp only
  by_cases hsome : call.outcome.isSome = true
  · rw [if_pos hsome]
    exact h
  rw [if_neg hsome]
  have hnone : call.outcome = none := by simpa using hsome
  have hentry := h.entry k call hk
  have hpolls := h.polls hk hnone task
  rcases hpoll : p.scheduler.poll task call.future with ⟨text | _ | next, s⟩
  · rw [hpoll] at hpolls
    obtain ⟨htext, s₁, hkeeps, rfl⟩ := hpolls
    have hs := h.settled hk hkeeps
    refine h.modify hk (fun _ => rfl) hs.channels_size hs.machines_size ?_ hs.machine_eq hs.others
      (fun c => hs.channel_eq) fun hforeign => ?_
    · by_cases hlast : k + 1 = p.calls.length
      · rw [hs.machine_last hlast]
      · rw [hs.machine_eq hlast]
    · refine ⟨hs.channels_size ▸ hentry.channel_lt, fun source hsource =>
        ⟨(hentry.extras source hsource).1.mono hforeign, (hentry.extras source hsource).2⟩,
        fun h => absurd h (by simp), fun _ hopen => absurd hopen.2 (by simp), fun hlast _ => ?_,
        hentry.fired_once, fun {text' outcome} hfired houtcome => ?_⟩
      · rw [length_calls_amend] at hlast
        rw [scheduler_amend, hs.machine_last hlast]
      · obtain rfl : text = outcome := Option.some.inj houtcome
        rcases htext with htext | ⟨hempty, -⟩
        · simpa using htext.symm.trans hfired
        · exact absurd (hempty.symm.trans hfired) (by simp)
  · rw [hpoll] at hpolls
    exact hpolls.elim
  · rw [hpoll] at hpolls
    obtain ⟨hnothing, hkeeps, hstanding⟩ := hpolls
    refine h.modify hk (fun _ => rfl) hkeeps.channels_size hkeeps.machines_size
      (by rw [hkeeps.machine_eq]) (fun _ => hkeeps.machine_eq) (h.others.keeps hkeeps)
      (fun c hc hne => hkeeps.channel_eq fun hQ => hQ.elim (fun hf => hf.2 hc) hne)
      fun hforeign => ?_
    refine ⟨hkeeps.channels_size ▸ hentry.channel_lt, fun source hsource =>
      ⟨(hentry.extras source hsource).1.mono hforeign, (hentry.extras source hsource).2⟩,
      fun _ => ?_, fun hlast hopen => ?_, fun hlast hopen => ?_, hentry.fired_once,
      hentry.outcome_eq⟩
    · rw [length_calls_amend]
      exact hstanding
    · rw [length_calls_amend] at hlast
      rw [scheduler_amend, hkeeps.machine_eq]
      exact hentry.armed hlast hopen
    · rw [length_calls_amend] at hlast
      rw [scheduler_amend, hkeeps.machine_eq]
      exact hentry.settled hlast hopen

/-! ### Beginning a state, and what happens elsewhere -/

theorem pending_lt (h : Consistent m p) {c : ℕ}
    (hc : (p.scheduler.machine m).pending = some c) : c < p.scheduler.channels.size := by
  rcases List.eq_nil_or_concat p.calls with hnil | ⟨front, call, hcalls⟩
  · rw [h.pending_nil hnil] at hc
    cases hc
  · have hcall : p.calls.getLast? = some call := by
      rw [hcalls, List.concat_eq_append, List.getLast?_concat]
    obtain ⟨k, hk, hlast⟩ := getLast?_eq_some_iff.1 hcall
    by_cases hopen : call.Open
    · rw [((h.entry k call hk).armed hlast hopen).1] at hc
      exact Option.some.inj hc ▸ (h.entry k call hk).channel_lt
    · rw [(h.entry k call hk).settled hlast hopen] at hc
      cases hc

/-- The call before is replaced by a new one, if it was open. -/
theorem standing_begin (h : Consistent m p) (hk : p.calls[k]? = some call)
    (hnone : call.outcome = none) {names : List String} {s : Scheduler}
    (hs : Began m names p.scheduler s) :
    Standing m s k (k + 1 = p.calls.length + 1) call := by
  have hentry := h.entry k call hk
  have hlast : ¬ k + 1 = p.calls.length + 1 := by
    have := (List.getElem?_eq_some_iff.1 hk).1
    omega
  have hmessage : (s.channel call.channel).message =
      (p.scheduler.channel call.channel).message := by
    by_cases hp : (p.scheduler.machine m).pending = some call.channel
    · exact (hs.channel_pending hp hentry.channel_lt).1
    · rw [hs.channel_of_ne hentry.channel_lt hp]
  cases hentry.standing hnone with
  | armed rest last fired future left message =>
    have hp := (hentry.armed last ⟨fired, hnone⟩).1
    exact .replaced rest hlast fired future left (hmessage.trans message)
      (hs.channel_pending hp hentry.channel_lt).2
  | fired rest message fired future left hm =>
    exact .fired rest message fired future left (hmessage.trans hm)
  | replaced rest _ fired future left message sender =>
    refine .replaced rest hlast fired future left (hmessage.trans message) ?_
    by_cases hp : (p.scheduler.machine m).pending = some call.channel
    · exact (hs.channel_pending hp hentry.channel_lt).2
    · rw [hs.channel_of_ne hentry.channel_lt hp, sender]
  | alone rest _ fired future left => exact .alone rest hlast fired future left

theorem perform_state (h : Consistent m p) {names : List String} {extras : List Source}
    (hextras : p.Allows m (.state names extras)) :
    Consistent m (p.perform m (.state names extras)) := by
  have hs : Began m names p.scheduler (p.scheduler.begin m names extras).2 :=
    began_begin h.machine_lt (fun c => h.pending_lt) names extras
  set s := (p.scheduler.begin m names extras).2 with hsdef
  set call : Call := ⟨names, extras, p.scheduler.channels.size,
    (p.scheduler.begin m names extras).1, [], none⟩ with hcall
  have hperform : p.perform m (.state names extras) = ⟨s, p.calls ++ [call]⟩ := rfl
  have hforeign : ∀ c, p.Foreign c → (⟨s, p.calls ++ [call]⟩ : Play).Foreign c := by
    refine fun c hc => ⟨?_, fun hmem => ?_⟩
    · exact hs.channels_size ▸ Nat.lt_succ_of_lt hc.1
    · rw [List.map_append, List.mem_append] at hmem
      rcases hmem with hmem | hmem
      · exact hc.2 hmem
      · obtain rfl : c = call.channel := by simpa using hmem
        exact absurd hc.1 (Nat.lt_irrefl _)
  have hold : ∀ c ∈ p.calls.map Call.channel, c < p.scheduler.channels.size := by
    intro c hc
    obtain ⟨other, hother, rfl⟩ := List.mem_map.1 hc
    obtain ⟨k, hk⟩ := List.mem_iff_getElem?.1 hother
    exact (h.entry k other hk).channel_lt
  rw [hperform]
  refine ⟨hs.machines_size ▸ h.machine_lt, ?_, fun hnil => absurd hnil (by simp), ?_,
    fun n hn c hc => hforeign c (h.others n hn c (hs.machine_of_ne hn ▸ hc)),
    fun k other hk => ?_⟩
  · rw [hs.machine_self, h.generation, List.length_append, List.length_singleton]
  · rw [List.map_append, List.nodup_append]
    refine ⟨h.nodup, by simp, fun a ha b hb => ?_⟩
    obtain rfl : b = p.scheduler.channels.size := by simpa using hb
    exact Nat.ne_of_lt (hold a ha)
  · rcases Nat.lt_or_ge k p.calls.length with hlt | hge
    · rw [List.getElem?_append_left hlt] at hk
      have hentry := h.entry k other hk
      refine ⟨hs.channels_size ▸ Nat.lt_succ_of_lt hentry.channel_lt, fun source hsource =>
        ⟨(hentry.extras source hsource).1.mono hforeign, (hentry.extras source hsource).2⟩,
        fun hnone => ?_, fun hlast => ?_, fun hlast => ?_, hentry.fired_once, hentry.outcome_eq⟩
      · rw [List.length_append, List.length_singleton]
        exact h.standing_begin hk hnone hs
      all_goals
        rw [List.length_append, List.length_singleton] at hlast
        omega
    · rw [List.getElem?_append_right hge, List.getElem?_singleton] at hk
      split_ifs at hk with hzero
      obtain rfl : call = other := Option.some.inj hk
      obtain rfl : k = p.calls.length := by omega
      refine ⟨?_, fun source hsource =>
        ⟨(hextras source hsource).1.mono hforeign, (hextras source hsource).2⟩,
        fun _ => ?_, fun _ _ => ?_, fun _ hopen => absurd ⟨rfl, rfl⟩ hopen, by simp [hcall],
        fun h => absurd h (by simp [hcall])⟩
      · exact hs.channels_size ▸ Nat.lt_succ_self _
      · refine .armed extras (by simp) rfl ?_ (.refl _) ?_ ?_ ?_
        · rw [hcall, begin_fst, h.generation]
        all_goals
          rw [hcall, hs.channel_new]
      · rw [hs.machine_self]
        exact ⟨rfl, rfl⟩

theorem perform_elsewhere (h : Consistent m p) (hs : p.Elsewhere m s) :
    Consistent m (p.perform m (.elsewhere s)) := by
  have hforeign : ∀ c, p.Foreign c → ({ p with scheduler := s } : Play).Foreign c :=
    fun c hc => ⟨Nat.lt_of_lt_of_le hc.1 hs.channels_le, hc.2⟩
  refine ⟨Nat.lt_of_lt_of_le h.machine_lt hs.machines_le, ?_, fun hnil => ?_, h.nodup, hs.others,
    fun k call hk => ?_⟩
  · rw [perform, hs.machine_eq, h.generation]
  · rw [perform, hs.machine_eq, h.pending_nil hnil]
  · exact (h.entry k call hk).keep hs.channels_le hforeign rfl (hs.channel_eq (channel_mem hk))
      fun _ => hs.machine_eq

/-- Every deed that is allowed keeps the machine, the channels and the ledger consistent. -/
theorem perform (h : Consistent m p) : ∀ {deed : Deed}, p.Allows m deed →
    Consistent m (p.perform m deed)
  | .state _ _, hdeed => h.perform_state hdeed
  | .fire name text, _ => h.perform_fire name text
  | .poll task k, _ => h.perform_poll task k
  | .elsewhere _, hdeed => h.perform_elsewhere hdeed

theorem performAll (h : Consistent m p) {deeds : List Deed} (hdeeds : p.Admissible m deeds) :
    Consistent m (p.performAll m deeds) := by
  induction deeds generalizing p with
  | nil => exact h
  | cons deed deeds ih => exact ih (h.perform hdeeds.1) hdeeds.2

/-- A machine that has just been added is in no state. -/
theorem of_addMachine {s : Scheduler}
    (hs : ∀ n c, (s.machine n).pending = some c → c < s.channels.size) :
    Consistent s.machines.size ⟨s.addMachine.2, []⟩ := by
  have hself : s.addMachine.2.machine s.machines.size = ⟨[], none, 0⟩ := by
    simp [addMachine, machine]
  have hne : ∀ n ≠ s.machines.size, s.addMachine.2.machine n = s.machine n := fun n hn => by
    simp [addMachine, machine, Array.getElem?_push, hn]
  refine ⟨by simp [addMachine], ?_, fun _ => ?_, List.nodup_nil, fun n hn c hc => ?_,
    fun k call hk => ?_⟩
  · rw [hself, List.length_nil]
  · rw [hself]
  · exact ⟨hs n c (hne n hn ▸ hc), List.not_mem_nil⟩
  · cases hk

end Consistent

/-! ### What can happen elsewhere -/

theorem elsewhere_of_keeps (h : Others m p.Foreign p.scheduler)
    (hkeeps : Keeps m p.Foreign p.scheduler s) : p.Elsewhere m s where
  channels_le := Nat.le_of_eq hkeeps.channels_size.symm
  machines_le := Nat.le_of_eq hkeeps.machines_size.symm
  machine_eq := hkeeps.machine_eq
  channel_eq hc := hkeeps.channel_eq fun hf => hf.2 hc
  others n hn c hc :=
    have hf := h.keeps hkeeps n hn c hc
    ⟨hkeeps.channels_size ▸ hf.1, hf.2⟩

/-- A new channel is a foreign one. -/
theorem elsewhere_addChannel (h : Consistent m p) : p.Elsewhere m p.scheduler.addChannel.2 where
  channels_le := by simp [addChannel]
  machines_le := Nat.le_refl _
  machine_eq := rfl
  channel_eq hc := by
    obtain ⟨call, hcall, rfl⟩ := List.mem_map.1 hc
    obtain ⟨k, hk⟩ := List.mem_iff_getElem?.1 hcall
    exact channel_addChannel_of_lt (h.entry k call hk).channel_lt
  others n hn c hc :=
    have hf := h.others n hn c hc
    ⟨by simpa [addChannel] using Nat.lt_succ_of_lt hf.1, hf.2⟩

/-- A state of another machine has a foreign channel. -/
theorem elsewhere_begin (h : Consistent m p) {n : ℕ} (hne : n ≠ m)
    (hn : n < p.scheduler.machines.size) (names : List String) (extras : List Source) :
    p.Elsewhere m (p.scheduler.begin n names extras).2 := by
  have hbegan := began_begin hn (fun c hc => (h.others n hne c hc).1) names extras
  have hlt : ∀ c ∈ p.calls.map Call.channel, c < p.scheduler.channels.size := by
    intro c hc
    obtain ⟨call, hcall, rfl⟩ := List.mem_map.1 hc
    obtain ⟨k, hk⟩ := List.mem_iff_getElem?.1 hcall
    exact (h.entry k call hk).channel_lt
  refine ⟨?_, Nat.le_of_eq hbegan.machines_size.symm, hbegan.machine_of_ne (Ne.symm hne),
    fun {c} hc => ?_, fun a ha c hc => ?_⟩
  · rw [hbegan.channels_size]
    exact Nat.le_succ _
  · exact hbegan.channel_of_ne (hlt c hc) fun hp => (h.others n hne c hp).2 hc
  · have hle : p.scheduler.channels.size ≤ (p.scheduler.begin n names extras).2.channels.size :=
      hbegan.channels_size ▸ Nat.le_succ _
    by_cases han : a = n
    · rw [han, hbegan.machine_self] at hc
      obtain rfl : p.scheduler.channels.size = c := Option.some.inj hc
      exact ⟨hbegan.channels_size ▸ Nat.lt_succ_self _, fun hmem => Nat.lt_irrefl _ (hlt _ hmem)⟩
    · rw [hbegan.machine_of_ne han] at hc
      exact ⟨Nat.lt_of_lt_of_le (h.others a ha c hc).1 hle, (h.others a ha c hc).2⟩

/-- A transition of another machine is fired into a foreign channel. -/
theorem elsewhere_fire (h : Others m p.Foreign p.scheduler) {n : ℕ} (hne : n ≠ m)
    (name text : String) : p.Elsewhere m (p.scheduler.fire n name text).2 := by
  refine elsewhere_of_keeps h ?_
  unfold fire
  split_ifs
  · rcases hp : (p.scheduler.machine n).pending with _ | c
    · exact .refl _ m _
    · exact (Keeps.modifyMachine hne (by simp)).trans (.send (h n hne c hp) _)
  · exact .refl _ m _

/-! ### One history after another -/

theorem performAll_append (deeds deeds' : List Deed) (p : Play) :
    p.performAll m (deeds ++ deeds') = (p.performAll m deeds).performAll m deeds' := by
  induction deeds generalizing p with
  | nil => rfl
  | cons deed deeds ih => exact ih _

theorem admissible_append {deeds deeds' : List Deed} :
    p.Admissible m (deeds ++ deeds') ↔
      p.Admissible m deeds ∧ (p.performAll m deeds).Admissible m deeds' := by
  induction deeds generalizing p with
  | nil => exact (and_iff_right trivial).symm
  | cons deed deeds ih =>
    rw [List.cons_append, Admissible, Admissible, ih, and_assoc]
    rfl

/-! ### What holds at every point -/

/-- What the machine `m` promises for the next deed, by what has been done. -/
structure Safe (m : ℕ) (p : Play) : Prop where
  /-- A transition fires exactly if the last call has its name, and neither has a transition been
  fired for this call nor has its value come. -/
  fire_iff (name text : String) : (p.scheduler.fire m name text).1 = true ↔
    ∃ call, p.calls.getLast? = some call ∧ name ∈ call.names ∧ call.fired = [] ∧
      call.outcome = none
  /-- For each call at most one transition has been fired. -/
  fired_once : ∀ call ∈ p.calls, call.fired.length ≤ 1
  /-- A value is the text that was fired for its call, or, if none was, the value of one of the
  other sources of its call. -/
  completes {k task : ℕ} {call : Call} {text : String} : p.calls[k]? = some call →
    call.outcome = none → (p.scheduler.poll task call.future).1 = .value text →
      call.fired = [text] ∨
        call.fired = [] ∧ ∃ source ∈ call.extras, p.scheduler.Offers source text
  /-- Once a text was fired for a call, the next look at its value yields the text. -/
  fired_wins {k task : ℕ} {call : Call} {text : String} : p.calls[k]? = some call →
    call.outcome = none → call.fired = [text] →
      (p.scheduler.poll task call.future).1 = .value text
  /-- The values that have come are the texts that were fired, where one was. -/
  outcome_eq : ∀ call ∈ p.calls, ∀ text outcome, call.fired = [text] →
    call.outcome = some outcome → outcome = text
  /-- A value that comes disarms the machine and drops its sender if its call is the last one, and
  leaves the machine as it is otherwise. -/
  settles {k task : ℕ} {call : Call} {text : String} : p.calls[k]? = some call →
    call.outcome = none → (p.scheduler.poll task call.future).1 = .value text →
      (p.scheduler.poll task call.future).2.machine m =
        if k + 1 = p.calls.length then { p.scheduler.machine m with armed := [], pending := none }
        else p.scheduler.machine m

theorem Consistent.safe (h : Consistent m p) : Safe m p where
  fire_iff := h.fire_iff
  fired_once call hcall := by
    obtain ⟨k, hk⟩ := List.mem_iff_getElem?.1 hcall
    exact (h.entry k call hk).fired_once
  completes {k task call text} hk hnone hvalue := by
    have hpolls := h.polls hk hnone task
    rw [hvalue] at hpolls
    exact hpolls.1.imp_right fun hoffers => ⟨hoffers.1, offersAny_iff.1 hoffers.2⟩
  fired_wins {k task call text} hk hnone hfired := by
    have hpolls := h.polls hk hnone task
    rcases hpoll : (p.scheduler.poll task call.future).1 with text' | _ | future
    · rw [hpoll] at hpolls
      rcases hpolls.1 with htext | ⟨hempty, -⟩
      · obtain rfl : text' = text := by simpa using htext.symm.trans hfired
        rfl
      · exact absurd (hempty.symm.trans hfired) (by simp)
    · rw [hpoll] at hpolls
      exact hpolls.elim
    · rw [hpoll] at hpolls
      exact absurd (hpolls.1.symm.trans hfired) (by simp)
  outcome_eq call hcall _ _ := by
    obtain ⟨k, hk⟩ := List.mem_iff_getElem?.1 hcall
    exact (h.entry k call hk).outcome_eq
  settles {k task call text} hk hnone hvalue := by
    have hpolls := h.polls hk hnone task
    rw [hvalue] at hpolls
    obtain ⟨-, s₁, hkeeps, hs₁⟩ := hpolls
    have hsettled := h.settled hk hkeeps
    rw [hs₁]
    split_ifs with hlast
    · exact hsettled.machine_last hlast
    · exact hsettled.machine_eq hlast

/-- Whatever is done with a machine from the beginning on, in whatever order, the machine stays
safe. -/
theorem safe_performAll {s : Scheduler}
    (hs : ∀ n c, (s.machine n).pending = some c → c < s.channels.size) {deeds : List Deed}
    (hdeeds : (⟨s.addMachine.2, []⟩ : Play).Admissible s.machines.size deeds) :
    Safe s.machines.size ((⟨s.addMachine.2, []⟩ : Play).performAll s.machines.size deeds) :=
  ((Consistent.of_addMachine hs).performAll hdeeds).safe

/-- The first of two calls is replaced before its transition is fired.  Its value is the message of
the channel that it was given, and the second call has the text that was fired for it. -/
theorem safe_performAll_twoCalls :
    let start : Play := ⟨Scheduler.empty.addChannel.2.addMachine.2, []⟩
    let first : List Deed := [.state ["save"] [.channel 0], .poll 7 0, .state ["delete"] [],
      .fire "save" "late", .fire "delete" "deleted"]
    let sent := (((start.performAll 0 first).scheduler).send 0 ⟨"update", .text "update"⟩).2
    let last := start.performAll 0 (first ++ [.elsewhere sent, .poll 7 0, .poll 8 1])
    Safe 0 last ∧ last.calls.map (fun call => (call.fired, call.outcome)) =
      [([], some "update"), (["deleted"], some "deleted")] := by
  intro start first sent last
  have hmachine : ∀ n, (Scheduler.empty.addChannel.2.machine n).pending = none := fun _ => rfl
  have hfirst : start.Admissible 0 first := by
    have hchannel : start.Foreign 0 := ⟨by decide, by decide⟩
    exact ⟨fun source hs => by
      obtain rfl : source = .channel 0 := List.mem_singleton.1 hs
      exact ⟨hchannel, id⟩, trivial, fun source hs => absurd hs (by simp), trivial, trivial,
      trivial⟩
  have hforeign : (start.performAll 0 first).Foreign 0 := ⟨by decide +kernel, by decide +kernel⟩
  have hothers :
      Others 0 (start.performAll 0 first).Foreign (start.performAll 0 first).scheduler :=
    ((Consistent.of_addMachine fun n c hc =>
      absurd ((hmachine n).symm.trans hc) (by simp)).performAll hfirst).others
  refine ⟨safe_performAll (fun n c hc => absurd ((hmachine n).symm.trans hc) (by simp))
    (admissible_append.2 ⟨hfirst, ?_, trivial, trivial, trivial⟩), by decide +kernel⟩
  exact elsewhere_of_keeps hothers (.send hforeign _)

end Play

/-! ### Callbacks of transitions -/

namespace Run

open Activity Play

variable {run : Runner} {m : ℕ} {name : String} {step : Option TransitionStep} {w w' : World}
  {p : Play}

/-- To fire a transition ends a history. -/
theorem exists_deeds_of_fire {deeds : List Play.Deed} (hdeeds : p.Admissible m deeds)
    (hw : (p.performAll m deeds).scheduler = w.tasks.scheduler) (text : String) :
    ∃ deeds, p.Admissible m deeds ∧
      (p.performAll m deeds).scheduler = (w.tasks.scheduler.fire m name text).2 := by
  have hfire : (p.performAll m deeds).Admissible m [.fire name text] := ⟨trivial, trivial⟩
  refine ⟨deeds ++ [.fire name text], admissible_append.2 ⟨hdeeds, hfire⟩, ?_⟩
  rw [performAll_append, performAll, performAll, perform, hw]
  rcases w.tasks.scheduler.fire m name text with ⟨_ | _, s⟩ <;> rfl

/-- The callback of a transition is part of a history if its own commands are: it fires the
transition, or does nothing more. -/
theorem exists_deeds_of_transition (hp : p.scheduler = w.tasks.scheduler)
    (hbody : ∀ commands w₁, body run commands w = some ((), w₁) → ∃ deeds,
      p.Admissible m deeds ∧ (p.performAll m deeds).scheduler = w₁.tasks.scheduler)
    (h : transition run m name step w = some ((), w')) :
    ∃ deeds, p.Admissible m deeds ∧ (p.performAll m deeds).scheduler = w'.tasks.scheduler := by
  unfold transition at h
  rw [get_bind] at h
  by_cases harmed : w.tasks.scheduler.isArmed m name = true
  · rw [if_pos harmed] at h
    rcases step with _ | ⟨commands, text, plain⟩
    · obtain ⟨-, rfl⟩ := Prod.mk.inj (Option.some.inj h)
      exact exists_deeds_of_fire (p := p) (m := m) (show p.Admissible m [] from trivial) hp name
    · obtain ⟨⟨⟩, w₁, hrun, hfire⟩ := bind_eq_some_iff.1 h
      obtain ⟨deeds, hdeeds, hw₁⟩ := hbody commands w₁ hrun
      rw [get_bind] at hfire
      split_ifs at hfire with htext
      · obtain ⟨-, rfl⟩ := Prod.mk.inj (Option.some.inj hfire)
        exact exists_deeds_of_fire hdeeds hw₁ _
      · obtain ⟨-, rfl⟩ := Prod.mk.inj (Option.some.inj hfire)
        exact ⟨deeds, hdeeds, hw₁⟩
  · rw [if_neg harmed] at h
    obtain ⟨-, rfl⟩ := Prod.mk.inj (Option.some.inj h)
    exact ⟨[], trivial, hp⟩

end Run

end LiveMarkup
