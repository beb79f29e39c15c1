import Mathlib.Data.List.Nodup
import LiveMarkup.Proofs.Tasks.States

/-!
# The ledger of a machine

A history of a machine is any interleaving of calls that begin a state, transitions that are fired,
looks at the values of states that are still to come, and whatever happens elsewhere
(`Play.Admissible`).  A ledger records for each call its names, its other sources, what was fired
for it and the outcome of its value.  `Play.Consistent` ties the ledger to the machine and to the
channels of its states.
-/

namespace LiveMarkup

open Scheduler Source

/-! ### Histories -/

/-- A call that began a state: what it was given, its channel, its value, the texts that were fired
for it with success, and the text that its value had. -/
structure Call where
  names : List String
  extras : List Source
  channel : ℕ
  future : Source
  fired : List String
  outcome : Option String

/-- Nothing has been fired for the call, and its value has not come. -/
def Call.Open (call : Call) : Prop := call.fired = [] ∧ call.outcome = none

/-- A scheduler, and the calls that began states of one machine, in order. -/
structure Play where
  scheduler : Scheduler
  calls : List Call

namespace Play

/-- What can happen in a history. -/
inductive Deed where
  | state (names : List String) (extras : List Source)
  | fire (name text : String)
  /-- A task looks at the value of a call. -/
  | poll (task call : ℕ)
  /-- Something happens elsewhere, and leads to another state of the scheduler. -/
  | elsewhere (scheduler : Scheduler)

variable {m : ℕ} {p : Play} {s : Scheduler}

/-- Another scheduler, with a change of one call in the ledger. -/
def amend (p : Play) (s : Scheduler) (k : ℕ) (change : Call → Call) : Play :=
  ⟨s, p.calls.modify k change⟩

@[simp] theorem scheduler_amend (p : Play) (s : Scheduler) (k : ℕ) (change : Call → Call) :
    (p.amend s k change).scheduler = s := rfl

@[simp] theorem length_calls_amend (p : Play) (s : Scheduler) (k : ℕ) (change : Call → Call) :
    (p.amend s k change).calls.length = p.calls.length :=
  List.length_modify _ _ _

/-- Carries out a deed on the machine `m`, and records it. -/
def perform (m : ℕ) (p : Play) : Deed → Play
  | .state names extras =>
    let (future, s) := p.scheduler.begin m names extras
    ⟨s, p.calls ++ [⟨names, extras, p.scheduler.channels.size, future, [], none⟩]⟩
  | .fire name text =>
    match p.scheduler.fire m name text with
    | (true, s) => p.amend s (p.calls.length - 1) fun call =>
        { call with fired := call.fired ++ [text] }
    | (false, s) => { p with scheduler := s }
  | .poll task k =>
    match p.calls[k]? with
    | none => p
    | some call =>
      if call.outcome.isSome then p
      else
        match p.scheduler.poll task call.future with
        | (.value text, s) => p.amend s k fun call => { call with outcome := some text }
        | (.pending rest, s) => p.amend s k fun call => { call with future := rest }
        | (.canceled, s) => { p with scheduler := s }
  | .elsewhere s => { p with scheduler := s }

/-- Carries out deeds in order. -/
def performAll (m : ℕ) (p : Play) : List Deed → Play
  | [] => p
  | deed :: deeds => (p.perform m deed).performAll m deeds

/-- The channels that are there and are not those of the calls. -/
def Foreign (p : Play) (c : ℕ) : Prop :=
  c < p.scheduler.channels.size ∧ c ∉ p.calls.map Call.channel

/-- What happens elsewhere neither touches the machine or the channels of its states nor takes
anything away, and leaves the other machines with senders of other channels. -/
structure Elsewhere (m : ℕ) (p : Play) (s : Scheduler) : Prop where
  channels_le : p.scheduler.channels.size ≤ s.channels.size
  machines_le : p.scheduler.machines.size ≤ s.machines.size
  machine_eq : s.machine m = p.scheduler.machine m
  channel_eq {c : ℕ} : c ∈ p.calls.map Call.channel → s.channel c = p.scheduler.channel c
  others : Others m ({ p with scheduler := s } : Play).Foreign s

/-- What is asked of a deed: the other sources of a state lead neither to the machine nor to the
channels of its states. -/
def Allows (m : ℕ) (p : Play) : Deed → Prop
  | .state _ extras => ∀ source ∈ extras, source.Avoids m p.Foreign ∧ ¬ source.IsFired
  | .fire _ _ => True
  | .poll _ _ => True
  | .elsewhere s => p.Elsewhere m s

/-- Each deed is allowed where it is carried out. -/
def Admissible (m : ℕ) (p : Play) : List Deed → Prop
  | [] => True
  | deed :: deeds => p.Allows m deed ∧ (p.perform m deed).Admissible m deeds

/-! ### What a history keeps -/

/-- How far a call has come whose value is still to come. -/
inductive Standing (m : ℕ) (s : Scheduler) (k : ℕ) (isLast : Prop) (call : Call) : Prop
  /-- Its names can be fired. -/
  | armed (rest : List Source) (last : isLast) (fired : call.fired = [])
      (future : call.future = .state m (k + 1) (.fired call.channel :: rest))
      (left : LeftAll rest call.extras)
      (message : (s.channel call.channel).message = none)
      (sender : (s.channel call.channel).senderGone = false)
      (receiver : (s.channel call.channel).receiverGone = false)
  /-- One of its names has been fired. -/
  | fired (rest : List Source) (message : Message) (fired : call.fired = [message.text])
      (future : call.future = .state m (k + 1) (.fired call.channel :: rest))
      (left : LeftAll rest call.extras)
      (message : (s.channel call.channel).message = some message)
  /-- Another call has taken over, which the value does not know yet. -/
  | replaced (rest : List Source) (last : ¬ isLast) (fired : call.fired = [])
      (future : call.future = .state m (k + 1) (.fired call.channel :: rest))
      (left : LeftAll rest call.extras)
      (message : (s.channel call.channel).message = none)
      (sender : (s.channel call.channel).senderGone = true)
  /-- Another call has taken over, and only the other sources are left. -/
  | alone (rest : List Source) (last : ¬ isLast) (fired : call.fired = [])
      (future : call.future = .state m (k + 1) rest) (left : LeftAll rest call.extras)

/-- A call stands as before if its channel is as before. -/
theorem Standing.congr {k : ℕ} {isLast : Prop} {call : Call} {s' : Scheduler}
    (h : Standing m s k isLast call) (hc : s'.channel call.channel = s.channel call.channel) :
    Standing m s' k isLast call := by
  cases h with
  | armed rest last fired future left message sender receiver =>
    exact .armed rest last fired future left (hc ▸ message) (hc ▸ sender) (hc ▸ receiver)
  | fired rest _ fired future left message => exact .fired rest _ fired future left (hc ▸ message)
  | replaced rest last fired future left message sender =>
    exact .replaced rest last fired future left (hc ▸ message) (hc ▸ sender)
  | alone rest last fired future left => exact .alone rest last fired future left

/-- What holds of a call in the ledger. -/
structure Entry (m : ℕ) (p : Play) (k : ℕ) (call : Call) : Prop where
  channel_lt : call.channel < p.scheduler.channels.size
  extras : ∀ source ∈ call.extras, source.Avoids m p.Foreign ∧ ¬ source.IsFired
  standing : call.outcome = none → Standing m p.scheduler k (k + 1 = p.calls.length) call
  armed : k + 1 = p.calls.length → call.Open →
    (p.scheduler.machine m).pending = some call.channel ∧
      (p.scheduler.machine m).armed = call.names.eraseDups
  settled : k + 1 = p.calls.length → ¬ call.Open → (p.scheduler.machine m).pending = none
  fired_once : call.fired.length ≤ 1
  outcome_eq {text outcome : String} : call.fired = [text] → call.outcome = some outcome →
    outcome = text

/-- What holds of the machine, the channels and the ledger at every point of a history. -/
structure Consistent (m : ℕ) (p : Play) : Prop where
  machine_lt : m < p.scheduler.machines.size
  generation : (p.scheduler.machine m).generation = p.calls.length
  pending_nil : p.calls = [] → (p.scheduler.machine m).pending = none
  nodup : (p.calls.map Call.channel).Nodup
  others : Others m p.Foreign p.scheduler
  entry : ∀ k call, p.calls[k]? = some call → Entry m p k call

variable {p' : Play} {k j : ℕ} {call other : Call}

/-- A call is not concerned by a change that leaves its channel and, if it is the last one, the
machine. -/
theorem Entry.keep (h : Entry m p j call)
    (hsize : p.scheduler.channels.size ≤ p'.scheduler.channels.size)
    (hforeign : ∀ c, p.Foreign c → p'.Foreign c) (hlength : p'.calls.length = p.calls.length)
    (hchannel : p'.scheduler.channel call.channel = p.scheduler.channel call.channel)
    (hmachine : j + 1 = p.calls.length → p'.scheduler.machine m = p.scheduler.machine m) :
    Entry m p' j call where
  channel_lt := Nat.lt_of_lt_of_le h.channel_lt hsize
  extras source hsource := ⟨(h.extras source hsource).1.mono hforeign, (h.extras source hsource).2⟩
  standing hnone := hlength ▸ (h.standing hnone).congr hchannel
  armed hlast hopen := by
    rw [hlength] at hlast
    exact hmachine hlast ▸ h.armed hlast hopen
  settled hlast hopen := by
    rw [hlength] at hlast
    exact hmachine hlast ▸ h.settled hlast hopen
  fired_once := h.fired_once
  outcome_eq := h.outcome_eq

namespace Consistent

/-- Two calls do not share their channel. -/
theorem channel_ne (h : Consistent m p) (hk : p.calls[k]? = some call)
    (hj : p.calls[j]? = some other) (hne : j ≠ k) : other.channel ≠ call.channel := by
  intro heq
  have hmap : ∀ {i : ℕ} {c : Call}, p.calls[i]? = some c →
      (p.calls.map Call.channel)[i]? = some c.channel :=
    fun hi => by rw [List.getElem?_map, hi, Option.map_some]
  have hlt : j < (p.calls.map Call.channel).length := by
    rw [List.length_map]
    exact (List.getElem?_eq_some_iff.1 hj).1
  exact hne ((List.getElem?_inj hlt h.nodup).1 (by rw [hmap hj, hmap hk, heq]))

theorem channel_mem (hk : p.calls[k]? = some call) : call.channel ∈ p.calls.map Call.channel :=
  List.mem_map_of_mem (List.mem_of_getElem? hk)

/-- A change that concerns one call and its channel only. -/
theorem modify (h : Consistent m p) (hk : p.calls[k]? = some call) {change : Call → Call}
    (hchange : ∀ c, (change c).channel = c.channel)
    (hchannels : s.channels.size = p.scheduler.channels.size)
    (hmachines : s.machines.size = p.scheduler.machines.size)
    (hgeneration : (s.machine m).generation = (p.scheduler.machine m).generation)
    (hmachine : k + 1 ≠ p.calls.length → s.machine m = p.scheduler.machine m)
    (hothers : Others m p.Foreign s)
    (hchannel : ∀ c ∈ p.calls.map Call.channel, c ≠ call.channel →
      s.channel c = p.scheduler.channel c)
    (hentry : (∀ c, p.Foreign c → (p.amend s k change).Foreign c) →
      Entry m (p.amend s k change) k (change call)) :
    Consistent m (p.amend s k change) := by
  have hmap : (p.calls.modify k change).map Call.channel = p.calls.map Call.channel := by
    refine List.ext_getElem? fun i => ?_
    simp only [List.getElem?_map, List.getElem?_modify]
    rcases p.calls[i]? with _ | c
    · rfl
    · by_cases hi : k = i <;> simp [hi, hchange]
  have hforeign : ∀ c, p.Foreign c → (p.amend s k change).Foreign c :=
    fun c hc => ⟨hchannels ▸ hc.1, hmap ▸ hc.2⟩
  refine ⟨hmachines ▸ h.machine_lt, ?_, fun hnil => ?_, hmap ▸ h.nodup, ?_, fun j other hj => ?_⟩
  · rw [scheduler_amend, hgeneration, h.generation, length_calls_amend]
  · have hempty : p.calls = [] := by
      rw [← List.length_eq_zero_iff, ← length_calls_amend p s k change, hnil, List.length_nil]
    simp [hempty] at hk
  · exact fun n hn c hc => hforeign c (hothers n hn c hc)
  · rw [amend, List.getElem?_modify] at hj
    by_cases hjk : k = j
    · subst hjk
      rw [hk] at hj
      simp only [if_pos, Option.map_eq_map, Option.map_some, Option.some.injEq] at hj
      exact hj ▸ hentry hforeign
    · simp only [if_neg hjk, Option.map_eq_map, Option.map_id'] at hj
      refine (h.entry j other hj).keep (Nat.le_of_eq hchannels.symm) hforeign (by simp) ?_
        fun hlast => ?_
      · exact hchannel _ (channel_mem hj) (h.channel_ne hk hj (Ne.symm hjk))
      · exact hmachine fun hlast' => hjk (by omega)

end Consistent

end Play

end LiveMarkup
