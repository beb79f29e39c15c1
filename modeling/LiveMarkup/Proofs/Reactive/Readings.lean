import LiveMarkup.Proofs.Run.Activities
import LiveMarkup.Proofs.Run.Building

/-!
# Scripts that only read

A script that only reads signals, on the record or off it, may note texts and the values that it
makes of what it has read; and what it reads next may depend on what it has read.  For given values
of the signals `Script.reading` is what such a script comes to: what it notes, and the signals that
it reads on the record, in order.  Running the script does this and nothing else, in every world in
which the signals have these values (`Run.realises_body`).
-/

namespace LiveMarkup

/-! ### Readings -/

/-- What it comes to to read signals: a result, what is noted, and the signals that are read on the
record, in order. -/
structure Reading (α : Type) where
  result : α
  notes : List Reply
  reads : List ℕ

namespace Reading

variable {α β : Type}

instance : Monad Reading where
  pure x := ⟨x, [], []⟩
  bind ρ φ :=
    ⟨(φ ρ.result).result, ρ.notes ++ (φ ρ.result).notes, ρ.reads ++ (φ ρ.result).reads⟩

/-- Notes a reply, unless there is nothing to report. -/
def note (reply : Reply) : Reading Unit := ⟨(), if reply.isNothing then [] else [reply], []⟩

/-- Reads off the record. -/
def untracked (ρ : Reading α) : Reading α := { ρ with reads := [] }

end Reading

/-- The signal that is on record after it has been read in a way. -/
def ReadMode.record : ReadMode → ℕ → List ℕ
  | .tracked, s => [s]
  | .untracked, _ => []

/-- Reads the signal that a name leads to, if it leads to one. -/
def World.readingOf (w : World) (name : String) (mode : ReadMode) : Reading (Option Value) :=
  match w.signals.signal? name false with
  | .ok s => ⟨some (w.signals.reactive.value s), [], mode.record s⟩
  | .error _ => ⟨none, [], []⟩

/-! ### Values and scripts -/

mutual

/-- Whether a value is made of constants and of what is read. -/
def Spec.isReading : Spec → Bool
  | .empty => true
  | .text _ => true
  | .integer _ _ _ => true
  | .single _ => true
  | .double _ => true
  | .list items => Spec.areReading items
  | .signal _ _ => true
  | .untracked value => value.isReading
  | .log _ value => value.isReading
  | .choose _ _ same other => same.isReading && other.isReading
  | .concat parts => Spec.areReading parts
  | _ => false

/-- Whether several values are made of constants and of what is read. -/
def Spec.areReading : List Spec → Bool
  | [] => true
  | spec :: specs => spec.isReading && Spec.areReading specs

end

mutual

/-- Whether a command only reads signals and notes something. -/
def Command.isReading : Command → Bool
  | .signal (.read _ _ _) => true
  | .log _ => true
  | .untrack commands => Script.isReading commands
  | .describeValue spec => spec.isReading
  | _ => false

/-- Whether a script only reads signals and notes something. -/
def Script.isReading : List Command → Bool
  | [] => true
  | c :: cs => c.isReading && Script.isReading cs

end

section

variable (w : World)

mutual

/-- What it comes to to build a value. -/
def Spec.reading : Spec → Reading Expression
  | .empty => pure .empty
  | .text s => pure (.text s)
  | .integer _ width n => pure (.ofInteger width n)
  | .single bits => pure (.number (.ofSingle bits))
  | .double x => pure (.number x)
  | .list items => do return .iterable (← Spec.readingAll items)
  | .signal name mode => do
    match ← w.readingOf name mode with
    | some v => return .ofValue v
    | none => return Run.unboundValue name
  | .untracked value => (Spec.reading value).untracked
  | .log message value => do
    Reading.note (.text message)
    Spec.reading value
  | .choose name value same other => do
    match ← w.readingOf name .tracked with
    | some v => if v.equal value then Spec.reading same else Spec.reading other
    | none => return Run.unboundValue name
  | .concat parts => do return .text (Run.joinedText (← Spec.readingAll parts))
  | _ => pure .empty

/-- What it comes to to build several values. -/
def Spec.readingAll : List Spec → Reading (List Expression)
  | [] => pure []
  | spec :: specs => do
    let e ← Spec.reading spec
    let es ← Spec.readingAll specs
    return e :: es

end

mutual

/-- What it comes to to carry out a command. -/
def Command.reading : Command → Reading Reply
  | .signal (.read name mode half) =>
    match w.signals.signal? name half with
    | .ok s => ⟨.value (w.signals.reactive.value s), [], mode.record s⟩
    | .error failure => ⟨.failure failure, [], []⟩
  | .log message => pure (.text message)
  | .untrack commands => do
    (Script.reading commands).untracked
    return .nothing
  | .describeValue spec => do
    let e ← spec.reading w
    return .texts [e.kind w.forest, e.describe w.forest]
  | _ => pure .nothing

/-- What it comes to to run a script. -/
def Script.reading : List Command → Reading Unit
  | [] => pure ()
  | c :: cs => do
    let reply ← Command.reading c
    Reading.note reply
    Script.reading cs

end

end

/-! ### Worlds that look the same to a reader -/

/-- Names lead to the same signals, which have the same values, and the nodes are the same. -/
structure World.Like (w w' : World) : Prop where
  names_eq : w'.signals.names = w.signals.names
  value_eq (s : ℕ) : w'.signals.reactive.value s = w.signals.reactive.value s
  forest_eq : w'.forest = w.forest

namespace Reactive

variable {r : Reactive} {s t o : ℕ}

@[simp] theorem value_subscribe : (r.subscribe s o).value t = r.value t := by
  unfold subscribe
  split_ifs
  · rfl
  · by_cases ht : t = s
    · subst ht
      by_cases hs : t < r.signals.size <;>
        simp [value, modifySignal, hs, Array.getElem_modify]
    · simp [value, modifySignal, Array.getElem?_modify, Ne.symm ht]

@[simp] theorem value_track : (r.track s).value t = r.value t := by
  unfold track
  split
  · exact value_subscribe
  · rfl

theorem value_foldl_track (reads : List ℕ) (r : Reactive) :
    (reads.foldl track r).value t = r.value t := by
  induction reads generalizing r with
  | nil => rfl
  | cons s reads ih => rw [List.foldl_cons, ih, value_track]

/-- Nothing is recorded where nobody is the current observer. -/
theorem foldl_track_of_current (reads : List ℕ) (h : r.current = none) :
    reads.foldl track r = r := by
  induction reads with
  | nil => rfl
  | cons s reads ih =>
    have hsame : r.track s = r := by rw [track, h]
    rw [List.foldl_cons, hsame, ih]

end Reactive

namespace World

variable {w w' : World} {notes notes' : List Reply} {reads reads' : List ℕ}

/-- The world in which something has been noted, and the current observer has read signals. -/
def recorded (w : World) (notes : List Reply) (reads : List ℕ) : World :=
  { w with
    log := w.log ++ notes
    signals := w.signals.modify fun r => reads.foldl Reactive.track r }

theorem recorded_nil : w.recorded [] [] = w := by
  rw [recorded, List.append_nil]
  rfl

theorem recorded_recorded :
    (w.recorded notes reads).recorded notes' reads' =
      w.recorded (notes ++ notes') (reads ++ reads') := by
  simp only [recorded, Signals.modify, List.append_assoc, List.foldl_append]

namespace Like

theorem refl (w : World) : w.Like w := ⟨rfl, fun _ => rfl, rfl⟩

theorem recorded (h : w.Like w') (notes : List Reply) (reads : List ℕ) :
    w.Like (w'.recorded notes reads) :=
  ⟨h.names_eq, fun s => (Reactive.value_foldl_track reads _).trans (h.value_eq s), h.forest_eq⟩

theorem signal?_eq (h : w.Like w') (name : String) (half : Bool) :
    w'.signals.signal? name half = w.signals.signal? name half := by
  rw [Signals.signal?, h.names_eq, Signals.signal?]

end Like

end World

/-! ### Running what only reads -/

namespace Run

variable {α β : Type} {w : World} {ρ : Reading α} {φ : α → Reading β}
  {action : Runner → Activity α} {next : Runner → α → Activity β}

/-- In every world that looks like `w` to a reader, the activity comes to `ρ` and does nothing else
than to record it. -/
def Realises (w : World) (action : Runner → Activity α) (ρ : Reading α) : Prop :=
  ∀ w', w.Like w' → Yields action w' ρ.result (w'.recorded ρ.notes ρ.reads)

namespace Realises

theorem pure (x : α) : Realises w (fun _ => Pure.pure x) (Pure.pure x : Reading α) := by
  intro w' _
  refine .of_eq fun run => ?_
  change some (x, w') = some (x, w'.recorded [] [])
  rw [World.recorded_nil]

theorem bind (h : Realises w action ρ)
    (h' : Realises w (fun run => next run ρ.result) (φ ρ.result)) :
    Realises w (fun run => action run >>= next run) (ρ >>= φ) := by
  intro w' hw'
  have hboth := (h w' hw').bind (h' _ (hw'.recorded _ _))
  rwa [World.recorded_recorded] at hboth

theorem job {j : Job} {ρ : Reading j.Result} (h : Realises w (fun run => Run.job run j) ρ) :
    Realises w (fun run => run j) ρ :=
  fun w' hw' => (h w' hw').job

theorem note (reply : Reply) : Realises w (fun _ => Activity.note reply) (Reading.note reply) := by
  intro w' _
  refine .of_eq fun run => ?_
  rw [Activity.note_apply, World.note, Reading.note]
  split_ifs with hnothing
  · rw [World.recorded_nil]
  · rfl

/-- What is done while nobody is the current observer is off the record. -/
theorem observing_none (h : Realises w action ρ) :
    Realises w (fun run => observing none (action run)) ρ.untracked := by
  intro w' hw'
  have hpushed : w.Like (w'.modifyReactive (·.push none)) :=
    ⟨hw'.names_eq, hw'.value_eq, hw'.forest_eq⟩
  obtain ⟨enough, hyields⟩ := h _ hpushed
  refine ⟨enough, fun fuel hfuel => ?_⟩
  change observing none (action (Run.run fuel)) w' = _
  rw [observing, Activity.reactive_bind, Activity.bind_of_eq_some (hyields fuel hfuel)]
  have hoff : ρ.reads.foldl Reactive.track (w'.signals.reactive.push none) =
      w'.signals.reactive.push none :=
    Reactive.foldl_track_of_current _ rfl
  have hback : ((w'.modifyReactive (·.push none)).recorded ρ.notes ρ.reads).modifyReactive (·.pop) =
      w'.recorded ρ.notes [] := by
    simp only [World.recorded, World.modifyReactive, Signals.modify, hoff]
    rfl
  exact congrArg (fun v => some (ρ.result, v)) hback

end Realises

/-- Reading a signal is recorded if it is on the record. -/
theorem recorded_record (w : World) (s : ℕ) (mode : ReadMode) :
    w.recorded [] (mode.record s) = match mode with
      | .tracked => w.modifyReactive (·.track s)
      | .untracked => w := by
  cases mode with
  | tracked =>
    simp only [World.recorded, List.append_nil]
    rfl
  | untracked => exact World.recorded_nil

theorem realises_readSignal (name : String) (mode : ReadMode) :
    Realises w (fun _ => readSignal name mode) (w.readingOf name mode) := by
  intro w' hw'
  refine .of_eq fun run => ?_
  unfold readSignal World.readingOf
  rw [hw'.signal?_eq]
  rcases w.signals.signal? name false with failure | s
  · simp only [World.recorded_nil]
  · simp only [recorded_record, hw'.value_eq]
    cases mode <;> rfl

theorem realises_read (name : String) (mode : ReadMode) (half : Bool) :
    Realises w (fun run => command run (.signal (.read name mode half)))
      (Command.reading w (.signal (.read name mode half))) := by
  intro w' hw'
  refine .of_eq fun run => ?_
  change onSignals (.read name mode half) w' = _
  unfold Command.reading
  simp only [onSignals, Signals.run, hw'.signal?_eq]
  rcases w.signals.signal? name half with failure | s
  · simp only [World.recorded_nil]
  · simp only [recorded_record, ← hw'.value_eq]
    cases mode with
    | tracked =>
      simp only [Signals.modify, Reactive.value_track]
      rfl
    | untracked => rfl

/-! ### Values -/

theorem channels_unboundValue (name : String) : (unboundValue name).channels = [] := rfl

theorem channels_ofValue (v : Value) : (Expression.ofValue v).channels = [] := by
  cases v <;> rfl

theorem channels_ofInteger (width : ℕ) (n : ℤ) : (Expression.ofInteger width n).channels = [] := by
  unfold Expression.ofInteger
  split_ifs <;> rfl

mutual

/-- What is made of constants and of what is read holds no channels. -/
theorem channels_reading : ∀ spec : Spec, spec.isReading = true →
    (spec.reading w).result.channels = []
  | .empty, _ => rfl
  | .text s, _ => rfl
  | .integer _ width n, _ => channels_ofInteger width n
  | .single bits, _ => rfl
  | .double x, _ => rfl
  | .list items, h => channels_readingAll items h
  | .signal name mode, _ => by
    change Expression.channels (Reading.result (match (w.readingOf name mode).result with
      | some v => Pure.pure (Expression.ofValue v)
      | none => Pure.pure (unboundValue name))) = []
    rcases (w.readingOf name mode).result with _ | v
    · exact channels_unboundValue name
    · exact channels_ofValue v
  | .untracked value, h => channels_reading value h
  | .log message value, h => channels_reading value h
  | .choose name value same other, h => by
    obtain ⟨hsame, hother⟩ := Bool.and_eq_true_iff.1 h
    change Expression.channels (Reading.result (match (w.readingOf name .tracked).result with
      | some v => if v.equal value then Spec.reading w same else Spec.reading w other
      | none => Pure.pure (unboundValue name))) = []
    rcases (w.readingOf name .tracked).result with _ | v
    · exact channels_unboundValue name
    · dsimp only
      cases v.equal value with
      | true => exact channels_reading same hsame
      | false => exact channels_reading other hother
  | .concat parts, _ => rfl

theorem channels_readingAll : ∀ specs : List Spec, Spec.areReading specs = true →
    Expression.channelsAll (Spec.readingAll w specs).result = []
  | [], _ => rfl
  | spec :: specs, h => by
    obtain ⟨hspec, hspecs⟩ := Bool.and_eq_true_iff.1 h
    change (spec.reading w).result.channels ++
      Expression.channelsAll (Spec.readingAll w specs).result = []
    rw [channels_reading spec hspec, channels_readingAll specs hspecs, List.append_nil]

end

mutual

theorem realises_build : ∀ spec : Spec, spec.isReading = true →
    Realises w (fun run => build run spec) (spec.reading w)
  | .empty, _ => .pure _
  | .text s, _ => .pure _
  | .integer _ width n, _ => .pure _
  | .single bits, _ => .pure _
  | .double x, _ => .pure _
  | .list items, h => (realises_buildAll items h).bind (.pure _)
  | .signal name mode, _ => (realises_readSignal name mode).bind (by
    rcases (w.readingOf name mode).result with _ | v
    · exact .pure _
    · exact .pure _)
  | .untracked value, h => Realises.observing_none (realises_build value h).job
  | .log message value, h => (Realises.note _).bind (realises_build value h).job
  | .choose name value same other, h => (realises_readSignal name .tracked).bind (by
    obtain ⟨hsame, hother⟩ := Bool.and_eq_true_iff.1 h
    rcases (w.readingOf name .tracked).result with _ | v
    · exact .pure _
    · dsimp only
      cases v.equal value with
      | true => exact (realises_build same hsame).job
      | false => exact (realises_build other hother).job)
  | .concat parts, h => (realises_buildAll parts h).bind (.pure _)

theorem realises_buildAll : ∀ specs : List Spec, Spec.areReading specs = true →
    Realises w (fun run => buildAll run specs) (Spec.readingAll w specs)
  | [], _ => .pure _
  | spec :: specs, h => by
    obtain ⟨hspec, hspecs⟩ := Bool.and_eq_true_iff.1 h
    exact (realises_build spec hspec).job.bind ((realises_buildAll specs hspecs).bind (.pure _))

end

/-! ### Commands -/

/-- Describing a value that is made of what is read drops nothing. -/
theorem realises_describeValue {spec : Spec} (h : spec.isReading = true) :
    Realises w (fun run => describeValue run spec) (Command.reading w (.describeValue spec)) := by
  refine (realises_build spec h).job.bind fun w' hw' => ?_
  refine .of_eq fun run => ?_
  have hdrop : ((Expression.channelsAll [(spec.reading w).result]).foldl Scheduler.dropReceiver
      w'.tasks.scheduler) = w'.tasks.scheduler := by
    rw [Expression.channelsAll, channels_reading spec h]
    rfl
  rw [Activity.get_bind, Activity.discard, Activity.modify_bind, hdrop, hw'.forest_eq]
  change some (_, w') = some (_, w'.recorded [] [])
  rw [World.recorded_nil]
  rfl

mutual

theorem realises_command : ∀ c : Command, c.isReading = true →
    Realises w (fun run => command run c) (Command.reading w c)
  | .signal (.read name mode half), _ => realises_read name mode half
  | .log _, _ => .pure _
  | .untrack commands, h => (realises_body commands h).observing_none.bind (.pure _)
  | .describeValue _, h => realises_describeValue h

/-- A script that only reads does what its reading says. -/
theorem realises_body : ∀ commands : Script, Script.isReading commands = true →
    Realises w (fun run => Activity.body run commands) (Script.reading w commands)
  | [], _ => .pure _
  | c :: cs, h => by
    obtain ⟨hc, hcs⟩ := Bool.and_eq_true_iff.1 h
    exact (realises_command c hc).job.bind ((Realises.note _).bind (realises_body cs hcs))

end

end Run

end LiveMarkup
