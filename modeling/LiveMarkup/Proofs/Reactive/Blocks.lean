import LiveMarkup.Proofs.Reactive.Traces

/-!
# Tracking contexts are nested

What a reactive script does is made of blocks: a run of an effect holds all that is done until it
ends, and so does something that is done untracked.  Every trace can be read as blocks in exactly
one way (`Run.nesting`, `Block.historyAll_inj`), whatever is nested in what: effects in effects, a
flush in an effect, effects in such a flush.

Blocks leave the stack of observers as it was (`Block.stack_historyAll`), and inside them the stack
is that of the blocks around, the innermost on top (`Block.stack_of_mem_readsAll`).  So every
tracked read subscribes the effect whose run is the innermost block around it, nobody if that is
untracked or there is none, and no other observer (`tracking_nests`).
-/

namespace LiveMarkup

/-- Whether a deed neither begins nor ends a run or the tracking of an observer. -/
def Deed.isFlat : Deed → Bool
  | start _ | finish _ | push _ | pop => false
  | _ => true

/-- What is done, with all that is done inside it. -/
inductive Block where
  | deed (d : Deed) (flat : d.isFlat = true)
  /-- A run of an effect. -/
  | run (o : Nat) (inside : List Block)
  | untracked (inside : List Block)

/-- A tracked read: what was done before it, the signal, and the blocks around it, innermost first,
an effect for its run and nothing for what is untracked. -/
structure TrackedRead where
  before : History
  signal : Nat
  around : List (Option Nat)

namespace Block

mutual

/-- The deeds of a block. -/
def history : Block → History
  | deed d _ => [d]
  | run o inside => .start o :: .push (some o) :: (historyAll inside ++ [.pop, .finish o])
  | untracked inside => .push none :: (historyAll inside ++ [.pop])

/-- The deeds of blocks that come one after the other. -/
def historyAll : List Block → History
  | [] => []
  | b :: bs => b.history ++ historyAll bs

end

mutual

/-- The tracked reads in a block. -/
def reads (before : History) (around : List (Option Nat)) : Block → List TrackedRead
  | deed (.track s) _ => [⟨before, s, around⟩]
  | deed _ _ => []
  | run o inside => readsAll (before ++ [.start o, .push (some o)]) (some o :: around) inside
  | untracked inside => readsAll (before ++ [.push none]) (none :: around) inside

/-- The tracked reads in blocks that come one after the other. -/
def readsAll (before : History) (around : List (Option Nat)) : List Block → List TrackedRead
  | [] => []
  | b :: bs => b.reads before around ++ readsAll (before ++ b.history) around bs

end

@[simp] theorem historyAll_append (bs cs : List Block) :
    historyAll (bs ++ cs) = historyAll bs ++ historyAll cs := by
  induction bs with
  | nil => rfl
  | cons b bs ih => rw [List.cons_append, historyAll, ih, historyAll, List.append_assoc]

/-! ### Deeds are read as blocks in one way -/

/-- What can follow after the blocks of a list: the end of the block around them, or nothing. -/
def Ends (h : History) : Prop := ∀ d ∈ h.head?, d = .pop

theorem not_ends_history_append (b : Block) (h : History) : ¬ Ends (b.history ++ h) := by
  cases b with
  | deed d flat =>
    intro hends
    obtain rfl : d = .pop := hends d rfl
    cases flat
  | run o inside => exact fun hends => nomatch hends (.start o) rfl
  | untracked inside => exact fun hends => nomatch hends (.push none) rfl

mutual

theorem history_inj (b c : Block) {t u : History} (h : b.history ++ t = c.history ++ u) :
    b = c ∧ t = u := by
  cases b with
  | deed d flat =>
    cases c with
    | deed e flat' =>
      obtain ⟨rfl, rfl⟩ := List.cons.inj h
      exact ⟨rfl, rfl⟩
    | run o inside =>
      obtain ⟨rfl, -⟩ := List.cons.inj h
      cases flat
    | untracked inside =>
      obtain ⟨rfl, -⟩ := List.cons.inj h
      cases flat
  | run o inside =>
    cases c with
    | deed e flat =>
      obtain ⟨rfl, -⟩ := List.cons.inj h
      cases flat
    | run p inside' =>
      simp only [history, List.cons_append, List.append_assoc, List.cons.injEq] at h
      obtain ⟨hstart, -, hinside⟩ := h
      obtain rfl := Deed.start.inj hstart
      obtain ⟨rfl, hrest⟩ := historyAll_inj inside inside' (by simp [Ends]) (by simp [Ends]) hinside
      exact ⟨rfl, by simpa using hrest⟩
    | untracked inside' => exact nomatch (List.cons.inj h).1
  | untracked inside =>
    cases c with
    | deed e flat =>
      obtain ⟨rfl, -⟩ := List.cons.inj h
      cases flat
    | run o inside' => exact nomatch (List.cons.inj h).1
    | untracked inside' =>
      simp only [history, List.cons_append, List.append_assoc, List.cons.injEq] at h
      obtain ⟨rfl, hrest⟩ := historyAll_inj inside inside' (by simp [Ends]) (by simp [Ends]) h.2
      exact ⟨rfl, by simpa using hrest⟩

theorem historyAll_inj (bs cs : List Block) {t u : History} (ht : Ends t) (hu : Ends u)
    (h : historyAll bs ++ t = historyAll cs ++ u) : bs = cs ∧ t = u := by
  cases bs with
  | nil =>
    cases cs with
    | nil => exact ⟨rfl, h⟩
    | cons c cs =>
      rw [historyAll, historyAll, List.nil_append, List.append_assoc] at h
      exact absurd (h ▸ ht) (not_ends_history_append c _)
  | cons b bs =>
    cases cs with
    | nil =>
      rw [historyAll, historyAll, List.nil_append, List.append_assoc] at h
      exact absurd (h ▸ hu) (not_ends_history_append b _)
    | cons c cs =>
      rw [historyAll, historyAll, List.append_assoc, List.append_assoc] at h
      obtain ⟨rfl, hrest⟩ := history_inj b c h
      obtain ⟨rfl, rfl⟩ := historyAll_inj bs cs ht hu hrest
      exact ⟨rfl, rfl⟩

end

/-! ### The stack of observers -/

theorem stack_foldl_schedule (os : List Nat) (r : Reactive) :
    (os.foldl Reactive.schedule r).stack = r.stack := by
  induction os generalizing r with
  | nil => rfl
  | cons o os ih => rw [List.foldl_cons, ih, Reactive.stack_schedule]

theorem stack_notify (r : Reactive) (s : Nat) : (r.notify s).stack = r.stack :=
  stack_foldl_schedule _ _

theorem stack_perform_of_isFlat {d : Deed} (hd : d.isFlat = true) (r : Reactive) :
    (d.perform r).stack = r.stack := by
  cases d with
  | start o | finish o | push o | pop => cases hd
  | track s =>
    simp only [Deed.perform, Reactive.track]
    cases r.current with
    | none => rfl
    | some o =>
      simp only [Reactive.subscribe]
      split_ifs <;> rfl
  | set s v =>
    simp only [Deed.perform, Reactive.set]
    split_ifs
    · rfl
    · exact stack_notify _ s
  | update s arg => exact stack_notify _ s
  | schedule o => exact Reactive.stack_schedule r o
  | _ => rfl

mutual

theorem stack_history (b : Block) (r : Reactive) :
    (b.history.foldl Deed.perform r).stack = r.stack := by
  cases b with
  | deed d flat => exact stack_perform_of_isFlat flat r
  | run o inside =>
    simp only [history, List.foldl_cons, List.foldl_append, List.foldl_nil]
    show (List.foldl Deed.perform _ (historyAll inside)).stack.tail = _
    rw [stack_historyAll inside]
    rfl
  | untracked inside =>
    simp only [history, List.foldl_cons, List.foldl_append, List.foldl_nil]
    show (List.foldl Deed.perform _ (historyAll inside)).stack.tail = _
    rw [stack_historyAll inside]
    rfl

/-- Blocks leave the stack of observers as it was. -/
theorem stack_historyAll (bs : List Block) (r : Reactive) :
    ((historyAll bs).foldl Deed.perform r).stack = r.stack := by
  cases bs with
  | nil => rfl
  | cons b bs => rw [historyAll, List.foldl_append, stack_historyAll bs, stack_history b]

end

theorem state_append (a b : History) : (a ++ b).state = b.foldl Deed.perform a.state :=
  List.foldl_append

variable {outer : List (Option Nat)} {r : TrackedRead}

mutual

theorem stack_of_mem_reads (b : Block) {before : History} {around : List (Option Nat)}
    (hr : r ∈ b.reads before around) (hstack : before.state.stack = around ++ outer) :
    r.before.state.stack = r.around ++ outer := by
  cases b with
  | deed d flat =>
    cases d with
    | track s =>
      obtain rfl := List.mem_singleton.1 hr
      exact hstack
    | _ => exact absurd hr List.not_mem_nil
  | run o inside =>
    refine stack_of_mem_readsAll inside hr ?_
    rw [state_append, List.cons_append, ← hstack]
    rfl
  | untracked inside =>
    refine stack_of_mem_readsAll inside hr ?_
    rw [state_append, List.cons_append, ← hstack]
    rfl

/-- At a tracked read the stack is that of the blocks around it, over the one outside. -/
theorem stack_of_mem_readsAll (bs : List Block) {before : History} {around : List (Option Nat)}
    (hr : r ∈ readsAll before around bs) (hstack : before.state.stack = around ++ outer) :
    r.before.state.stack = r.around ++ outer := by
  cases bs with
  | nil => exact absurd hr List.not_mem_nil
  | cons b bs =>
    rcases List.mem_append.1 hr with hr | hr
    · exact stack_of_mem_reads b hr hstack
    · refine stack_of_mem_readsAll bs hr ?_
      rw [state_append, stack_history, hstack]

end

mutual

theorem before_of_mem_reads (b : Block) {before : History} {around : List (Option Nat)}
    (hr : r ∈ b.reads before around) :
    ∃ after, before ++ b.history = r.before ++ .track r.signal :: after := by
  cases b with
  | deed d flat =>
    cases d with
    | track s =>
      obtain rfl := List.mem_singleton.1 hr
      exact ⟨[], rfl⟩
    | _ => exact absurd hr List.not_mem_nil
  | run o inside =>
    obtain ⟨after, hafter⟩ := before_of_mem_readsAll inside hr
    refine ⟨after ++ [.pop, .finish o], ?_⟩
    rw [← List.cons_append, ← List.append_assoc, ← hafter]
    simp [history]
  | untracked inside =>
    obtain ⟨after, hafter⟩ := before_of_mem_readsAll inside hr
    refine ⟨after ++ [.pop], ?_⟩
    rw [← List.cons_append, ← List.append_assoc, ← hafter]
    simp [history]

/-- A tracked read that is listed is one of the deeds of the blocks. -/
theorem before_of_mem_readsAll (bs : List Block) {before : History} {around : List (Option Nat)}
    (hr : r ∈ readsAll before around bs) :
    ∃ after, before ++ historyAll bs = r.before ++ .track r.signal :: after := by
  cases bs with
  | nil => exact absurd hr List.not_mem_nil
  | cons b bs =>
    rw [historyAll, ← List.append_assoc]
    rcases List.mem_append.1 hr with hr | hr
    · obtain ⟨after, hafter⟩ := before_of_mem_reads b hr
      exact ⟨after ++ historyAll bs, by rw [hafter]; simp⟩
    · exact before_of_mem_readsAll bs hr

end

/-- A deed that stands in two histories, one after the other, stands in one of them. -/
theorem mem_append_split {d : Deed} {a b x y : History} (h : a ++ b = x ++ d :: y) :
    (∃ z, a = x ++ d :: z) ∨ ∃ z, x = a ++ z ∧ b = z ++ d :: y := by
  rcases List.append_eq_append_iff.1 h with ⟨z, hx, hb⟩ | ⟨z, ha, hd⟩
  · exact Or.inr ⟨z, hx, hb⟩
  · cases z with
    | nil => exact Or.inr ⟨[], by simpa using ha.symm, by simpa using hd.symm⟩
    | cons e z =>
      obtain ⟨rfl, rfl⟩ := List.cons.inj hd
      exact Or.inl ⟨z, ha⟩

/-- A deed that stands between an opening and a closing, and is part of neither, stands inside. -/
theorem between_split {d : Deed} {opening inside closing x y : History} (hopen : d ∉ opening)
    (hclose : d ∉ closing) (h : opening ++ (inside ++ closing) = x ++ d :: y) :
    ∃ z w, x = opening ++ z ∧ inside = z ++ d :: w := by
  rcases mem_append_split h with ⟨z, rfl⟩ | ⟨z, rfl, hrest⟩
  · exact absurd (by simp) hopen
  · rcases mem_append_split hrest with ⟨w, hinside⟩ | ⟨w, -, rfl⟩
    · exact ⟨z, w, rfl, hinside⟩
    · exact absurd (by simp) hclose

mutual

theorem exists_mem_reads (b : Block) (before : History) (around : List (Option Nat))
    {x y : History} {s : Nat} (h : b.history = x ++ .track s :: y) :
    ∃ r ∈ b.reads before around, r.before = before ++ x ∧ r.signal = s := by
  cases b with
  | deed d flat =>
    obtain ⟨rfl, rfl⟩ : x = [] ∧ d = .track s := by
      cases x <;> simp_all [history]
    exact ⟨_, List.mem_singleton_self _, by simp, rfl⟩
  | run o inside =>
    have hsplit : [.start o, .push (some o)] ++ (historyAll inside ++ [.pop, .finish o]) =
        x ++ .track s :: y := h
    obtain ⟨z, w, rfl, hinside⟩ := between_split (by simp) (by simp) hsplit
    obtain ⟨r, hr, hbefore, hsignal⟩ :=
      exists_mem_readsAll inside (before ++ [.start o, .push (some o)]) (some o :: around) hinside
    exact ⟨r, hr, by rw [hbefore, List.append_assoc], hsignal⟩
  | untracked inside =>
    have hsplit : [.push none] ++ (historyAll inside ++ [.pop]) = x ++ .track s :: y := h
    obtain ⟨z, w, rfl, hinside⟩ := between_split (by simp) (by simp) hsplit
    obtain ⟨r, hr, hbefore, hsignal⟩ :=
      exists_mem_readsAll inside (before ++ [.push none]) (none :: around) hinside
    exact ⟨r, hr, by rw [hbefore, List.append_assoc], hsignal⟩

/-- Every deed that is a tracked read is listed. -/
theorem exists_mem_readsAll (bs : List Block) (before : History) (around : List (Option Nat))
    {x y : History} {s : Nat} (h : historyAll bs = x ++ .track s :: y) :
    ∃ r ∈ readsAll before around bs, r.before = before ++ x ∧ r.signal = s := by
  cases bs with
  | nil => cases x <;> cases h
  | cons b bs =>
    rcases mem_append_split h with ⟨z, hb⟩ | ⟨z, rfl, hbs⟩
    · obtain ⟨r, hr, hread⟩ := exists_mem_reads b before around hb
      exact ⟨r, List.mem_append_left _ hr, hread⟩
    · obtain ⟨r, hr, hbefore, hsignal⟩ := exists_mem_readsAll bs (before ++ b.history) around hbs
      exact ⟨r, List.mem_append_right _ hr, by rw [hbefore, List.append_assoc], hsignal⟩

end

end Block

/-! ### Traces are made of blocks -/

variable {α β : Type} {h h' : History} {w w' : World}

/-- All routines of a world are reactive scripts. -/
def ReactiveRoutines (w : World) : Prop :=
  ∀ (n : Nat) (routine : Routine), w.routines[n]? = some routine →
    ∃ commands, routine = .script commands ∧ areReactive commands = true

theorem ReactiveRoutines.addRoutine (hw : ReactiveRoutines w) {commands : Script}
    (hcs : areReactive commands = true) (hr : w'.routines = w.routines.push (.script commands)) :
    ReactiveRoutines w' := by
  intro n routine hn
  rw [hr, Array.getElem?_push] at hn
  split_ifs at hn
  · exact ⟨commands, (Option.some.inj hn).symm, hcs⟩
  · exact hw n routine hn

theorem ReactiveRoutines.note (hw : ReactiveRoutines w) (reply : Reply) :
    ReactiveRoutines (w.note reply) := by
  unfold World.note
  split_ifs
  · exact hw
  · exact hw

/-- A history is made of blocks. -/
def Nested (h : History) : Prop := ∃ bs, Block.historyAll bs = h

namespace Nested

theorem nil : Nested [] := ⟨[], rfl⟩

theorem append (hh : Nested h) (hh' : Nested h') : Nested (h ++ h') := by
  obtain ⟨bs, rfl⟩ := hh
  obtain ⟨cs, rfl⟩ := hh'
  exact ⟨bs ++ cs, Block.historyAll_append bs cs⟩

theorem deed {d : Deed} (hd : d.isFlat = true) : Nested [d] := ⟨[.deed d hd], rfl⟩

theorem cons {d : Deed} (hd : d.isFlat = true) (hh : Nested h) : Nested (d :: h) :=
  (deed hd).append hh

theorem run (o : Nat) (hh : Nested h) :
    Nested (.start o :: .push (some o) :: h ++ [.pop, .finish o]) := by
  obtain ⟨bs, rfl⟩ := hh
  exact ⟨[.run o bs], by simp [Block.historyAll, Block.history]⟩

theorem untracked (hh : Nested h) : Nested (.push none :: h ++ [.pop]) := by
  obtain ⟨bs, rfl⟩ := hh
  exact ⟨[.untracked bs], by simp [Block.historyAll, Block.history]⟩

end Nested

/-- What something does is made of blocks, and it leaves reactive scripts only. -/
structure Nests (h : History) (result : Option (α × World)) : Prop where
  nested : Nested h
  routines {a : α} {w : World} : result = some (a, w) → ReactiveRoutines w

namespace Nests

theorem of_eq_some {a : α} (hh : Nested h) (hw : ReactiveRoutines w) : Nests h (some (a, w)) :=
  ⟨hh, fun hr => (Prod.mk.inj (Option.some.inj hr)).2 ▸ hw⟩

/-- One thing after another. -/
theorem bind {action : Activity α} {next : α → Activity β} {rest : History}
    (hn : Nests h (action w)) (hnone : action w = none → rest = [])
    (hsome : ∀ a w₁, action w = some (a, w₁) → ReactiveRoutines w₁ → Nests rest (next a w₁)) :
    Nests (h ++ rest) ((action >>= next) w) := by
  cases haction : action w with
  | none =>
    rw [Activity.bind_of_eq_none haction, hnone haction, List.append_nil]
    exact ⟨hn.nested, nofun⟩
  | some p =>
    rw [Activity.bind_of_eq_some haction]
    have hnext := hsome p.1 p.2 haction (hn.routines haction)
    exact ⟨hn.nested.append hnext.nested, hnext.routines⟩

/-- A second thing that is not told and leaves the routines alone. -/
theorem bind_of_eq {action : Activity α} {next : α → Activity β} (hn : Nests h (action w))
    (hnext : ∀ a w₁, ∃ b w₂, next a w₁ = some (b, w₂) ∧ w₂.routines = w₁.routines) :
    Nests h ((action >>= next) w) := by
  rw [← List.append_nil h]
  refine hn.bind (fun _ => rfl) fun a w₁ _ hw => ?_
  obtain ⟨b, w₂, hb, heq⟩ := hnext a w₁
  rw [hb]
  exact of_eq_some .nil fun n routine hr => hw n routine (heq ▸ hr)

theorem mono {result : Option (α × World)} (hn : Nests h result) (hh : Nested h') :
    Nests h' result :=
  ⟨hh, hn.routines⟩

end Nests

namespace Run

/-- Traces of reactive scripts are made of blocks. -/
structure Nesting (tell : Job → World → History) (run : Runner) : Prop where
  command {w : World} {c : Command} : ReactiveRoutines w → c.isReactive = true →
    Nests (tell (.command c) w) (run (.command c) w)
  routine {w : World} (n : Nat) : ReactiveRoutines w →
    Nests (tell (.routine n) w) (run (.routine n) w)
  observer {w : World} (o : Nat) : ReactiveRoutines w →
    Nests (tell (.observer o) w) (run (.observer o) w)
  flush {w : World} (place : Nat) : ReactiveRoutines w →
    Nests (tell (.flush place) w) (run (.flush place) w)
  drain {w : World} (count : Nat) : ReactiveRoutines w →
    Nests (tell (.drain count) w) (run (.drain count) w)

variable {tell : Job → World → History} {run : Runner}

theorem Nesting.body (hn : Nesting tell run) {cs : Script} (hcs : areReactive cs = true)
    (hw : ReactiveRoutines w) :
    Nests (bodyDeeds tell run cs w) (Activity.body run cs w) := by
  induction cs generalizing w with
  | nil => exact .of_eq_some .nil hw
  | cons c cs ih =>
    obtain ⟨hc, hcs⟩ := Bool.and_eq_true_iff.1 hcs
    rw [bodyDeeds, Activity.body]
    refine (hn.command hw hc).bind (fun hrun => by rw [hrun]) fun reply w₁ hrun hw₁ => ?_
    rw [hrun]
    exact ih hcs (hw₁.note reply)

theorem Nesting.nests_routine (hn : Nesting tell run) (n : Nat) (hw : ReactiveRoutines w) :
    Nests (routineDeeds tell run w n) (Run.routine run n w) := by
  rw [Run.routine, Activity.get_bind, routineDeeds]
  cases hr : w.routines[n]? with
  | none => exact .of_eq_some .nil hw
  | some routine =>
    obtain ⟨commands, rfl, hcs⟩ := hw n routine hr
    exact hn.body hcs hw

/-- What is done while an observer, or nobody, is the current one. -/
theorem nests_observing {o : Option Nat} {action : Activity Unit}
    (hn : Nests h (action (w.modifyReactive (·.push o)))) :
    Nests h (Run.observing o action w) := by
  rw [Run.observing, Activity.reactive_bind]
  exact hn.bind_of_eq fun _ w₁ => ⟨_, _, rfl, rfl⟩

theorem Nesting.nests_observer (hn : Nesting tell run) (o : Nat) (hw : ReactiveRoutines w) :
    Nests (observerDeeds tell w o) (Run.observer run o w) := by
  rw [Run.observer, Activity.get_bind, observerDeeds]
  cases hob : w.signals.reactive.observers[o]? with
  | none => exact .of_eq_some .nil hw
  | some ob =>
    dsimp only
    split_ifs with heffect hrunning
    · exact .of_eq_some .nil hw
    · rw [Activity.reactive_bind]
      have hw' : ReactiveRoutines (w.modifyReactive fun r => (r.start o).push (some o)) := hw
      have hinside := hn.routine ob.routine hw'
      have hrun : Nests _ (Run.observing (some o) (run (.routine ob.routine))
        (w.modifyReactive (·.start o))) := nests_observing hinside
      refine (hrun.bind_of_eq fun _ w₁ => ?_).mono (hinside.nested.run o)
      exact ⟨(), _, rfl, rfl⟩
    · exact hn.routine ob.routine hw

theorem Nesting.nests_flush (hn : Nesting tell run) (place : Nat) (hw : ReactiveRoutines w) :
    Nests (flushDeeds tell run w place) (Run.flush run place w) := by
  rw [Run.flush, Activity.get_bind, flushDeeds]
  cases w.signals.reactive.pending[place]? with
  | none => exact .of_eq_some (.deed rfl) hw
  | some o =>
    have hfirst := hn.observer o hw
    refine (hfirst.mono (hfirst.nested.cons rfl)).bind (fun hrun => by rw [hrun])
      fun _ w₁ hrun hw₁ => ?_
    rw [hrun]
    exact hn.flush (place + 1) hw₁

theorem Nesting.nests_drain (hn : Nesting tell run) (count : Nat) (hw : ReactiveRoutines w) :
    Nests (drainDeeds tell run w count) (Run.drain run count w) := by
  rw [Run.drain, drainDeeds]
  cases hq : w.signals.reactive.queue with
  | nil =>
    have hnext : nextMicrotask w = some (none, w) := by rw [nextMicrotask, hq]
    rw [Activity.bind_of_eq_some hnext]
    exact .of_eq_some .nil hw
  | cons t queue =>
    have hnext : nextMicrotask w =
        some (some t, w.modifyReactive fun r => { r with queue := queue }) := by
      rw [nextMicrotask, hq]
    have hw' : ReactiveRoutines (w.modifyReactive fun r => { r with queue := queue }) := hw
    rw [Activity.bind_of_eq_some hnext]
    cases t with
    | flush =>
      have hfirst := hn.flush 0 hw'
      refine (hfirst.mono (hfirst.nested.cons rfl)).bind
        (fun hrun => by simp only [taskJob, hrun]) fun _ w₁ hrun hw₁ => ?_
      simp only [taskJob, hrun]
      exact hn.drain (count + 1) hw₁
    | routine n =>
      have hfirst := hn.routine n hw'
      refine (hfirst.mono (hfirst.nested.cons rfl)).bind
        (fun hrun => by simp only [taskJob, hrun]) fun _ w₁ hrun hw₁ => ?_
      simp only [taskJob, hrun]
      exact hn.drain (count + 1) hw₁

/-! ### Commands -/

theorem nested_signalDeeds (s : Signals) (c : SignalCommand) : Nested (signalDeeds s c) := by
  cases c with
  | create name v split =>
    cases split with
    | false => exact .deed rfl
    | true => exact .cons rfl (.deed rfl)
  | read name mode half =>
    cases mode with
    | untracked => exact .nil
    | tracked =>
      rw [signalDeeds]
      cases s.signal? name half with
      | error fault => exact .nil
      | ok g => exact .deed rfl
  | set name v half =>
    rw [signalDeeds]
    cases s.signal? name half with
    | error fault => exact .nil
    | ok g => exact .deed rfl
  | update name arg half =>
    rw [signalDeeds]
    cases s.signal? name half with
    | error fault => exact .nil
    | ok g => exact .deed rfl
  | schedule name =>
    rw [signalDeeds]
    cases s.observer? name with
    | error fault => exact .nil
    | ok o => exact .deed rfl
  | _ => exact .nil

theorem Nesting.nests_effect (hn : Nesting tell run) {commands : Script}
    (hcs : areReactive commands = true) (as : Option String) (later : Bool)
    (hw : ReactiveRoutines w) :
    Nests (commandDeeds tell run w (.effect commands as later))
      (Run.effect run commands as later w) := by
  obtain ⟨⟨o, w₁⟩, hadd⟩ : ∃ p, addObserver true (.script commands) w = some p := ⟨_, rfl⟩
  have hw₁ : ReactiveRoutines w₁ := by
    obtain rfl := (Prod.mk.inj (Option.some.inj hadd)).2
    exact hw.addRoutine hcs rfl
  rw [Run.effect, Activity.bind_of_eq_some hadd, commandDeeds]
  cases later with
  | true => exact .of_eq_some (.deed rfl) hw₁
  | false =>
    rw [if_neg (by simp), hadd]
    have hfirst := hn.observer o hw₁
    exact (hfirst.mono (hfirst.nested.cons rfl)).bind_of_eq fun _ w₂ => ⟨_, _, rfl, rfl⟩

theorem Nesting.nests_command (hn : Nesting tell run) {c : Command} (hc : c.isReactive = true)
    (hw : ReactiveRoutines w) :
    Nests (commandTrace tell run w c) (Run.command run c w) := by
  cases c with
  | signal c =>
    have htrace : commandTrace tell run w (.signal c) = signalDeeds w.signals c := by
      cases c with
      | pushObserver o | popObserver => cases hc
      | _ => rfl
    rw [htrace]
    exact .of_eq_some (nested_signalDeeds w.signals c) hw
  | log message => exact .of_eq_some .nil hw
  | effect commands as later => exact hn.nests_effect hc as later hw
  | runEffect name =>
    show Nests (commandDeeds tell run w (.runEffect name)) (Run.runEffect run name w)
    rw [Run.runEffect, Activity.get_bind, commandDeeds]
    cases w.signals.effects.get? name with
    | none => exact .of_eq_some .nil hw
    | some o => exact (hn.observer o hw).bind_of_eq fun _ w₁ => ⟨_, _, rfl, rfl⟩
  | untrack commands =>
    have hw' : ReactiveRoutines (w.modifyReactive (·.push none)) := hw
    have hinside := hn.body hc hw'
    have hrun : Nests _ (Run.observing none (Activity.body run commands) w) :=
      nests_observing hinside
    exact (hrun.bind_of_eq fun _ w₁ => ⟨_, _, rfl, rfl⟩).mono hinside.nested.untracked
  | microtask commands => exact .of_eq_some (.deed rfl) (hw.addRoutine hc rfl)
  | runMicrotasks => exact (hn.drain 0 hw).bind_of_eq fun n w₁ => ⟨_, _, rfl, rfl⟩
  | _ => cases hc

/-- Traces of reactive scripts of every depth are made of blocks. -/
theorem nesting (fuel : Nat) : Nesting (traces fuel) (Run.run fuel) := by
  induction fuel with
  | zero =>
    exact ⟨fun _ _ => ⟨.nil, nofun⟩, fun _ _ => ⟨.nil, nofun⟩, fun _ _ => ⟨.nil, nofun⟩,
      fun _ _ => ⟨.nil, nofun⟩, fun _ _ => ⟨.nil, nofun⟩⟩
  | succ fuel ih =>
    exact ⟨fun hw hc => ih.nests_command hc hw, fun n hw => ih.nests_routine n hw,
      fun o hw => ih.nests_observer o hw, fun place hw => ih.nests_flush place hw,
      fun count hw => ih.nests_drain count hw⟩

end Run

/-! ### Sessions -/

variable (fuel : Nat) (watch : List String)

theorem nests_perform (hw : ReactiveRoutines w) {c : Command} (hc : c.isReactive = true) :
    Nests (Run.traces fuel (.command c) { w with log := [] }) (w.perform fuel watch c) := by
  have hw' : ReactiveRoutines { w with log := [] } := hw
  have hcommand := (Run.nesting fuel).command hw' hc
  unfold World.perform
  cases hrun : Run.run fuel (.command c) { w with log := [] } with
  | none => exact ⟨hcommand.nested, nofun⟩
  | some p =>
    have hp : ReactiveRoutines p.2 := hcommand.routines hrun
    exact .of_eq_some hcommand.nested hp

theorem nests_performAll (hw : ReactiveRoutines w) {cs : List Command}
    (hcs : areReactive cs = true) :
    Nests (w.tracesAll fuel watch cs) (w.performAll fuel watch cs) := by
  induction cs generalizing w with
  | nil => exact .of_eq_some .nil hw
  | cons c cs ih =>
    obtain ⟨hc, hcs⟩ := Bool.and_eq_true_iff.1 hcs
    have hfirst := nests_perform fuel watch hw hc
    rw [World.tracesAll, World.performAll]
    cases hstep : w.perform fuel watch c with
    | none => exact ⟨hfirst.nested.append .nil, fun h => by cases h⟩
    | some p =>
      obtain ⟨report, w₁⟩ := p
      have hrest := ih (hfirst.routines hstep) hcs
      dsimp only
      cases hrun : w₁.performAll fuel watch cs with
      | none => exact ⟨hfirst.nested.append hrest.nested, fun h => by cases h⟩
      | some q => exact .of_eq_some (hfirst.nested.append hrest.nested) (hrest.routines hrun)

mutual

/-- A reactive script is an observing one. -/
theorem isObserving_of_isReactive {c : Command} (hc : c.isReactive = true) :
    c.isObserving = true := by
  cases c with
  | effect commands as later => exact areObserving_of_areReactive hc
  | untrack commands => exact areObserving_of_areReactive hc
  | microtask commands => exact areObserving_of_areReactive hc
  | signal c => rfl
  | log message => rfl
  | runEffect name => rfl
  | runMicrotasks => rfl
  | _ => cases hc

theorem areObserving_of_areReactive {cs : List Command} (hcs : areReactive cs = true) :
    areObserving cs = true := by
  cases cs with
  | nil => rfl
  | cons c cs =>
    obtain ⟨hc, hcs⟩ := Bool.and_eq_true_iff.1 hcs
    exact Bool.and_eq_true_iff.2 ⟨isObserving_of_isReactive hc, areObserving_of_areReactive hcs⟩

end

/-- Reading subscribes the current observer and nobody else. -/
theorem Reactive.mem_subscribers_track_iff {r : Reactive} {s : Nat} (hs : s < r.signals.size)
    (t o : Nat) :
    o ∈ (r.track s).subscribers t ↔ o ∈ r.subscribers t ∨ t = s ∧ r.current = some o := by
  unfold Reactive.track
  cases r.current with
  | none => simp
  | some p =>
    simp only [Reactive.subscribe, List.contains_iff_mem, Option.some.injEq]
    split_ifs with hp
    · constructor
      · exact Or.inl
      · rintro (ho | ⟨rfl, rfl⟩)
        · exact ho
        · exact hp
    · rw [Reactive.subscribers_modifySignal]
      by_cases ht : t = s
      · subst ht
        rw [if_pos ⟨rfl, hs⟩]
        show o ∈ r.subscribers t ++ [p] ↔ _
        rw [List.mem_append, List.mem_singleton, eq_self_iff_true, true_and, @eq_comm _ o]
      · rw [if_neg fun h => ht h.1]
        simp [ht]

/-- A reactive script leaves the stack of observers as it was.  All that it does is made of blocks
in exactly one way, and every tracked read subscribes the innermost block around it: the effect
whose run this is, or nobody if it is untracked.  Outside of all blocks that is what was on top of
the stack before, nobody if there was nothing.  No other observer is subscribed. -/
theorem tracking_nests (ht : Told h w) (hw : ReactiveRoutines w) {cs : List Command}
    (hcs : areReactive cs = true) (fuel : Nat) (watch : List String) :
    let trace := w.tracesAll fuel watch cs
    let outside := w.signals.reactive.stack
    (∀ reports w', w.performAll fuel watch cs = some (reports, w') →
      w'.signals.reactive = (h ++ trace).state ∧ w'.signals.reactive.stack = outside) ∧
    ∃ bs, Block.historyAll bs = trace ∧ (∀ cs, Block.historyAll cs = trace → cs = bs) ∧
      (∀ x s y, trace = x ++ .track s :: y →
        ∃ r ∈ Block.readsAll h [] bs, r.before = h ++ x ∧ r.signal = s) ∧
      ∀ r ∈ Block.readsAll h [] bs,
        r.before.state.stack = r.around ++ outside ∧
        ∀ s o, o ∈ (History.state (r.before ++ [.track r.signal])).subscribers s ↔
          o ∈ r.before.state.subscribers s ∨
            s = r.signal ∧ (r.around ++ outside).head? = some (some o) := by
  intro trace outside
  obtain ⟨⟨bs, hbs⟩, -⟩ := nests_performAll fuel watch hw hcs
  have hgoes := goes_performAll fuel watch ht (areObserving_of_areReactive hcs)
  have hstack : (h ++ trace).state.stack = outside := by
    have hblocks := Block.stack_historyAll bs h.state
    rw [hbs] at hblocks
    rw [Block.state_append, hblocks, ← ht.state_eq]
  refine ⟨fun reports w' hrun => ?_, bs, hbs, fun cs hcs => ?_, fun x s y hsplit => ?_,
    fun r hr => ?_⟩
  · have hstate := (hgoes.post hrun).told.state_eq
    exact ⟨hstate, by rw [hstate, hstack]⟩
  · have hends : Block.Ends [] := nofun
    exact (Block.historyAll_inj cs bs hends hends (by rw [hcs, hbs])).1
  · exact Block.exists_mem_readsAll bs h [] (hbs.trans hsplit)
  · have hread : r.before.state.stack = r.around ++ outside :=
      Block.stack_of_mem_readsAll bs hr (by rw [← ht.state_eq, List.nil_append])
    obtain ⟨after, hafter⟩ := Block.before_of_mem_readsAll bs hr
    rw [hbs] at hafter
    have hlt : r.signal < r.before.state.signals.size :=
      (hgoes.proper r.before (.track r.signal) after hafter).1
    refine ⟨hread, fun s o => ?_⟩
    rw [History.state_concat, Deed.perform, Reactive.mem_subscribers_track_iff hlt,
      Reactive.current, hread, Option.join_eq_some_iff]

/-- An effect changes a signal and drains the queue while it runs, and then runs the other effect
again untracked.  When it is run for the second time, it is also asked to run itself. -/
def nestedContexts : List Command :=
  [.signal (.create "x" (.int 0) false), .signal (.create "y" (.int 0) false),
    .effect [.signal (.read "x" .tracked false)] (some "inner") false,
    .effect [.runEffect "outer", .signal (.update "x" (.int 1) false), .runMicrotasks,
      .untrack [.signal (.read "x" .tracked false), .signal (.update "x" (.int 1) false),
        .runEffect "inner"],
      .signal (.read "y" .tracked false)] (some "outer") false,
    .runEffect "outer", .signal (.read "y" .tracked false)]

/-- The read of the inner effect, untracked by the outer one, subscribes the inner one. -/
theorem tracking_nests_nestedContexts :
    let trace := (World.fresh "a").tracesAll 9 [] nestedContexts
    Told [] (World.fresh "a") ∧ ReactiveRoutines (World.fresh "a") ∧
      areReactive nestedContexts = true ∧
      (∃ reports w, (World.fresh "a").performAll 9 [] nestedContexts = some (reports, w) ∧
        w.signals.reactive.stack = []) ∧
      ∃ bs, Block.historyAll bs = trace ∧ ∃ r ∈ Block.readsAll [] [] bs,
        r.before = trace.take 25 ∧ r.signal = 0 ∧ r.around = [some 0, none, some 1] ∧
        ∀ o, o ∈ (History.state (r.before ++ [.track 0])).subscribers 0 ↔ o = 0 := by
  intro trace
  have htold := told_fresh "a"
  have hroutines : ReactiveRoutines (World.fresh "a") := fun n routine hn => by
    simp [World.fresh] at hn
  have hcs : areReactive nestedContexts = true := by decide +kernel
  obtain ⟨hend, bs, hbs, -, hlisted, hreads⟩ := tracking_nests htold hroutines hcs 9 []
  refine ⟨htold, hroutines, hcs, ?_, bs, hbs, ?_⟩
  · have hsome : ((World.fresh "a").performAll 9 [] nestedContexts).isSome = true := by
      decide +kernel
    obtain ⟨⟨reports, w⟩, hrun⟩ := Option.isSome_iff_exists.1 hsome
    exact ⟨reports, w, hrun, (hend reports w hrun).2⟩
  · have hsplit : trace = trace.take 25 ++ .track 0 :: trace.drop 26 := by decide +kernel
    obtain ⟨r, hr, hbefore, hsignal⟩ := hlisted _ _ _ hsplit
    rw [List.nil_append] at hbefore
    obtain ⟨hstack, hsubscribers⟩ := hreads r hr
    have haround : r.around = [some 0, none, some 1] := by
      have htop : (History.state (trace.take 25)).stack = [some 0, none, some 1] := by
        decide +kernel
      rw [hbefore, htop] at hstack
      simpa [World.fresh, Signals.empty, Reactive.empty] using hstack.symm
    have hnone : (History.state (trace.take 25)).subscribers 0 = [] := by decide +kernel
    refine ⟨r, hr, hbefore, hsignal, haround, fun o => ?_⟩
    have hread := hsubscribers 0 o
    rw [hsignal, haround] at hread
    rw [hread, hbefore, hnone]
    simp [eq_comm]

end LiveMarkup
