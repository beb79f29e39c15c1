import LiveMarkup.Proofs.Reactive.OnRecord
import LiveMarkup.Proofs.Reactive.Propagation
import LiveMarkup.Proofs.Run.Sealed

/-!
# Effects that look on

An onlooker is an effect that reads signals and at most writes the text of one node: a script that
only reads, or a live value shown at a text or an attribute node.  To run it records what it reads
and shows what it makes of it, and wakes nobody (`Run.yields_observer_of_looks`).

A flush of onlookers therefore gives each of them its turn, and what every turn keeps holds after
the flush (`Run.exists_flush`).
-/

namespace LiveMarkup

variable {f g h : Forest} {m n : NodeId} {s : String} {w w' : World}

/-! ### Showing a text -/

namespace Forest

/-- Whether the node shows a text as it is: a text or an attribute node. -/
def ShowsText (f : Forest) (n : NodeId) : Prop := f.kind n = .text ∨ (f.kind n).isAttr = true

theorem ShowsText.lt_size (hn : f.ShowsText n) : n < f.size := by
  by_contra hlt
  have hkind := kind_of_size_le (Nat.le_of_not_lt hlt)
  rcases hn with hn | hn
  · rw [hkind] at hn
    cases hn
  · rw [hkind] at hn
    cases hn

/-- The forest in which a node shows another text, if there is one. -/
def showing (f : Forest) : Option (NodeId × String) → Forest
  | some (n, s) => f.writeData n fun _ => s
  | none => f

theorem placeText_of_showsText (hn : f.ShowsText n) (kind s : String) :
    f.placeText n kind s = (.ok (), f.showing (some (n, s))) := by
  rcases hn with hn | hn
  · simp only [placeText, setData, hn, placed, showing]
  · cases hk : f.kind n with
    | attr name =>
      simp only [placeText, setValue, setData, hk, Kind.isAttr, if_true, placed, showing]
    | _ =>
      rw [hk] at hn
      cases hn

/-- Nothing but data of nodes has changed. -/
structure Rewrites (f g : Forest) : Prop where
  size_eq : g.size = f.size
  kind_eq (m : NodeId) : g.kind m = f.kind m
  link_eq (m : NodeId) : g.link m = f.link m
  children_eq (m : NodeId) : g.children m = f.children m
  attributes_eq (m : NodeId) : g.attributes m = f.attributes m

theorem Rewrites.refl (f : Forest) : f.Rewrites f :=
  ⟨rfl, fun _ => rfl, fun _ => rfl, fun _ => rfl, fun _ => rfl⟩

theorem Rewrites.trans (hfg : f.Rewrites g) (hgh : g.Rewrites h) : f.Rewrites h where
  size_eq := hgh.size_eq.trans hfg.size_eq
  kind_eq m := (hgh.kind_eq m).trans (hfg.kind_eq m)
  link_eq m := (hgh.link_eq m).trans (hfg.link_eq m)
  children_eq m := (hgh.children_eq m).trans (hfg.children_eq m)
  attributes_eq m := (hgh.attributes_eq m).trans (hfg.attributes_eq m)

theorem rewrites_showing (f : Forest) (shown : Option (NodeId × String)) :
    f.Rewrites (f.showing shown) := by
  rcases shown with _ | ⟨n, s⟩
  · exact .refl f
  · exact ⟨by simp [showing], by simp [showing], by simp [showing], by simp [showing],
      by simp [showing]⟩

theorem Rewrites.showsText (hfg : f.Rewrites g) (hn : f.ShowsText n) : g.ShowsText n := by
  rw [ShowsText, hfg.kind_eq]
  exact hn

theorem data_showing_self (hn : f.ShowsText n) (text : Option String) :
    (f.showing (text.map (n, ·))).data n = text.getD (f.data n) := by
  cases text with
  | none => rfl
  | some s =>
    rw [Option.map_some, showing, data_writeData, if_pos ⟨rfl, hn.lt_size⟩]
    rfl

theorem data_showing_of_ne {shown : Option (NodeId × String)}
    (hne : ∀ p, shown = some p → p.1 ≠ n) : (f.showing shown).data n = f.data n := by
  rcases shown with _ | p
  · rfl
  · rw [showing, data_writeData, if_neg fun heq => hne p rfl heq.1.symm]

end Forest

/-! ### Onlookers -/

namespace Routine

/-- Whether a routine only reads signals and shows what it makes of them at one node. -/
def Looks (f : Forest) : Routine → Prop
  | script commands => Script.isReading commands = true
  | live value target => value.isReading = true ∧ f.ShowsText target
  | transition _ _ _ => False

/-- What it comes to to run a routine that looks on; the result is the text that is shown. -/
def reading (w : World) : Routine → Reading (Option (NodeId × String))
  | script commands => { Script.reading w commands with result := none }
  | live value target =>
    { value.reading w with result := (value.reading w).result.text?.map (target, ·) }
  | transition _ _ _ => pure none

theorem Looks.mono {routine : Routine} (hlooks : routine.Looks f)
    (hshows : ∀ {n}, f.ShowsText n → g.ShowsText n) : routine.Looks g := by
  cases routine with
  | script commands => exact hlooks
  | live value target => exact ⟨hlooks.1, hshows hlooks.2⟩
  | transition machine name step => exact hlooks

theorem fst_of_reading {routine : Routine} {p : NodeId × String}
    (h : (routine.reading w).result = some p) : routine.target? = some p.1 := by
  cases routine with
  | script commands => cases h
  | transition machine name step => cases h
  | live value target =>
    obtain ⟨s, -, rfl⟩ := Option.map_eq_some_iff.1 h
    rfl

end Routine

/-- The world after an onlooker has had its turn. -/
def World.looked (w : World) (o : ℕ) (ρ : Reading (Option (NodeId × String))) : World :=
  { w.setForest (w.forest.showing ρ.result) with
    log := w.log ++ ρ.notes
    signals := w.signals.modify (·.subscribeAll (ρ.reads.map fun s => (s, o))) }

namespace Run

variable {e : Expression} {routine : Routine} {o k : ℕ} {value : Spec} {commands : Script}

/-- What is plain is shown if it has a text, and otherwise nothing is changed. -/
theorem yields_apply_of_isPlain (he : e.IsPlain) (hn : w.forest.ShowsText n) :
    ∃ outcome, Yields (fun run => apply run e n) w outcome
      (w.setForest (w.forest.showing (e.text?.map (n, ·)))) := by
  have htext (kind s : String) : Activity.place (·.placeText n kind s) w =
      some (.ok (), w.setForest (w.forest.showing (some (n, s)))) := by
    rw [Activity.place, Forest.placeText_of_showsText hn]
  cases e with
  | empty => exact ⟨_, .of_eq fun _ => rfl⟩
  | text s => exact ⟨_, .of_eq fun _ => htext "text" s⟩
  | number x => exact ⟨_, .of_eq fun _ => htext "number" x.text⟩
  | bigint i => exact ⟨_, .of_eq fun _ => htext "bigint" (toString i)⟩
  | iterable items =>
    refine ⟨.error (w.forest.unsupported "iterable" n), .of_eq fun run => ?_⟩
    have hdiscard : Activity.discard items w = some ((), w) := by
      rw [Activity.discard, Activity.modify_apply, show Expression.channelsAll items = [] from he]
      rfl
    rw [apply, applyTo, Activity.get_bind]
    rcases hn with hn | hn
    · simp only [hn]
      exact Activity.bind_of_eq_some hdiscard
    · cases hk : w.forest.kind n with
      | attr name =>
        dsimp only
        exact Activity.bind_of_eq_some hdiscard
      | _ =>
        rw [hk] at hn
        cases hn
  | function b =>
    cases b with
    | fail fault => exact ⟨.error fault, .of_eq fun _ => rfl⟩
    | _ => exact he.elim
  | node v => exact he.elim
  | deferred promise => exact he.elim
  | capability name value => exact he.elim

theorem yields_showLive (hlike : w.Like w') (hvalue : value.isReading = true)
    (hn : w'.forest.ShowsText n) :
    Yields (fun run => showLive run value n) w' ()
      ((w'.recorded (value.reading w).notes (value.reading w).reads).setForest
        (w'.forest.showing ((value.reading w).result.text?.map (n, ·)))) := by
  have hbuild := (realises_build value hvalue w' hlike).job (j := .build value)
  obtain ⟨outcome, happly⟩ := yields_apply_of_isPlain
    (w := w'.recorded (value.reading w).notes (value.reading w).reads)
    (Spec.isPlain_reading value hvalue) hn
  exact hbuild.bind ((happly.job (j := .apply _ n)).bind (.of_eq fun _ => rfl))

/-- To run the routine of an onlooker records what it reads and shows what it makes of it. -/
theorem yields_routine_of_looks (hlike : w.Like w') (hroutine : w'.routines[k]? = some routine)
    (hlooks : routine.Looks w'.forest) :
    Yields (fun run => run (.routine k)) w' ()
      ((w'.recorded (routine.reading w).notes (routine.reading w).reads).setForest
        (w'.forest.showing (routine.reading w).result)) := by
  refine Yields.job (j := .routine k) ?_
  cases routine with
  | script commands =>
    refine (realises_body commands hlooks w' hlike).congr fun run => ?_
    change Run.routine run k w' = _
    rw [Run.routine, Activity.get_bind, hroutine]
  | live value target =>
    refine (yields_showLive hlike hlooks.1 hlooks.2).congr fun run => ?_
    change Run.routine run k w' = _
    rw [Run.routine, Activity.get_bind, hroutine]
  | transition machine name step => exact hlooks.elim

/-- An onlooker is subscribed to what it has read, and shows what it makes of it. -/
theorem yields_observer_of_looks (ho : w.signals.reactive.observers[o]? = some ⟨true, k⟩)
    (hroutine : w.routines[k]? = some routine) (hlooks : routine.Looks w.forest)
    (hfree : o ∉ w.signals.reactive.running) :
    Yields (fun run => run (.observer o)) w () (w.looked o (routine.reading w)) := by
  let inside := w.modifyReactive fun r => (r.start o).push (some o)
  have hlike : w.Like inside := ⟨rfl, fun _ => rfl, rfl⟩
  let after := (inside.recorded (routine.reading w).notes (routine.reading w).reads).setForest
    (inside.forest.showing (routine.reading w).result)
  have hend : (after.modifyReactive (·.pop)).modifyReactive (·.finish o) =
      w.looked o (routine.reading w) := by
    simp only [after, inside, World.recorded, World.setForest, World.modifyReactive, Signals.modify,
      Reactive.foldl_track_push, Reactive.finish_pop, World.looked]
    rfl
  have hcontains : w.signals.reactive.running.contains o = false := by simpa using hfree
  obtain ⟨enough, hyields⟩ := yields_routine_of_looks hlike hroutine hlooks
  refine Yields.job (j := .observer o) ⟨enough, fun fuel hfuel => ?_⟩
  have hobserving : observing (some o) (run fuel (.routine k)) (w.modifyReactive (·.start o)) =
      some ((), after.modifyReactive (·.pop)) :=
    observing_eq_some_iff.2 ⟨after, hyields fuel hfuel, rfl⟩
  change Run.observer (run fuel) o w = _
  rw [Run.observer, Activity.get_bind]
  simp only [ho, if_true, hcontains, Bool.false_eq_true, if_false, Activity.reactive_bind]
  rw [Activity.bind_of_eq_some hobserving, Activity.reactive_apply, hend]

/-- No turn is given to an observer that is not there. -/
theorem yields_observer_of_none (ho : w.signals.reactive.observers[o]? = none) :
    Yields (fun run => run (.observer o)) w () w := by
  refine Yields.job (j := .observer o) (.of_eq fun run => ?_)
  change Run.observer run o w = _
  rw [Run.observer, Activity.get_bind, ho]
  rfl

/-! ### Flushes -/

/-- What every turn keeps is kept by the flush, if no turn changes the batch. -/
theorem exists_flush {P : ℕ → World → Prop} {order : List ℕ}
    (hpending : ∀ i v, P i v → v.signals.reactive.pending = order)
    (hturn : ∀ i o v, order[i]? = some o → P i v →
      ∃ v', Yields (fun run => run (.observer o)) v () v' ∧ P (i + 1) v') {i : ℕ} (hP : P i w)
    (hi : i ≤ order.length) :
    ∃ w', Yields (fun run => run (.flush i)) w () (w'.modifyReactive (·.closeBatch)) ∧
      P order.length w' := by
  -- The induction is on the number of turns that are left.
  induction hleft : order.length - i generalizing i w with
  | zero =>
    obtain rfl : i = order.length := by omega
    have hplace : w.signals.reactive.pending[order.length]? = none := by
      rw [hpending _ w hP, List.getElem?_eq_none le_rfl]
    refine ⟨w, Yields.job (j := .flush order.length) (.of_eq fun run => ?_), hP⟩
    change Run.flush run order.length w = _
    rw [Run.flush, Activity.get_bind, hplace]
    rfl
  | succ left ih =>
    have hlt : i < order.length := by omega
    have hplace : w.signals.reactive.pending[i]? = some order[i] := by
      rw [hpending i w hP, List.getElem?_eq_getElem hlt]
    obtain ⟨v, hfirst, hv⟩ := hturn i _ w (List.getElem?_eq_getElem hlt) hP
    obtain ⟨w', hrest, hw'⟩ := ih hv hlt (by omega)
    have hboth : Yields (fun run => do
        run (.observer order[i])
        run (.flush (i + 1))) w () (w'.modifyReactive (·.closeBatch)) := hfirst.bind hrest
    refine ⟨w', Yields.job (j := .flush i) (hboth.congr fun run => ?_), hw'⟩
    change Run.flush run i w = _
    rw [Run.flush, Activity.get_bind, hplace]

theorem Does.yields {j : Job} {x : j.Result} {order : List ℕ} (h : Does j w x w' order) :
    Yields (fun run => run j) w x w' :=
  let ⟨enough, h⟩ := h
  ⟨enough, fun fuel hfuel => (h fuel hfuel).1⟩

/-- If the queue holds a flush only, and the flush queues nothing, draining is flushing. -/
theorem yields_drain (hqueue : w.signals.reactive.queue = [.flush])
    (hflush : Yields (fun run => run (.flush 0))
      (w.modifyReactive fun r => { r with queue := [] }) () w')
    (hempty : w'.signals.reactive.queue = []) : Yields (fun run => run (.drain 0)) w 1 w' := by
  have hrest := (does_drain_of_empty 1 hempty).yields
  have hboth : Yields (fun run => do
      run (.flush 0)
      run (.drain 1)) (w.modifyReactive fun r => { r with queue := [] }) 1 w' := hflush.bind hrest
  refine Yields.job (j := .drain 0) (hboth.congr fun run => ?_)
  have hnext : nextMicrotask w =
      some (some .flush, w.modifyReactive fun r => { r with queue := [] }) := by
    rw [nextMicrotask, hqueue]
  change Run.drain run 0 w = _
  rw [Run.drain, Activity.bind_of_eq_some hnext]

/-- The same command at two depths leads to the same world. -/
theorem Yields.unique {α : Type} {action : Runner → Activity α} {x y : α} {v : World}
    (h : Yields action w x w') (h' : Yields action w y v) : x = y ∧ w' = v := by
  obtain ⟨enough, h⟩ := h
  obtain ⟨enough', h'⟩ := h'
  have hboth := (h _ (le_max_left enough enough')).symm.trans (h' _ (le_max_right enough enough'))
  exact Prod.mk.inj (Option.some.inj hboth)

end Run

end LiveMarkup
