import LiveMarkup.Proofs.Reactive.Fidelity

/-!
# Lost updates

When the queue has been drained outside of all observers and tasks, an effect can be out of date: a
signal that it read in its latest run has been changed since, and nothing is going to run it.  That
happens exactly if it has missed the change (`stale_iff_missed`): the observer is still in the batch
when the signal changes, so it is not put there again, but it has already had its turn, or its turn
comes while it is still running.

In `lostUpdate` two effects are in one batch; the second to have its turn updates a signal that the
first has read.
-/

namespace LiveMarkup

open History

variable {h : History} {w w' : World}

/-- What is released belongs to no history of signals. -/
theorem carried_perform {fuel : Nat} {watch : List String} {c : Command} {report : StepReport}
    (ht : Tells h w) (hc : c.isReactive = true)
    (hrun : w.perform fuel watch c = some (report, w')) :
    Carried h (h ++ Run.deeds fuel (.command c) { w with log := [] }) w' ∧
      (c = .runMicrotasks → w'.signals.reactive.queue = []) := by
  have ht' : Tells h { w with log := [] } := ht.of_eq rfl rfl rfl
  unfold World.perform at hrun
  cases hcommand : Run.run fuel (.command c) { w with log := [] } with
  | none => rw [hcommand] at hrun; cases hrun
  | some p =>
    obtain ⟨reply, w₁⟩ := p
    rw [hcommand] at hrun
    obtain rfl := (Prod.mk.inj (Option.some.inj hrun)).2
    have hcarried := (Run.faithful fuel).command ht' hc hcommand
    refine ⟨⟨hcarried.tells.of_eq rfl rfl rfl, hcarried.executing_eq, hcarried.taken_eq⟩, ?_⟩
    rintro rfl
    cases fuel with
    | zero => cases hcommand
    | succ fuel =>
      obtain ⟨n, w₂, hdrain, hrest⟩ := Activity.bind_eq_some_iff.1 hcommand
      obtain rfl := (Prod.mk.inj (Option.some.inj hrest)).2
      exact ((Run.faithful fuel).drain ht' hdrain).2

/-- A session of a reactive script carries a history on. -/
theorem carried_performAll {fuel : Nat} {watch : List String} {cs : List Command}
    {reports : List StepReport} (ht : Tells h w) (hcs : areReactive cs = true)
    (hrun : w.performAll fuel watch (cs ++ [.runMicrotasks]) = some (reports, w')) :
    Carried h (h ++ w.deedsAll fuel watch (cs ++ [.runMicrotasks])) w' ∧
      w'.signals.reactive.queue = [] := by
  induction cs generalizing h w reports with
  | nil =>
    rw [List.nil_append, World.performAll] at hrun
    rw [List.nil_append, World.deedsAll]
    cases hstep : w.perform fuel watch .runMicrotasks with
    | none => rw [hstep] at hrun; cases hrun
    | some p =>
      obtain ⟨report, w₁⟩ := p
      rw [hstep] at hrun
      obtain rfl := (Prod.mk.inj (Option.some.inj hrun)).2
      obtain ⟨hcarried, hqueue⟩ := carried_perform ht rfl hstep
      simp only [World.deedsAll, List.append_nil]
      exact ⟨hcarried, hqueue rfl⟩
  | cons c cs ih =>
    obtain ⟨hc, hcs⟩ := Bool.and_eq_true_iff.1 hcs
    rw [List.cons_append, World.performAll] at hrun
    rw [List.cons_append, World.deedsAll]
    cases hstep : w.perform fuel watch c with
    | none => rw [hstep] at hrun; cases hrun
    | some p =>
      obtain ⟨report, w₁⟩ := p
      simp only [hstep] at hrun ⊢
      cases hrest : w₁.performAll fuel watch (cs ++ [.runMicrotasks]) with
      | none => rw [hrest] at hrun; cases hrun
      | some q =>
        obtain ⟨rest, w₂⟩ := q
        rw [hrest] at hrun
        obtain rfl := (Prod.mk.inj (Option.some.inj hrun)).2
        obtain ⟨hcarried, -⟩ := carried_perform ht hc hstep
        obtain ⟨hcarried', hqueue⟩ := ih hcarried.tells hcs hrest
        rw [← List.append_assoc]
        exact ⟨hcarried.trans hcarried', hqueue⟩

theorem tells_fresh (base : String) : Tells [] (World.fresh base) :=
  ⟨rfl, orderly_nil, ⟨fun hn => by simp [World.fresh] at hn, fun hg => by cases hg⟩⟩

/-- After every session of a reactive script that ends with the draining of the queue, exactly the
effects that have missed a change are stale.  The history of the session, which both speak of, leads
to the state of the signals that the session ends with. -/
theorem stale_iff_missed {fuel : Nat} {watch : List String} {base : String} {cs : List Command}
    {reports : List StepReport} {w : World} (hcs : areReactive cs = true)
    (hrun : (World.fresh base).performAll fuel watch (cs ++ [.runMicrotasks]) =
      some (reports, w)) :
    let h : History := (World.fresh base).deedsAll fuel watch (cs ++ [.runMicrotasks])
    w.signals.reactive = h.state ∧ ∀ o s, h.Stale o s ↔ h.Missed o s := by
  obtain ⟨hcarried, hqueue⟩ := carried_performAll (tells_fresh base) hcs hrun
  rw [List.nil_append] at hcarried
  refine ⟨hcarried.tells.state_eq, fun o s => hcarried.tells.orderly.stale_iff ?_ ?_⟩
  · rw [hcarried.executing_eq]
    rfl
  · rw [← hcarried.tells.state_eq, hqueue]

/-- An effect shows two signals, and another updates one of them whenever a third is changed. -/
def lostUpdate : List Command :=
  [.signal (.create "x" (.int 0) false), .signal (.create "y" (.int 0) false),
    .signal (.create "s" (.int 0) false),
    .effect [.signal (.read "x" .tracked false), .signal (.read "s" .tracked false)] none false,
    .effect [.signal (.read "y" .tracked false), .signal (.update "s" (.int 1) false)] none false,
    .runMicrotasks, .signal (.set "x" (.int 1) false), .signal (.set "y" (.int 1) false)]

/-- The history of `lostUpdate` and of the draining that follows it. -/
def lostUpdateHistory : History :=
  (World.fresh "a").deedsAll 7 [] (lostUpdate ++ [.runMicrotasks])

theorem stale_missed_lostUpdate :
    areReactive lostUpdate = true ∧
      (∃ reports w, (World.fresh "a").performAll 7 [] (lostUpdate ++ [.runMicrotasks]) =
        some (reports, w)) ∧
      lostUpdateHistory.Stale 0 2 ∧ lostUpdateHistory.Missed 0 2 := by
  have hcs : areReactive lostUpdate = true := by decide +kernel
  have hsome :
      ((World.fresh "a").performAll 7 [] (lostUpdate ++ [.runMicrotasks])).isSome = true := by
    decide +kernel
  obtain ⟨⟨reports, w⟩, hrun⟩ := Option.isSome_iff_exists.1 hsome
  -- The first effect reads the signal as the deed 33, the second updates it as the deed 40.
  have hread : Read (lostUpdateHistory.take 40) 0 2 := by
    refine ⟨lostUpdateHistory.take 33, (lostUpdateHistory.take 40).drop 34, ?_, ?_, ?_⟩
    all_goals decide +kernel
  have hstale : lostUpdateHistory.Stale 0 2 := by
    refine ⟨lostUpdateHistory.take 40, .update 2 (.int 1), lostUpdateHistory.drop 41, ?_, rfl,
      hread,
      ?_⟩
    all_goals decide +kernel
  exact ⟨hcs, ⟨reports, w, hrun⟩, hstale, ((stale_iff_missed hcs hrun).2 0 2).1 hstale⟩

end LiveMarkup
