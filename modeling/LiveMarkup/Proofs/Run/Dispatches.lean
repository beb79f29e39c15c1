import LiveMarkup.Proofs.Markup.Shapes
import LiveMarkup.Proofs.Run.Occurrences

/-!
# What dispatches do

In every session of eventful scripts a listener that runs once is invoked at most once, and a
dispatch whose listeners leave the tree alone invokes exactly those it should, in order
(`dispatched_once_in_order`).

A listener that has been removed is collected by no event any more.  But an event that had collected
it before it was removed still invokes it when its turn comes (`invoked_after_removal`), and nothing
else does (`invoked_of_removed`).
-/

namespace LiveMarkup

open Forest Run

/-! ### Listeners that have been removed -/

/-- A handler that removes the listener that comes after its own. -/
def removal : List Command :=
  [.page (.element "button" "b"),
    .listen "b" "click" (.script [.page (.unlisten "b" "next")]) false none,
    .listen "b" "click" (.script [.log "hi"]) false (some "next"), .dispatch "b" "click"]

/-- A listener that has been removed with success can still be invoked: by an event that had
collected it before. -/
theorem invoked_after_removal :
    ¬ ∀ (base : String) (fuel : Nat) (cs : List Command), areEventful cs = true →
      ∀ (before : List Occurrence) (n : NodeId) (id : Nat) (after : List Occurrence),
        (World.fresh base).occurrencesAll fuel cs = before ++ .unlisten n id true :: after →
          ∀ l ∈ invoked after, l.id ≠ id := by
  intro h
  have hsplit : (World.fresh "a").occurrencesAll 6 removal =
      [.release [], .listen 2 ⟨0, "click", false, 0⟩, .release [],
        .listen 2 ⟨1, "click", false, 1⟩, .release [],
        .reach 2 "click" [⟨0, "click", false, 0⟩, ⟨1, "click", false, 1⟩],
        .invoke ⟨0, "click", false, 0⟩] ++
      .unlisten 2 1 true :: [.invoke ⟨1, "click", false, 1⟩, .leave, .release []] := by
    decide +kernel
  exact h "a" 6 removal (by decide +kernel) _ 2 1 _ hsplit ⟨1, "click", false, 1⟩ (by decide) rfl

/-- Once a listener has been removed with success it is registered nowhere any more, and no event
that comes to a node collects it.  It is invoked as often as it is still to be invoked by the events
that had collected it before it was removed, unless they come to no end. -/
theorem invoked_of_removed (base : String) (fuel : Nat) (cs : List Command)
    (hcs : areEventful cs = true) :
    let os := (World.fresh base).occurrencesAll fuel cs
    Registry.empty.Allows os ∧
    (∀ watch reports w, (World.fresh base).performAll fuel watch cs = some (reports, w) →
      (Registry.empty.after os).Describes w) ∧
    ∀ (before : List Occurrence) (n : NodeId) (id : Nat) (after : List Occurrence),
      os = before ++ .unlisten n id true :: after →
        (∀ middle rest, after = middle ++ rest →
          ∀ e ∈ (Registry.empty.after (before ++ .unlisten n id true :: middle)).entries,
            e.2.id ≠ id) ∧
        (∀ m event ls, .reach m event ls ∈ after → ∀ l ∈ ls, l.id ≠ id) ∧
        (invoked after).countP (·.id == id) + (Registry.empty.after os).due id =
          (Registry.empty.after before).due id := by
  intro os
  have hfresh := describes_fresh base
  have hallows : Registry.empty.Allows os := (follows_performAll fuel [] hfresh hcs).1
  refine ⟨hallows, fun watch reports w hw => (follows_performAll fuel watch hfresh hcs).2 _ _ hw,
    fun before n id after hos => ?_⟩
  obtain ⟨hbefore, hremove, hafter⟩ := Registry.allows_append.1 (hos ▸ hallows)
  have hgone := (Registry.numbered_empty.after hbefore).gone hremove
  refine ⟨fun middle rest hsplit e he => ?_, fun m event ls hmem l hl =>
    hgone.not_collected hafter hmem hl, ?_⟩
  · have hmiddle := (Registry.allows_append.1 (hsplit ▸ hafter)).1
    rw [Registry.after_append] at he
    exact (hgone.after hmiddle).1.not_registered he
  · have hcount := (hgone.after hafter).2
    rw [hos, Registry.after_append]
    exact hcount

/-- A listener that runs once removes the next one and dispatches the event again. -/
def nestedRemoval : List Command :=
  [.page (.element "button" "b"),
    .listen "b" "click" (.script [.page (.unlisten "b" "next"), .dispatch "b" "click"]) true none,
    .listen "b" "click" (.script [.log "hi"]) false (some "next"), .dispatch "b" "click"]

/-- The event that is dispatched after the removal does not invoke the listener, and the one that
had collected it does. -/
theorem invoked_of_removed_nestedRemoval :
    ∃ before after : List Occurrence,
      areEventful nestedRemoval = true ∧
      (World.fresh "a").occurrencesAll 8 nestedRemoval = before ++ .unlisten 2 1 true :: after ∧
      .reach 2 "click" [] ∈ after ∧ (Registry.empty.after before).due 1 = 1 ∧
      (∀ m event ls, .reach m event ls ∈ after → ∀ l ∈ ls, l.id ≠ 1) ∧
      (invoked after).countP (·.id == 1) = 1 := by
  have hcs : areEventful nestedRemoval = true := by decide +kernel
  have hsplit : (World.fresh "a").occurrencesAll 8 nestedRemoval =
      [.release [], .listen 2 ⟨0, "click", true, 0⟩, .release [],
        .listen 2 ⟨1, "click", false, 1⟩, .release [],
        .reach 2 "click" [⟨0, "click", true, 0⟩, ⟨1, "click", false, 1⟩],
        .invoke ⟨0, "click", true, 0⟩] ++
      .unlisten 2 1 true :: [.reach 2 "click" [], .leave, .invoke ⟨1, "click", false, 1⟩, .leave,
        .release []] := by
    decide +kernel
  obtain ⟨-, hcollected, hcount⟩ :=
    (invoked_of_removed "a" 8 nestedRemoval hcs).2.2 _ 2 1 _ hsplit
  have hdue :
      (Registry.empty.after ((World.fresh "a").occurrencesAll 8 nestedRemoval)).due 1 = 0 := by
    rw [hsplit]
    decide
  refine ⟨_, _, hcs, hsplit, List.mem_cons_self, by decide, hcollected, ?_⟩
  rw [hdue, Nat.add_zero] at hcount
  exact hcount.trans (by decide)

/-! ### Listeners that run once, and the way of an event -/

/-- In every session of eventful scripts, whether it comes to an end or not, no listener that runs
once is invoked twice.  And if each listener that an event invokes comes to an end and leaves the
parents and the listeners of all nodes alone, the dispatch comes to an end too: the event goes from
its target through the ancestors from the inside out until it is stopped, invokes at each node all
listeners of its type in the order of registration, with its target and this node as the current
one, and exactly those of them that run once are not registered any more. -/
theorem dispatched_once_in_order :
    (∀ (base : String) (fuel : Nat) (cs : List Command), areEventful cs = true →
      let os := (World.fresh base).occurrencesAll fuel cs
      Registry.empty.Allows os ∧
      (∀ watch reports w, (World.fresh base).performAll fuel watch cs = some (reports, w) →
        (Registry.empty.after os).Describes w) ∧
      (onceIds (invoked os)).Nodup) ∧
    ∀ (w : World) (fuel : Nat) (target : NodeId) (event : String), w.forest.Sound →
      (w.forest.ancestors target).length ≤ fuel →
      let vs := visits fuel target (w.handle event target)
      (∀ x ∈ vs, ∀ i ∈ x.invocations, i.Spares) →
        ∃ e v, dispatch (Run.run fuel) target event w = some (.event (v.page.report e), v) ∧
          e.frame = ⟨event, target, none⟩ ∧ v.page.frames = w.page.frames ∧
          InOrder w.page.frames target event (w.forest.ancestors target) w v vs ∧
          ∀ m l, l ∈ v.forest.listeners m ↔ l ∈ w.forest.listeners m ∧
            ¬ (l.once = true ∧ ∃ x ∈ vs, x.node = m ∧ ∃ i ∈ x.invocations, i.listener = l) := by
  refine ⟨fun base fuel cs hcs => ?_, fun w fuel target event hf hfuel => ?_⟩
  · intro os
    have hfresh := describes_fresh base
    have hallows : Registry.empty.Allows os := (follows_performAll fuel [] hfresh hcs).1
    exact ⟨hallows, fun watch reports w hw => (follows_performAll fuel watch hfresh hcs).2 _ _ hw,
      Registry.nodup_invoked_once hallows⟩
  · intro vs hspares
    obtain ⟨e, v, hrun, hframe, hlasts, horder⟩ := exists_inOrder hf hfuel hspares
    exact ⟨e, v, hrun, hframe, hlasts.frames_eq, horder, fun m l => horder.mem_listeners_iff⟩

/-- A button in a paragraph in a box, with listeners to several events at each of them. -/
def clickPage : Page :=
  let f := (Forest.empty.plant (.element "div" [] [.element "p" [] [.element "button" [] []]])).2
  let p := (Page.listen { Page.fresh with forest := f } 2 "click" 0 true).2
  let p := (p.listen 2 "key" 0 true).2
  let p := (p.listen 2 "click" 0 false).2
  let p := (p.listen 1 "click" 1 false).2
  let p := (p.listen 1 "click" 0 true).2
  (p.listen 0 "click" 0 true).2

/-- A world with this page, in which one routine does nothing to it and the other stops the event.
-/
def clickWorld : World :=
  { World.fresh "a" with
    page := clickPage
    routines := #[.script [.log "run"], .script [.page (.event .stop)]] }

theorem sound_clickWorld : clickWorld.forest.Sound := by
  have hlisten (p : Page) (hp : p.forest.Sound) (n : NodeId) (event : String) (k : Nat)
      (once : Bool) : (p.listen n event k once).2.forest.Sound := hp.modify_listeners (· ++ [_]) n
  change clickPage.forest.Sound
  unfold clickPage
  iterate 6 refine hlisten _ ?_ _ _ _ _
  exact Sound.empty.plant _ (by simp [Tree.Named, Tree.NamedAll])

/-- The paragraph stops the event when the button has run its listeners, and runs all of its own. -/
theorem dispatched_once_in_order_clickWorld :
    areEventful nestedRemoval = true ∧
    (onceIds (invoked ((World.fresh "a").occurrencesAll 8 nestedRemoval))).Nodup ∧
    clickWorld.forest.Sound ∧ clickWorld.forest.ancestors 2 = [2, 1, 0] ∧
    ((visits 4 2 (clickWorld.handle "click" 2)).map fun x =>
      (x.node, x.invocations.map (·.listener.id))) = [(2, [0, 2]), (1, [3, 4])] ∧
    ∃ e v, dispatch (Run.run 4) 2 "click" clickWorld = some (.event (v.page.report e), v) ∧
      e.frame = ⟨"click", 2, none⟩ ∧
      InOrder [] 2 "click" [2, 1, 0] clickWorld v (visits 4 2 (clickWorld.handle "click" 2)) := by
  have hcs : areEventful nestedRemoval = true := by decide +kernel
  have hup : clickWorld.forest.ancestors 2 = [2, 1, 0] := by decide +kernel
  have hspares : ∀ x ∈ visits 4 2 (clickWorld.handle "click" 2), ∀ i ∈ x.invocations,
      i.Spares := by
    have hall : ((visits 4 2 (clickWorld.handle "click" 2)).all fun x => x.invocations.all fun i =>
        i.after.any fun v => v.forest == i.before.forest) = true := by decide +kernel
    intro x hx i hi
    have hi := List.all_eq_true.1 (List.all_eq_true.1 hall x hx) i hi
    cases hafter : i.after with
    | none => simp [hafter] at hi
    | some v =>
      rw [hafter, Option.any_some, beq_iff_eq] at hi
      exact ⟨v, hafter, hi ▸ .refl _⟩
  obtain ⟨honce, horder⟩ := dispatched_once_in_order
  obtain ⟨e, v, hrun, hframe, -, hinOrder, -⟩ :=
    horder clickWorld 4 2 "click" sound_clickWorld (by rw [hup]; decide) hspares
  rw [hup] at hinOrder
  exact ⟨hcs, (honce "a" 8 nestedRemoval hcs).2.2, sound_clickWorld, hup, by decide +kernel, e, v,
    hrun, hframe, hinOrder⟩

end LiveMarkup
