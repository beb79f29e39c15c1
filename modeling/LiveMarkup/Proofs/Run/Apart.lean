import LiveMarkup.Proofs.Run.Accounts

/-!
# Screens that do not leak into each other

Screens are mounted, saved and mounted again, and values come for the comments that were put into
them, in any order (`Screens.Course`).  Whatever has happened, each value that comes lands at its
own comment, wherever that is, and a value whose comment is on no screen any more changes no screen
(`Screens.apart_of_course`).
-/

namespace LiveMarkup

open Forest

variable {m : Mount} {s : Screens} {w w' w₀ : World} {k : ℕ} {n p : NodeId} {e : Expression}
  {run : Runner}

/-! ### What happens to screens -/

/-- What happens to the screens of a mount. -/
inductive Act where
  | mount (content : Expression) (cls : Option String)
  | save
  /-- The value of a task has come. -/
  | complete (task : ℕ) (value : Expression)

namespace Act

/-- What is done: a value that has come is bound to the node at which its task waits, and the task
ends. -/
def perform (run : Runner) (m : Mount) : Act → Activity (Except RenderFault Unit)
  | mount content cls => Run.mountAt run m content cls
  | save => do
    modify fun w => { w with page := (w.page.save m).2 }
    return .ok ()
  | complete task value => fun w =>
    match w.taskTarget? task with
    | none => some (.ok (), w)
    | some n =>
      (do
        if ← Run.fulfil run value n then Activity.schedule fun s => ((), s.finish task)
        return .ok () : Activity _) w

/-- Whether something can happen.  Content and values are built from nothing, texts, nodes, lists
and values that come later, and the nodes can be put where they are to go; a value for which there
is no place any more may be anything that runs no code. -/
def Fits (m : Mount) (s : Screens) (w : World) : Act → Prop
  | mount content _ => Screens.Admits w m.container content
  | save => True
  | complete task value => task ∈ s.due ∧
    match s.home? m task with
    | some p => Screens.Admits w p value
    | none => value.Inert

/-- The account afterwards. -/
def account (m : Mount) (s : Screens) (w : World) : Act → Screens
  | mount content cls => s.mount m w content cls
  | save => s.save m w.forest.size
  | complete task value => s.complete m w task value

end Act

/-! ### Values that come -/

namespace Run

/-- The value for the node at which a task waits is there when the task is polled: it is built then,
or what has been sent is, and if nothing can be sent any more the value is empty. -/
inductive Comes (run : Runner) (k : ℕ) (w : World) : Expression → NodeId → World → Prop
  | value {value : Spec} {e : Expression} {n : NodeId} {w' : World} :
    w.tasks.scheduler.program k = .deferred (.value value) n →
      run (.build value) w = some (e, w') → Comes run k w e n w'
  | message {c : ℕ} {message : Message} {s : Scheduler} {e : Expression} {n : NodeId} {w' : World} :
    w.tasks.scheduler.program k = .deferred (.channel c) n →
      w.tasks.scheduler.receive k c = (.message message, s) →
      run (.build message.value) (w.setScheduler s) = some (e, w') → Comes run k w e n w'
  | canceled {c : ℕ} {s : Scheduler} {n : NodeId} :
    w.tasks.scheduler.program k = .deferred (.channel c) n →
      w.tasks.scheduler.receive k c = (.canceled, s) → Comes run k w .empty n (w.setScheduler s)

theorem Comes.pollTask (h : Comes run k w e n w') : pollTask run k w = fulfil run e n w' := by
  cases h with
  | value hprogram hbuild =>
    rw [Run.pollTask, Activity.get_bind, hprogram]
    exact Activity.bind_of_eq_some hbuild
  | message hprogram hreceive hbuild =>
    rw [Run.pollTask, Activity.get_bind, hprogram]
    exact (Activity.bind_of_eq_some (Activity.schedule_of_eq hreceive)).trans
      (Activity.bind_of_eq_some hbuild)
  | canceled hprogram hreceive =>
    rw [Run.pollTask, Activity.get_bind, hprogram]
    exact (Activity.bind_of_eq_some (Activity.schedule_of_eq hreceive)).trans rfl

theorem eq_true_of_fulfil {b : Bool} (h : fulfil run e n w = some (b, w')) : b = true := by
  obtain ⟨outcome, w₁, -, h⟩ := Activity.bind_eq_some_iff.1 h
  rcases outcome with fault | u
  · obtain ⟨u, w₂, -, h⟩ := Activity.bind_eq_some_iff.1 h
    exact (Prod.mk.inj (Option.some.inj h)).1.symm
  · exact (Prod.mk.inj (Option.some.inj h)).1.symm

/-- Polling a task whose value is there completes the task. -/
theorem poll_eq_perform {s : Scheduler} (count polled yielded : ℕ) (m : Mount)
    (hnext : w.tasks.scheduler.next? = some (k, s)) (hactive : s.pool.active.contains k = true)
    (hcomes : Comes run k (w.setScheduler s) e n w') (hn : w'.taskTarget? k = some n) :
    poll run count polled yielded w =
      ((Act.complete k e).perform run m w').map fun x => ((), x.2) := by
  rw [poll, Activity.get_bind, hnext]
  simp only [Act.perform, hn, Activity.set_bind, if_pos hactive]
  rcases hfulfil : fulfil run e n w' with _ | ⟨b, w₁⟩
  · rw [Activity.bind_of_eq_none (hcomes.pollTask.trans hfulfil), Activity.bind_of_eq_none hfulfil]
    rfl
  · obtain rfl := eq_true_of_fulfil hfulfil
    rw [Activity.bind_of_eq_some (hcomes.pollTask.trans hfulfil), Activity.bind_of_eq_some hfulfil]
    rfl

end Run

/-- A task whose value has come binds the value and ends, whether the value is refused or not. -/
theorem exists_perform_complete {outcome : Except RenderFault Unit} (fuel : ℕ) (m : Mount)
    (hn : w.taskTarget? k = some n)
    (happly : ∀ run, Run.applyTo run (Run.bind run) n e w = some (outcome, w')) :
    ∃ w'', (Act.complete k e).perform (Run.run (fuel + 1)) m w = some (.ok (), w'') ∧
      w''.forest = w'.forest ∧
      w''.tasks.scheduler.programs = w'.tasks.scheduler.programs := by
  have happly' : Run.run (fuel + 1) (.apply e n) w = some (outcome, w') := happly (Run.run fuel)
  have hfulfil : ∃ w'', Run.fulfil (Run.run (fuel + 1)) e n w = some (true, w'') ∧
      w''.forest = w'.forest ∧
      w''.tasks.scheduler.programs = w'.tasks.scheduler.programs := by
    rcases outcome with fault | u
    · refine ⟨w'.setScheduler (w'.tasks.scheduler.addError fault.message), ?_, rfl, rfl⟩
      rw [Run.fulfil, Activity.bind_of_eq_some happly']
      rfl
    · refine ⟨w', ?_, rfl, rfl⟩
      rw [Run.fulfil, Activity.bind_of_eq_some happly']
      rfl
  obtain ⟨w'', hfulfil, hforest, hprograms⟩ := hfulfil
  refine ⟨w''.setScheduler (w''.tasks.scheduler.finish k), ?_, hforest, hprograms⟩
  simp only [Act.perform, hn]
  rw [Activity.bind_of_eq_some hfulfil]
  rfl

namespace Screens

theorem Lands.of_eq {w'' : World} {ns : List NodeId} (hl : s.Lands m w w' p n ns e)
    (hforest : w''.forest = w'.forest)
    (hprograms : w''.tasks.scheduler.programs = w'.tasks.scheduler.programs) :
    s.Lands m w w'' p n ns e := by
  have htarget (k : ℕ) : w''.taskTarget? k = w'.taskTarget? k :=
    World.taskTarget?_congr (by rw [Scheduler.program, hprograms, Scheduler.program])
  refine ⟨hl.mem_children, hl.depicts.imp fun l x hx => ?_, hforest ▸ hl.children_place,
    fun hq hqp => hforest ▸ hl.children_eq hq hqp, hforest ▸ hl.class_eq⟩
  exact hx.congr (by rw [hforest]) (fun _ => by rw [hforest]) (fun _ => by rw [hforest])
    fun k hk => (htarget k).trans hk

namespace Shows

variable (hs : s.Shows m w)

include hs

/-- A value that comes for a comment on a screen lands at the comment. -/
theorem exists_complete (hhome : s.home? m k = some p) (ha : Admits w p e) (fuel : ℕ) :
    ∃ n ns w', w.taskTarget? k = some n ∧
      (Act.complete k e).perform (Run.run (fuel + 1)) m w = some (.ok (), w') ∧
      s.Lands m w w' p n ns e ∧ (s.complete m w k e).Shows m w' := by
  obtain ⟨hp, hslot⟩ := of_home?_eq_some hhome
  obtain ⟨n, hn, hspot⟩ := hs.exists_spot hp hslot
  obtain ⟨g, ps, ns, happly, hlands, hshows⟩ := hs.exists_fill hspot ha
  obtain ⟨w', hperform, hforest, hprograms⟩ :=
    exists_perform_complete fuel m hn fun run => happly run (Run.bind run)
  refine ⟨n, ns, w', hn, hperform, hlands.of_eq hforest hprograms, ?_⟩
  rw [complete, hhome]
  exact hshows.of_eq hforest hprograms

/-- A value that comes for a comment without a parent changes no place. -/
theorem exists_complete_hidden (hk : k ∈ s.due) (hhome : s.home? m k = none) (he : e.Inert)
    (fuel : ℕ) :
    ∃ w', (Act.complete k e).perform (Run.run (fuel + 1)) m w = some (.ok (), w') ∧
      s.Untouched m w w' ∧ (s.complete m w k e).Shows m w' := by
  have hout : ¬ s.Shown m k := home?_eq_none_iff.1 hhome
  obtain ⟨n, hn, hwhere⟩ := hs.awaits hk
  have hnone : w.forest.parent n = none := hwhere.resolve_right hout
  obtain ⟨outcome, w₁, ps, happly, hext, hlen, hps⟩ :=
    Run.exists_extends he hs.sound hn.kind_eq hnone
  obtain ⟨w', hperform, hforest, hprograms⟩ :=
    exists_perform_complete fuel m hn.target_eq happly
  have hext' : w.Extends w' ps := ⟨hforest ▸ hext.sound, hforest ▸ hext.size_le,
    hforest ▸ hext.cell_eq, hprograms.trans hext.programs_eq⟩
  have hs' := hs.extend hext'
  have hu := Untouched.of_extends hs hext'
  refine ⟨w', hperform, hu, ?_⟩
  -- If the value itself comes later, it is awaited at the same comment.
  have hnew {j : ℕ} (hj : j ∈ List.range' w.taskCount e.lateAlone) : j = w.taskCount ∧
      w'.Awaits j n ∧ w'.forest.parent n = none := by
    rw [List.mem_range'_1] at hj
    have hone := e.lateAlone_le_one
    obtain ⟨p, rfl⟩ : ∃ p, ps = [p] := List.length_eq_one_iff.1 (by omega)
    obtain ⟨promise, rfl⟩ := hps p (List.mem_singleton_self p)
    obtain rfl : j = w.taskCount := by omega
    obtain ⟨hdata, hparent⟩ := hu.awaited hk hn.target_eq
    exact ⟨rfl, ⟨World.taskTarget?_append_new hext'.programs_eq, hn.lt_size.trans_le hu.size_le,
      (hu.kind_eq hn.lt_size).trans hn.kind_eq, hdata.trans hn.data_eq⟩, hparent.trans hnone⟩
  have hold {j : ℕ} (hj : j ∈ s.due.filter (· ≠ k)) :
      j ∈ s.due ∧ w'.taskTarget? j ≠ some n := by
    obtain ⟨hj, hjk⟩ := List.mem_filter.1 hj
    refine ⟨hj, fun htarget => of_decide_eq_true hjk ?_⟩
    exact hs'.target_inj hj hk (htarget.trans (hu.target_eq hn.target_eq).symm)
  rw [complete, hhome]
  refine ⟨hs'.sound, hs'.isElement, hs'.class_eq, hs'.kind_saved, hs'.depicts,
    fun {j} (hj : s.Shown m j) => ?_, fun {j} hj => ?_, fun {j l} hj hl hjl => ?_,
    fun {j} hj => ?_⟩
  · have hne : j ≠ k := fun e => hout (e ▸ hj)
    simp [hs.mem_due hj, hne]
  · rcases List.mem_append.1 hj with hj | hj
    · exact hs'.awaits (hold hj).1
    · exact ⟨n, (hnew hj).2.1, Or.inl (hnew hj).2.2⟩
  · rcases List.mem_append.1 hj with hj | hj <;> rcases List.mem_append.1 hl with hl | hl
    · exact hs'.target_inj (hold hj).1 (hold hl).1 hjl
    · exact absurd (hjl.trans (hnew hl).2.1.target_eq) (hold hj).2
    · exact absurd (hjl.symm.trans (hnew hj).2.1.target_eq) (hold hl).2
    · exact (hnew hj).1.trans (hnew hl).1.symm
  · rcases List.mem_append.1 hj with hj | hj
    · exact hs'.hidden hj
    · refine ⟨World.lt_taskCount (hnew hj).2.1.target_eq, fun hshown : s.Shown m j => ?_⟩
      obtain ⟨l, hl, -⟩ := hs.awaits (hs.mem_due hshown)
      exact absurd (World.lt_taskCount hl.target_eq) (Nat.not_lt_of_le (hnew hj).1.ge)

/-- Whatever can happen succeeds, and the account is right afterwards. -/
theorem exists_perform {act : Act} (hfits : act.Fits m s w) (fuel : ℕ) :
    ∃ w', act.perform (Run.run (fuel + 1)) m w = some (.ok (), w') ∧
      (act.account m s w).Shows m w' := by
  cases act with
  | mount content cls => exact hs.exists_mount hfits cls fuel
  | save => exact ⟨_, rfl, hs.save⟩
  | complete task value =>
    obtain ⟨hk, hfits⟩ := hfits
    rcases hhome : s.home? m task with _ | p
    · rw [hhome] at hfits
      obtain ⟨w', hperform, -, hshows⟩ := hs.exists_complete_hidden hk hhome hfits fuel
      exact ⟨w', hperform, hshows⟩
    · rw [hhome] at hfits
      obtain ⟨n, ns, w', -, hperform, -, hshows⟩ := hs.exists_complete hhome hfits fuel
      exact ⟨w', hperform, hshows⟩

end Shows

/-! ### Courses -/

theorem shows_start (hf : w.forest.Sound) (hm : (w.forest.kind m.container).isElement = true) :
    (start m w).Shows m w := by
  refine ⟨hf, hm, rfl, fun hp => absurd hp List.not_mem_nil, fun {p} hp => ?_, ?_,
    fun hk => absurd hk List.not_mem_nil, fun hj => absurd hj List.not_mem_nil,
    fun hk => absurd hk List.not_mem_nil⟩
  · obtain rfl := List.mem_singleton.1 hp
    simp only [start, if_pos]
    rw [List.forall₂_map_right_iff, List.forall₂_same]
    exact fun _ _ => rfl
  · rintro k ⟨p, hp, hk⟩
    obtain rfl := List.mem_singleton.1 hp
    simp [start] at hk

/-- What can come of a world when things happen to the screens of a mount, and other things between
them that leave the screens alone, with the account that is kept. -/
inductive Course (run : Runner) (m : Mount) (w₀ : World) : World → Screens → Prop
  | start : Course run m w₀ w₀ (.start m w₀)
  | act {w w' : World} {s : Screens} {act : Act} {outcome : Except RenderFault Unit} :
    Course run m w₀ w s → act.Fits m s w → act.perform run m w = some (outcome, w') →
      Course run m w₀ w' (act.account m s w)
  | meanwhile {w w' : World} {s : Screens} :
    Course run m w₀ w s → s.Untouched m w w' → Course run m w₀ w' s

/-- The account is right all the time. -/
theorem Course.shows {fuel : ℕ} (hf : w₀.forest.Sound)
    (hm : (w₀.forest.kind m.container).isElement = true)
    (hc : Course (Run.run (fuel + 1)) m w₀ w s) : s.Shows m w := by
  induction hc with
  | start => exact shows_start hf hm
  | act _ hfits hperform hs =>
    obtain ⟨w', hperform', hshows⟩ := hs.exists_perform hfits fuel
    obtain ⟨-, rfl⟩ := Prod.mk.inj (Option.some.inj (hperform'.symm.trans hperform))
    exact hshows
  | meanwhile _ hu hs => exact hs.untouched hu

/-- However screens are mounted, saved and mounted again, and values come: the account is right,
whatever can happen then succeeds, and the account is right afterwards; a value that comes lands at
its own comment, in the container or the saved fragment where that is; and a value whose screen has
been discarded changes neither the children of these nor the class of the container. -/
theorem apart_of_course {fuel : ℕ} (hf : w₀.forest.Sound)
    (hm : (w₀.forest.kind m.container).isElement = true)
    (hc : Course (Run.run (fuel + 1)) m w₀ w s) :
    s.Shows m w ∧
    (∀ act : Act, act.Fits m s w → ∃ w',
      act.perform (Run.run (fuel + 1)) m w = some (.ok (), w') ∧
        (act.account m s w).Shows m w') ∧
    (∀ k ∈ s.due, ∀ p e, s.home? m k = some p → Admits w p e → ∃ n ns w',
      w.taskTarget? k = some n ∧
        (Act.complete k e).perform (Run.run (fuel + 1)) m w = some (.ok (), w') ∧
        s.Lands m w w' p n ns e) ∧
    (∀ k ∈ s.discarded, k ∈ s.due → ∀ e : Expression, e.Inert → ∃ w',
      (Act.complete k e).perform (Run.run (fuel + 1)) m w = some (.ok (), w') ∧
        (∀ p ∈ s.places m, w'.forest.children p = w.forest.children p) ∧
        w'.forest.attrValue m.container "class" = w.forest.attrValue m.container "class") := by
  have hs := hc.shows hf hm
  refine ⟨hs, fun act hfits => hs.exists_perform hfits fuel, fun k _ p e hhome ha => ?_,
    fun k hdiscarded hk e he => ?_⟩
  · obtain ⟨n, ns, w', hn, hperform, hlands, -⟩ := hs.exists_complete hhome ha fuel
    exact ⟨n, ns, w', hn, hperform, hlands⟩
  · have hhome : s.home? m k = none := home?_eq_none_iff.2 (hs.hidden hdiscarded).2
    obtain ⟨w', hperform, hu, -⟩ := hs.exists_complete_hidden hk hhome he fuel
    exact ⟨w', hperform, fun p hp => hu.children_eq hp, hu.class_eq⟩

/-- The world and the account after something has happened. -/
def after (m : Mount) (x : World × Screens) (act : Act) : World × Screens :=
  (((act.perform (Run.run 1) m x.1).map Prod.snd).getD x.1, act.account m x.2 x.1)

theorem Course.after {x : World × Screens} (hf : w₀.forest.Sound)
    (hm : (w₀.forest.kind m.container).isElement = true)
    (hc : Course (Run.run 1) m w₀ x.1 x.2) (act : Act) (hfits : act.Fits m x.2 x.1) :
    Course (Run.run 1) m w₀ (after m x act).1 (after m x act).2 := by
  obtain ⟨w', hperform, -⟩ := (hc.shows hf hm).exists_perform hfits 0
  have hafter : (Screens.after m x act).1 = w' := by
    rw [Screens.after, hperform]
    rfl
  rw [hafter]
  exact hc.act hfits hperform

/-- The mount of a screen. -/
def homeMount : Mount := ⟨0, ""⟩

/-- A screen with two values that come later. -/
def homeContent : Expression :=
  .iterable [.text "Home", .deferred (.value (.text "warm")), .deferred (.value (.text "soon"))]

/-- A screen is saved, and another one is mounted. -/
def homeThenMenu : World × Screens :=
  let home := after homeMount (Run.homeWorld, .start homeMount Run.homeWorld)
    (.mount homeContent (some "home"))
  after homeMount (after homeMount home .save)
    (.mount (.deferred (.value (.text "late"))) (some "menu"))

/-- A value comes for the screen that has been saved, and this screen is mounted again. -/
def homeAgain : World × Screens :=
  after homeMount (after homeMount homeThenMenu (.complete 0 (.text "warm")))
    (.mount (.node 8) (some "home"))

theorem isElement_homeMount :
    (Run.homeWorld.forest.kind homeMount.container).isElement = true := by decide +kernel

theorem course_homeThenMenu :
    Course (Run.run 1) homeMount Run.homeWorld homeThenMenu.1 homeThenMenu.2 := by
  have hf := Run.sound_homeWorld
  have hm := isElement_homeMount
  have hstart : Course (Run.run 1) homeMount Run.homeWorld
    (Run.homeWorld, Screens.start homeMount Run.homeWorld).1
    (Run.homeWorld, Screens.start homeMount Run.homeWorld).2 := .start
  have hhome := hstart.after hf hm (.mount homeContent (some "home"))
    ⟨⟨trivial, trivial, trivial, trivial⟩, List.nodup_nil, nofun⟩
  exact (hhome.after hf hm .save trivial).after hf hm
    (.mount (.deferred (.value (.text "late"))) (some "menu")) ⟨trivial, List.nodup_nil, nofun⟩

theorem course_homeAgain :
    Course (Run.run 1) homeMount Run.homeWorld homeAgain.1 homeAgain.2 := by
  have hf := Run.sound_homeWorld
  have hm := isElement_homeMount
  have hplace : homeThenMenu.2.home? homeMount 0 = some 8 := by decide +kernel
  have hwarm := course_homeThenMenu.after hf hm (.complete 0 (.text "warm")) (by
    refine ⟨by decide +kernel, ?_⟩
    rw [hplace]
    exact ⟨trivial, List.nodup_nil, nofun⟩)
  refine hwarm.after hf hm (.mount (.node 8) (some "home")) ⟨trivial, List.nodup_singleton 8, ?_⟩
  intro v hv
  obtain rfl := List.mem_singleton.1 hv
  refine ⟨by decide +kernel, by decide +kernel, by decide +kernel, fun habove => ?_⟩
  exact absurd (habove.eq_of_parent_none (by decide +kernel)) (by decide)

/-- The value for the screen that is there again lands on it, and the value for the screen that has
been discarded does not. -/
theorem apart_of_course_homeAgain :
    ∃ w s, Course (Run.run 1) homeMount Run.homeWorld w s ∧
      (∃ w', (Act.complete 1 (.text "soon")).perform (Run.run 1) homeMount w = some (.ok (), w') ∧
        (w'.forest.children 0).map w'.forest.data = ["Home", "warm", "soon"]) ∧
      (∃ w', (Act.complete 2 (.text "late")).perform (Run.run 1) homeMount w = some (.ok (), w') ∧
        w'.forest.children 0 = w.forest.children 0 ∧
        w'.forest.attrValue 0 "class" = some "home") := by
  refine ⟨homeAgain.1, homeAgain.2, course_homeAgain, ?_⟩
  obtain ⟨-, -, hlands, hapart⟩ := apart_of_course Run.sound_homeWorld isElement_homeMount
    course_homeAgain
  constructor
  · obtain ⟨n, ns, w', hn, hperform, hl⟩ := hlands 1 (by decide +kernel) 0 (.text "soon")
      (by decide +kernel) ⟨trivial, List.nodup_nil, nofun⟩
    refine ⟨w', hperform, ?_⟩
    have hdata : ((Act.complete 1 (.text "soon")).perform (Run.run 1) homeMount homeAgain.1).map
        (fun x => (x.2.forest.children 0).map x.2.forest.data) =
          some ["Home", "warm", "soon"] := by decide +kernel
    rw [hperform] at hdata
    exact Option.some.inj hdata
  · obtain ⟨w', hperform, hchildren, hclass⟩ := hapart 2 (by decide +kernel) (by decide +kernel)
      (.text "late") trivial
    refine ⟨w', hperform, hchildren 0 List.mem_cons_self, hclass.trans ?_⟩
    decide +kernel

theorem perform_eq_after {x : World × Screens} {act : Act}
    (h : (act.perform (Run.run 1) m x.1).map (fun y => y.1.isOk) = some true) :
    act.perform (Run.run 1) m x.1 = some (.ok (), (after m x act).1) := by
  rcases hperform : act.perform (Run.run 1) m x.1 with _ | ⟨fault | ⟨⟩, w⟩
  · rw [hperform] at h
    cases h
  · rw [hperform] at h
    cases h
  · rw [after, hperform]
    rfl

/-- A value still lands on a screen after its own has been discarded if its comment, which is
detached by then, is mounted as a node; and a value that holds the place of its own comment does not
land at all. -/
theorem not_apart_of_detached :
    (∃ w₁ w₂ w₃ w₄ : World,
      (Act.mount (.deferred (.value (.text "late"))) none).perform (Run.run 1) homeMount
        Run.homeWorld = some (.ok (), w₁) ∧
      w₁.taskTarget? 0 = some 3 ∧ w₁.forest.children 0 = [3] ∧
      (Act.mount (.text "second") none).perform (Run.run 1) homeMount w₁ = some (.ok (), w₂) ∧
      w₂.forest.parent 3 = none ∧
      (Act.mount (.node 3) none).perform (Run.run 1) homeMount w₂ = some (.ok (), w₃) ∧
      (Act.complete 0 (.text "late")).perform (Run.run 1) homeMount w₃ = some (.ok (), w₄) ∧
      w₄.forest.children 0 ≠ w₃.forest.children 0) ∧
    ∃ w₁ w₂ : World,
      (Act.mount (.deferred (.value (.node "main"))) none).perform (Run.run 1) homeMount
        Run.homeWorld = some (.ok (), w₁) ∧
      w₁.taskTarget? 0 = some 3 ∧ w₁.forest.parent 0 = none ∧
      (Act.complete 0 (.node 0)).perform (Run.run 1) homeMount w₁ = some (.ok (), w₂) ∧
      w₁.forest.children 0 = [3] ∧ w₂.forest.children 0 = [3] := by
  let x₀ : World × Screens := (Run.homeWorld, .start homeMount Run.homeWorld)
  let x₁ := after homeMount x₀ (.mount (.deferred (.value (.text "late"))) none)
  let x₂ := after homeMount x₁ (.mount (.text "second") none)
  let x₃ := after homeMount x₂ (.mount (.node 3) none)
  let x₄ := after homeMount x₀ (.mount (.deferred (.value (.node "main"))) none)
  refine ⟨⟨x₁.1, x₂.1, x₃.1, (after homeMount x₃ (.complete 0 (.text "late"))).1, ?_, ?_, ?_, ?_,
    ?_, ?_, ?_, ?_⟩, x₄.1, (after homeMount x₄ (.complete 0 (.node 0))).1, ?_, ?_, ?_, ?_, ?_, ?_⟩
  · exact perform_eq_after (x := x₀) (by decide +kernel)
  · decide +kernel
  · decide +kernel
  · exact perform_eq_after (by decide +kernel)
  · decide +kernel
  · exact perform_eq_after (by decide +kernel)
  · exact perform_eq_after (by decide +kernel)
  · decide +kernel
  · exact perform_eq_after (x := x₀) (by decide +kernel)
  · decide +kernel
  · decide +kernel
  · exact perform_eq_after (by decide +kernel)
  · decide +kernel
  · decide +kernel

end Screens

end LiveMarkup
