import LiveMarkup.Proofs.Run.Posts

/-!
# The stages of a rendered fragment

Between commands, a rendered fragment is at a `Stage`: its layout with the values that are due, the
tasks that will show them, and the channels through which they come.  Polling the first task in the
line either lets it wait or shows its value (`Stage.exists_pollTask`), and each poll leaves fewer
delays in the line, so settling ends, when no task can go on (`Stage.exists_settle`).  No step
changes what will be seen in the end. -/

namespace LiveMarkup

open Forest

/-! ### Stages -/

/-- What does not change while the values of a rendered fragment come: the nodes and channels that
names mean, the fragment and its name, all channels with the values to be sent, the errors recorded
before, and what is seen of the fragment when this or that has come. -/
structure Setting where
  stock : String → Stock
  channels : String → ℕ
  root : NodeId
  name : String
  all : List (String × Staged)
  errors : List String
  looks : Seen → List Tree

/-- A fragment in which all that was seen in `R` is shown.  The values in `Q` have tasks that stand
in the line, those in `I` have tasks that are about to join it, and those in `P` wait to be sent;
`D` are the channels that have been used. -/
structure Stage (σ : Setting) (R : Seen) (D : List String) (Q I P : List Late)
    (Ls : List (Labelled NodeId)) (w : World) : Prop where
  laid : Laid σ.stock σ.root ⟨w.forest, Ls, (Q ++ I ++ P).map Late.due⟩
  shown_eq {S : Seen} : R.Within S →
    Sheet.shown ⟨w.forest, Ls, (Q ++ I ++ P).map Late.due⟩ σ.stock S = σ.looks S
  later {j : Late} : j ∈ Q ++ I ++ P → j.value.IsLater
  lined : Lined σ.channels w.tasks.scheduler Q I P
  posted : Posted σ.channels σ.all D ((Q ++ I ++ P).map Late.value) P w.tasks
  nodes {name : String} : name ∈ Due.names ((Q ++ I ++ P).map Late.due) →
    w.page.nodes.get? name = some (σ.stock name).node
  named : w.page.nodes.get? σ.name = some σ.root
  errors_eq : w.tasks.scheduler.errors = σ.errors
  queue_eq : w.signals.reactive.queue = []

/-- The world in which it is noted whether tasks are being polled. -/
def World.setPolling (w : World) (polling : Bool) : World :=
  w.setScheduler
    { w.tasks.scheduler with pool := { w.tasks.scheduler.pool with polling := polling } }

variable {σ : Setting} {R : Seen} {D : List String} {Q I P : List Late}
  {Ls : List (Labelled NodeId)} {w w' : World} {j : Late} {s : Scheduler}

/-- How much still comes later in the values of tasks. -/
def delaysOf (js : List Late) : ℕ := Staged.delaysAll (js.map Late.value)

theorem delaysOf_append (js ks : List Late) : delaysOf (js ++ ks) = delaysOf js + delaysOf ks := by
  rw [delaysOf, List.map_append, Staged.delaysAll_append]
  rfl

theorem delaysOf_cons (j : Late) (js : List Late) :
    delaysOf (j :: js) = j.value.delays + delaysOf js := rfl

/-! ### Values that have come -/

section Reveal

variable {stock : String → Stock} {root n m : NodeId} {f : Forest} {u : Staged} {rest : Due}

/-- A value that has come is due as what has come. -/
theorem Laid.reveal (h : Laid stock root ⟨f, Ls, (n, u) :: rest⟩) :
    Laid stock root ⟨f, Ls, (n, u.body) :: rest⟩ := by
  have hnames : Due.names ((n, u.body) :: rest) = Due.names ((n, u) :: rest) := by
    rw [Due.names_cons, Due.names_cons, Staged.names_body]
  refine ⟨h.sound, h.kind_root, h.link_root, h.below, fun name hname => h.stocked name ?_, ?_,
    List.forall_mem_cons.2 ⟨?_, (List.forall_mem_cons.1 h.fits).2⟩, h.targets⟩
  · rwa [← hnames]
  · rw [hnames]
    exact h.nodup
  · obtain ⟨hmem, hdata, hfits⟩ := (List.forall_mem_cons.1 h.fits).1
    exact ⟨hmem, hdata, hfits.imp_right (And.imp_right Staged.Plain.body)⟩

/-- It looks the same as before. -/
theorem Sheet.shown_reveal {S : Seen} (hS : S.isSome = true)
    (hc : ∀ c, u.channel? = some c → c ∈ S.getD []) :
    Sheet.shown ⟨f, Ls, (n, u.body) :: rest⟩ stock S =
      Sheet.shown ⟨f, Ls, (n, u) :: rest⟩ stock S := by
  have hlooks : Due.lookAt ((n, u.body) :: rest) stock S =
      Due.lookAt ((n, u) :: rest) stock S := funext fun m => by
    rw [Due.lookAt, Due.lookAt, List.lookup_cons, List.lookup_cons]
    cases m == n with
    | false => rfl
    | true => exact congrArg some (Staged.look_body hS hc).symm
  rw [shown, shown, hlooks]

end Reveal

namespace Stage

/-- A stage in which more has been seen. -/
theorem mono {R' : Seen} (h : Stage σ R D Q I P Ls w) (hR : R.Within R') :
    Stage σ R' D Q I P Ls w :=
  { h with shown_eq := fun hS => h.shown_eq (hR.trans hS) }

/-- A stage depends on the forest, the tasks, the names of nodes and the queue only. -/
theorem congr (h : Stage σ R D Q I P Ls w) (hforest : w'.forest = w.forest)
    (htasks : w'.tasks = w.tasks) (hnodes : w'.page.nodes = w.page.nodes)
    (hqueue : w'.signals.reactive.queue = w.signals.reactive.queue) :
    Stage σ R D Q I P Ls w' := by
  refine ⟨?_, ?_, h.later, ?_, ?_, ?_, ?_, ?_, ?_⟩
  · rw [hforest]; exact h.laid
  · rw [hforest]; exact h.shown_eq
  · rw [htasks]; exact h.lined
  · rw [htasks]; exact h.posted
  · rw [hnodes]; exact h.nodes
  · rw [hnodes]; exact h.named
  · rw [htasks]; exact h.errors_eq
  · rw [hqueue]; exact h.queue_eq

/-- Tasks have moved. -/
theorem relined {Q' I' P' : List Late} {D' : List String} {t : Tasks}
    (h : Stage σ R D Q I P Ls w) (hp : (Q' ++ I' ++ P').Perm (Q ++ I ++ P))
    (hlined : Lined σ.channels t.scheduler Q' I' P')
    (hposted : Posted σ.channels σ.all D' ((Q ++ I ++ P).map Late.value) P' t)
    (herrors : t.scheduler.errors = w.tasks.scheduler.errors) :
    Stage σ R D' Q' I' P' Ls { w with tasks := t } := by
  obtain ⟨hlaid, hshown⟩ := h.laid.perm (hp.map Late.due).symm
  refine ⟨hlaid, fun hS => (hshown _).trans (h.shown_eq hS), fun hj => h.later (hp.mem_iff.1 hj),
    hlined, hposted.perm (hp.map Late.value).symm, fun {name} hname => h.nodes ?_, h.named,
    herrors.trans h.errors_eq, h.queue_eq⟩
  rw [Due.names, Staged.namesAll_eq_flatMap] at hname ⊢
  exact (((hp.map Late.due).map Prod.snd).flatMap_right _).mem_iff.1 hname

/-! ### Values that come -/

section Come

variable (h : Stage σ R D (j :: Q) I P Ls w)

include h

/-- The names and channels that the value of a task needs are there when it comes. -/
theorem provides : Run.Provides (Run.nodesOf σ.stock) σ.channels w j.value.body.names
    j.value.body.held := by
  have hmem : j.value ∈ (j :: Q ++ I ++ P).map Late.value := by simp
  refine ⟨fun {name} hname => h.nodes ?_, fun {c} hc => ?_, ?_⟩
  · rw [Staged.names_body] at hname
    rw [List.cons_append, List.cons_append, List.map_cons]
    exact List.mem_append_left _ hname
  · obtain ⟨x, hx, rfl⟩ := List.mem_map.1 ((Staged.sublist_held _).subset hc)
    exact h.posted.receivers hmem hx
  · have hd := h.posted.distinct
    rw [List.cons_append, List.cons_append, List.map_cons, Staged.partsAll, List.map_append] at hd
    exact ((List.nodup_append.1 hd).1.sublist (j.value.sublist_parts_body.map _)).sublist
      (Staged.sublist_held _)

/-- A value that has come is shown, its task is gone, and there are new tasks for the parts of it
that come later. -/
theorem exists_come (hR : R = some D) (hcome : ∀ c, j.value.channel? = some c → c ∈ D)
    (hlined : Lined σ.channels s Q I (j :: P))
    (hsize : s.channels.size = w.tasks.scheduler.channels.size)
    (hother : ∀ k, (∀ c, j.value.channel? = some c → k ≠ σ.channels c) →
      s.channel k = w.tasks.scheduler.channel k)
    (herrors : s.errors = w.tasks.scheduler.errors) :
    ∃ js Ls' w', Run.Yields
        (fun run => run (.build j.value.body.spec) >>= fun e => Run.fulfil run e j.node)
        (w.setScheduler s) true w' ∧
      Stage σ R D Q (I ++ js) P Ls' (w'.setScheduler (w'.tasks.scheduler.finish j.task)) ∧
      delaysOf js < j.value.delays := by
  subst hR
  have hlater : j.value.IsLater := h.later (by simp)
  obtain ⟨hlaid, hshown⟩ := h.laid, @h.shown_eq
  rw [List.cons_append, List.cons_append, List.map_cons] at hlaid hshown
  have hprovides : Run.Provides (Run.nodesOf σ.stock) σ.channels (w.setScheduler s)
      j.value.body.names j.value.body.held :=
    ⟨h.provides.node, h.provides.receiver, h.provides.nodup⟩
  have hlaid' : Laid σ.stock σ.root ⟨((w.setScheduler s).taking j.value.body.held).forest, Ls,
      [] ++ (j.node, j.value.body) :: (Q ++ I ++ P).map Late.due⟩ := hlaid.reveal
  obtain ⟨g, Ls', qs, happly, hqs, hunfolds⟩ := Run.exists_applyTo hlaid'
  have hperm (js : List Late) : (js ++ (Q ++ I ++ P)).Perm (Q ++ (I ++ js) ++ P) := by
    rw [← List.append_assoc Q, List.append_assoc (Q ++ I) js]
    exact List.perm_append_comm_assoc _ _ _
  have hdue := (hperm (Late.number s.programs.size qs)).map Late.due
  have hvalue := (hperm (Late.number s.programs.size qs)).map Late.value
  rw [List.map_append, Late.map_due_number] at hdue
  rw [List.map_append, Late.map_value_number, hqs] at hvalue
  obtain ⟨hlaid'', hshown'⟩ := hunfolds.laid.perm hdue
  refine ⟨Late.number s.programs.size qs, Ls',
    ((w.setScheduler s).taking j.value.body.held).showing σ.channels g qs, ?_, ?_, ?_⟩
  · refine (Run.Yields.job (j := .build j.value.body.spec) (Run.yields_build hprovides)).bind ?_
    refine Run.Yields.bind (x := .ok ()) (Run.Yields.job (j := .apply _ j.node)
      (.of_eq fun run => ?_)) (.of_eq fun _ => rfl)
    exact happly run (Run.bind run)
  · refine ⟨hlaid'', fun {S} hS => ?_, fun {i} hi => ?_, (hlined.promised qs).finish, ?_,
      fun {name} hname => ?_, h.named, ?_, h.queue_eq⟩
    · refine (hshown' S).trans ((hunfolds.shown_eq S).trans ?_)
      exact (Sheet.shown_reveal (hS.1 rfl) fun c hc => hS.2 c (hcome c hc)).trans (hshown hS)
    · rcases List.mem_append.1 ((hperm _).mem_iff.2 hi) with hi | hi
      · have hmem := List.mem_map_of_mem (f := Late.value) hi
        rw [Late.map_value_number, hqs] at hmem
        exact Staged.isLater_of_mem_pending hmem
      · exact h.later (List.mem_cons_of_mem _ hi)
    · refine Posted.perm ?_ hvalue
      refine Posted.openBody h.posted hlater hcome rfl rfl ?_ fun k hk => ?_
      · exact (congrArg Array.size (Scheduler.channels_promised _ _)).trans hsize
      · exact (Scheduler.channel_promised _ _ _).trans (hother k hk)
    · rw [Due.names, Staged.namesAll_eq_flatMap, ← ((hdue.map Prod.snd).flatMap_right _).mem_iff,
        List.map_append, hqs, ← Staged.namesAll_eq_flatMap, Staged.namesAll_append] at hname
      refine h.nodes (List.mem_append.2 ((List.mem_append.1 hname).imp_left fun hname => ?_))
      rw [← Staged.names_body]
      exact (Staged.sublist_namesAll_pending _).subset hname
    · exact (Scheduler.errors_promised _ _).trans (herrors.trans h.errors_eq)
  · rw [delaysOf, Late.map_value_number, hqs, Staged.delaysAll_pending,
      Staged.delays_of_isLater hlater]
    exact Nat.lt_succ_self _

end Come

/-! ### Polling -/

/-- Polling the first task: it shows its value and is gone, or waits. -/
theorem exists_pollTask (h : Stage σ (some D) D (j :: Q) I P Ls w)
    (hlined : Lined σ.channels s Q I (j :: P))
    (hchannels : s.channels = w.tasks.scheduler.channels)
    (herrors : s.errors = w.tasks.scheduler.errors) :
    (∃ js Ls' w', Run.Yields (fun run => Run.pollTask run j.task) (w.setScheduler s) true w' ∧
      Stage σ (some D) D Q (I ++ js) P Ls' (w'.setScheduler (w'.tasks.scheduler.finish j.task)) ∧
      delaysOf js < j.value.delays) ∨
    ∃ w', Run.Yields (fun run => Run.pollTask run j.task) (w.setScheduler s) false w' ∧
      Stage σ (some D) D Q I (j :: P) Ls w' := by
  have hprogram : s.program j.task = dueProgram σ.channels j.due := hlined.program (by simp)
  have hlater : j.value.IsLater := h.later (by simp)
  have hchannel (k : ℕ) : s.channel k = w.tasks.scheduler.channel k := by
    rw [Scheduler.channel, hchannels, Scheduler.channel]
  have hposted : Posted σ.channels σ.all D ((j :: Q ++ I ++ P).map Late.value) P
      { w.tasks with scheduler := s } := h.posted.congr rfl rfl hchannels
  obtain ⟨task, n, u⟩ := j
  cases u with
  | empty | text _ | node _ | list _ => exact hlater.elim
  | soon v =>
    obtain ⟨js, Ls', w', hyields, hstage, hlt⟩ := h.exists_come rfl (by simp [Staged.channel?])
      hlined (congrArg Array.size hchannels) (fun k _ => hchannel k) herrors
    refine Or.inl ⟨js, Ls', w', hyields.congr fun run => ?_, hstage, hlt⟩
    rw [Run.pollTask, Activity.get_bind]
    simp only [World.setScheduler, hprogram]
    rfl
  | sent c v =>
    have hmem : (c, v) ∈ Staged.partsAll ((⟨task, n, .sent c v⟩ :: Q ++ I ++ P).map Late.value) :=
      List.mem_cons_self
    by_cases hcD : c ∈ D
    · obtain ⟨text, hreceive⟩ := hposted.receive_sent hmem hcD task
      have hsize : (s.dropReceiver (σ.channels c)).channels.size =
          w.tasks.scheduler.channels.size := by
        rw [← hchannels, Scheduler.dropReceiver, Scheduler.size_channels_modifyChannel]
      have hother : ∀ k, (∀ d, (Staged.sent c v).channel? = some d → k ≠ σ.channels d) →
          (s.dropReceiver (σ.channels c)).channel k = w.tasks.scheduler.channel k := fun k hk => by
        rw [← hchannel, Scheduler.dropReceiver, Scheduler.channel_modifyChannel,
          if_neg fun e => hk c rfl e.1]
      have hlined' : Lined σ.channels (s.dropReceiver (σ.channels c)) Q I
          (⟨task, n, .sent c v⟩ :: P) := hlined.congr rfl rfl rfl rfl
      obtain ⟨js, Ls', w', hyields, hstage, hlt⟩ := h.exists_come rfl
        (fun d hd => Option.some.inj hd ▸ hcD) hlined' hsize hother herrors
      refine Or.inl ⟨js, Ls', w', hyields.congr fun run => ?_, hstage, hlt⟩
      rw [Run.pollTask, Activity.get_bind]
      simp only [World.setScheduler, hprogram]
      rw [dueProgram]
      simp only [Late.due, Staged.promise]
      have hlook : Activity.schedule (fun s => s.receive task (σ.channels c)) (w.setScheduler s) =
          some (.message ⟨text, v.spec⟩, w.setScheduler (s.dropReceiver (σ.channels c))) :=
        Activity.schedule_of_eq hreceive
      exact Activity.bind_of_eq_some hlook
    · have hfree : ∀ i ∈ P, i.value.channel? ≠ some c := fun i hi hc => by
        have hd := h.posted.distinct
        rw [List.cons_append, List.cons_append, List.map_cons, Staged.partsAll, List.map_append,
          List.nodup_append] at hd
        have hin := Staged.mem_partsAll_of_channel (List.mem_map_of_mem (f := Late.value)
          (List.mem_append_right (Q ++ I) hi)) hc
        exact hd.2.2 c List.mem_cons_self c (List.mem_map_of_mem hin) rfl
      obtain ⟨s', hreceive, hposted', hrest, hprograms, hpool⟩ :=
        hposted.receive_unsent (j := ⟨task, n, .sent c v⟩) hmem hcD rfl hfree
      refine Or.inr ⟨w.setScheduler s', .of_eq fun run => ?_, h.relined List.perm_middle
        (hlined.congr hprograms ?_ ?_ ?_) hposted' (hrest.errors_eq.trans herrors)⟩
      · rw [Run.pollTask, Activity.get_bind]
        simp only [World.setScheduler, hprogram]
        rw [dueProgram]
        simp only [Late.due, Staged.promise]
        have hlook : Activity.schedule (fun s => s.receive task (σ.channels c)) (w.setScheduler s) =
            some (.nothing, w.setScheduler s') := Activity.schedule_of_eq hreceive
        exact Activity.bind_of_eq_some hlook
      · rw [hpool]
      · rw [hpool]
      · rw [hpool]

/-- Polling goes down the line, and leaves less to come there unless the line was empty. -/
theorem exists_poll {count : ℕ} (h : Stage σ (some D) D Q I P Ls w) (polled yielded : ℕ) :
    ∃ Q' I' P' Ls' w', Run.Yields (fun run => run (.poll count polled yielded)) w () w' ∧
      Stage σ (some D) D Q' I' P' Ls' w' ∧ delaysOf (Q' ++ I') ≤ delaysOf (Q ++ I) ∧
      (Q ≠ [] → delaysOf (Q' ++ I') < delaysOf (Q ++ I)) := by
  induction Q generalizing P Ls w polled yielded with
  | nil =>
    refine ⟨[], I, P, Ls, w, .job (j := .poll count polled yielded) (.of_eq fun run => ?_), h,
      le_rfl, fun hne => absurd rfl hne⟩
    have hnext : w.tasks.scheduler.next? = none := by
      rw [Scheduler.next?, h.lined.ready_eq]
      rfl
    change Run.poll run count polled yielded w = _
    rw [Run.poll, Activity.get_bind]
    simp only [hnext]
    rfl
  | cons j Q ih =>
    obtain ⟨s, hnext, hlined, hs⟩ := h.lined.next
    have hactive : s.pool.active.contains j.task = true := by
      rw [hs]
      exact List.contains_iff_mem.2 (h.lined.active (by simp))
    have hpoll (run : Runner) : Run.poll run count polled yielded w = (do
        if ← Run.pollTask run j.task then Activity.schedule fun s => ((), s.finish j.task)
        else do
          let ready := (← get).tasks.scheduler.pool.ready
          let yielded := yielded + if ready.contains j.task then 1 else 0
          if 2 ≤ yielded ∨ polled + 1 = count then return ()
          else run (.poll count (polled + 1) yielded) : Activity Unit) (w.setScheduler s) := by
      rw [Run.poll, Activity.get_bind]
      simp only [hnext, Activity.set_bind, hactive, if_true]
    have hcons : delaysOf (j :: Q ++ I) = j.value.delays + delaysOf (Q ++ I) := rfl
    have hpos : 0 < j.value.delays := by
      rw [Staged.delays_of_isLater (h.later (by simp))]
      exact Nat.succ_pos _
    rcases h.exists_pollTask hlined (by rw [hs]) (by rw [hs]) with
      ⟨js, Ls', w', hyields, hstage, hlt⟩ | ⟨w', hyields, hstage⟩
    · refine ⟨Q, I ++ js, P, Ls', _, .job (j := .poll count polled yielded)
        ((hyields.bind (.of_eq fun _ => rfl)).congr hpoll), hstage, ?_⟩
      rw [← List.append_assoc, delaysOf_append (Q ++ I), hcons]
      omega
    · by_cases hstop :
          2 ≤ yielded + (if w'.tasks.scheduler.pool.ready.contains j.task then 1 else 0) ∨
            polled + 1 = count
      · refine ⟨Q, I, j :: P, Ls, w', .job (j := .poll count polled yielded)
          ((hyields.bind (.of_eq fun run => ?_)).congr hpoll), hstage, by omega, fun _ => by omega⟩
        simp only [Activity.get_bind, Bool.false_eq_true, if_false]
        rw [if_pos hstop]
        rfl
      · obtain ⟨Q', I', P', Ls', w'', hyields', hstage', hle, -⟩ := ih hstage (polled + 1)
          (yielded + if w'.tasks.scheduler.pool.ready.contains j.task then 1 else 0)
        refine ⟨Q', I', P', Ls', w'', .job (j := .poll count polled yielded)
          ((hyields.bind (hyields'.congr fun run => ?_)).congr hpoll), hstage', by omega,
          fun _ => by omega⟩
        simp only [Activity.get_bind, Bool.false_eq_true, if_false]
        rw [if_neg hstop]

theorem eq_nil_of_delaysOf {js : List Late} (hlater : ∀ j ∈ js, j.value.IsLater)
    (h : delaysOf js = 0) : js = [] := by
  cases js with
  | nil => rfl
  | cons j js =>
    rw [delaysOf_cons, Staged.delays_of_isLater (hlater j List.mem_cons_self)] at h
    omega

/-- All tasks join the line. -/
theorem joinLine (h : Stage σ R D Q I P Ls w) :
    Stage σ R D (Q ++ I) [] P Ls (w.setScheduler w.tasks.scheduler.joinLine) := by
  have hperm : (Q ++ I ++ [] ++ P).Perm (Q ++ I ++ P) := by rw [List.append_nil]
  exact h.relined hperm h.lined.joinLine (h.posted.congr rfl rfl rfl) rfl

/-- Polling ends when no task stands in the line. -/
theorem exists_turn (h : Stage σ (some D) D Q I P Ls w) :
    ∃ P' Ls' w', Run.Yields (fun run => run .turn) w () w' ∧
      Stage σ (some D) D [] [] P' Ls' w' := by
  induction hn : delaysOf (Q ++ I) using Nat.strong_induction_on generalizing Q I P Ls w with
  | _ n ih =>
    subst hn
    let count := w.tasks.scheduler.joinLine.pool.active.length
    have hturn (run : Runner) : Run.turn run w = (do
        run (.poll count 0 0)
        let pool := (← get).tasks.scheduler.pool
        if pool.incoming.isEmpty && pool.ready.isEmpty then return () else run .turn :
          Activity Unit) (w.setScheduler w.tasks.scheduler.joinLine) := rfl
    obtain ⟨Q', I', P', Ls', w', hyields, hstage, hle, hlt⟩ := h.joinLine.exists_poll 0 0
    rw [List.append_nil] at hle hlt
    have hlater : ∀ j ∈ Q' ++ I', j.value.IsLater := fun j hj =>
      hstage.later (List.mem_append_left _ hj)
    have hready := hstage.lined.ready_eq
    have hincoming := hstage.lined.incoming_eq
    by_cases hdone : Q' ++ I' = []
    · obtain ⟨rfl, rfl⟩ := List.append_eq_nil_iff.1 hdone
      refine ⟨P', Ls', w', .job (j := .turn) ((hyields.bind (.of_eq fun run => ?_)).congr hturn),
        hstage⟩
      rw [Activity.get_bind]
      simp only [hready, hincoming]
      rfl
    · have hne : Q ++ I ≠ [] := fun hnil => by
        rw [hnil] at hle
        exact hdone (eq_nil_of_delaysOf hlater (Nat.le_zero.1 hle))
      obtain ⟨P'', Ls'', w'', hyields', hstage'⟩ := ih _ (hlt hne) hstage rfl
      refine ⟨P'', Ls'', w'', .job (j := .turn)
        ((hyields.bind (hyields'.congr fun run => ?_)).congr hturn), hstage'⟩
      rw [Activity.get_bind]
      simp only [hready, hincoming]
      rw [if_neg]
      simpa [and_comm] using hdone

/-- A stage does not depend on whether tasks are being polled. -/
theorem setPolling (h : Stage σ R D Q I P Ls w) (polling : Bool) :
    Stage σ R D Q I P Ls (w.setPolling polling) :=
  h.relined (.refl _) (h.lined.congr rfl rfl rfl rfl) (h.posted.congr rfl rfl rfl) rfl

/-- Settling ends, and every value that has not been shown waits to be sent. -/
theorem exists_settle (h : Stage σ (some D) D Q I P Ls w)
    (hpolling : w.tasks.scheduler.pool.polling = false) :
    ∃ P' Ls' w', Run.Yields (fun run => run .settle) w true w' ∧
      Stage σ (some D) D [] [] P' Ls' w' ∧ w'.tasks.scheduler.pool.polling = false := by
  obtain ⟨P', Ls', w', hyields, hstage⟩ := (h.setPolling true).exists_turn
  have hqueue : (w'.setPolling false).signals.reactive.queue = [] := hstage.queue_eq
  have hdrain : Run.Yields (fun run => run (.drain 0)) (w'.setPolling false) 0
      (w'.setPolling false) := by
    refine .job (j := .drain 0) (.of_eq fun run => ?_)
    have hnext : Run.nextMicrotask (w'.setPolling false) = some (none, w'.setPolling false) := by
      rw [Run.nextMicrotask, hqueue]
    exact Activity.bind_of_eq_some hnext
  have hsettle (run : Runner) : Run.settle run w = (do
      run .turn
      Run.setPolling false
      if (← run (.drain 0)) = 0 then return true else run .settle : Activity Bool)
        (w.setPolling true) := by
    rw [Run.settle, Activity.get_bind, hpolling]
    rfl
  have hrest : Run.Yields (fun run => do
      if (← run (.drain 0)) = 0 then return true else run .settle) (w'.setPolling false) true
        (w'.setPolling false) := hdrain.bind (.of_eq fun _ => rfl)
  exact ⟨P', Ls', _, .job (j := .settle)
    ((hyields.bind (hrest.congr fun _ => rfl)).congr hsettle), hstage.setPolling false, rfl⟩

end Stage

end LiveMarkup
