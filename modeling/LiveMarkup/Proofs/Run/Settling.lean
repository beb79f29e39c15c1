import LiveMarkup.Proofs.Forest.Released
import LiveMarkup.Proofs.Run.Stages

/-!
# Values that come one after the other

After a fragment has been rendered, values are sent and tasks are settled, in any order.  In between
the fragment rests (`Rests`): it shows what had been sent when tasks were settled last
(`Rests.snapshot`).  Sending and settling lead from one such situation to the next, and so does the
release of nodes after each command (`Rests.exists_performs`).
-/

namespace LiveMarkup

open Forest

variable {σ : Setting} {R S : Seen} {D : List String} {Q I P : List Late}
  {Ls : List (Labelled NodeId)} {w w₁ w' : World} {watch : List String}

/-! ### Releasing -/

/-- A sheet depends on the nodes in it and those that are named only. -/
theorem Laid.congr {stock : String → Stock} {root : NodeId} {f g : Forest} {due : Due}
    (h : Laid stock root ⟨f, Ls, due⟩) (hg : g.Sound) (hsize : g.size = f.size)
    (hc : ∀ l ∈ root :: Labelled.labelsAll Ls ++ stockLabels stock due.names,
      g.cell l = f.cell l) : Laid stock root ⟨g, Ls, due⟩ := by
  have hroot := hc root (by simp)
  have hcells : ∀ l ∈ Labelled.labelsAll Ls, g.cell l = f.cell l := fun l hl =>
    hc l (List.mem_append_left _ (List.mem_cons_of_mem _ hl))
  refine ⟨hg, ?_, ?_, h.below.congr hroot hcells, fun name hname => ?_, h.nodup, fun x hx => ?_,
    h.targets⟩
  · rw [kind, hroot]
    exact h.kind_root
  · rw [link, hroot]
    exact h.link_root
  · refine (h.stocked name hname).congr hsize.ge fun l hl => hc l (List.mem_append_right _ ?_)
    exact List.mem_flatMap.2 ⟨name, hname, hl⟩
  · obtain ⟨hmem, hfits⟩ := h.fits x hx
    refine ⟨hmem, ?_⟩
    rw [Fits, data, kind, hcells x.1 hmem]
    exact hfits

/-- The nodes of a sheet are linked to each other only. -/
theorem Laid.closed {stock : String → Stock} {root : NodeId} {s : Sheet}
    (h : Laid stock root s) : s.forest.Closed
      (root :: Labelled.labelsAll s.trees ++ stockLabels stock s.due.names) := by
  refine (h.below.closed h.link_root).append fun l hl m hm => ?_
  obtain ⟨name, hname, hl⟩ := List.mem_flatMap.1 hl
  exact List.mem_flatMap.2 ⟨name, hname, (h.stocked name hname).closed l hl m hm⟩

namespace Stage

/-- The nodes of a stage are held. -/
theorem mem_heldBelow (h : Stage σ R D Q I P Ls w) : ∀ l ∈ σ.root :: Labelled.labelsAll Ls ++
    stockLabels σ.stock (Due.names ((Q ++ I ++ P).map Late.due)),
      l ∈ w.forest.heldBelow (w.forest.size + 1) w.heldNodes := by
  intro l hl
  rcases List.mem_append.1 hl with hl | hl
  · refine h.laid.below.mem_heldBelow (World.mem_heldNodes_of_get? h.named) ?_ l hl
    exact length_le_size h.laid.labels_nodup h.laid.below.holds.lt_size
  · obtain ⟨name, hname, hl⟩ := List.mem_flatMap.1 hl
    have hd := (List.nodup_flatMap.1 (List.nodup_append.1 h.laid.nodup).2.1).1 name hname
    exact (h.laid.stocked name hname).mem_heldBelow hd
      (World.mem_heldNodes_of_get? (h.nodes hname)) l hl

/-- Nothing that belongs to a stage is released. -/
theorem release (h : Stage σ R D Q I P Ls w) : Stage σ R D Q I P Ls w.release := by
  obtain ⟨hs, hsize, hcells⟩ := World.release_frame h.laid.sound h.laid.closed h.laid.lt_size
    h.mem_heldBelow
  exact ⟨h.laid.congr hs hsize hcells, h.shown_eq, h.later, h.lined, h.posted, h.nodes, h.named,
    h.errors_eq, h.queue_eq⟩

end Stage

/-! ### Between commands -/

/-- A fragment shows what was seen in `R`, and nothing that is due in it has come by then; no task
is being polled. -/
def Rests (σ : Setting) (R : Seen) (D : List String) (w : World) : Prop :=
  w.tasks.scheduler.pool.polling = false ∧ (∀ c ∈ R.getD [], c ∈ D) ∧
    ∃ Q I P Ls, Stage σ R D Q I P Ls w ∧ ∀ j ∈ Q ++ I ++ P, j.value.Blocked R

namespace Rests

/-- The fragment looks as it should. -/
theorem snapshot (h : Rests σ R D w) : w.forest.snapshot σ.root = .fragment (σ.looks R) := by
  obtain ⟨-, -, Q, I, P, Ls, hstage, hblocked⟩ := h
  rw [hstage.laid.snapshot_of_blocked (S := R), hstage.shown_eq (.refl R)]
  intro x hx
  obtain ⟨j, hj, rfl⟩ := List.mem_map.1 hx
  exact hblocked j hj

theorem errors_eq (h : Rests σ R D w) : w.tasks.scheduler.errors = σ.errors := by
  obtain ⟨-, -, Q, I, P, Ls, hstage, -⟩ := h
  exact hstage.errors_eq

theorem named (h : Rests σ R D w) : w.page.nodes.get? σ.name = some σ.root := by
  obtain ⟨-, -, Q, I, P, Ls, hstage, -⟩ := h
  exact hstage.named

theorem release (h : Rests σ R D w) : Rests σ R D w.release := by
  obtain ⟨hpolling, hR, Q, I, P, Ls, hstage, hblocked⟩ := h
  exact ⟨hpolling, hR, Q, I, P, Ls, hstage.release, hblocked⟩

theorem unlogged (h : Rests σ R D w) : Rests σ R D { w with log := [] } := by
  obtain ⟨hpolling, hR, Q, I, P, Ls, hstage, hblocked⟩ := h
  exact ⟨hpolling, hR, Q, I, P, Ls, hstage.congr rfl rfl rfl rfl, hblocked⟩

/-- A value is sent. -/
theorem exists_send {x : String × Staged} (h : Rests σ R D w) (hx : x ∈ σ.all) (text : String) :
    ∃ reply w', Run.Yields (fun run => run (.command (.send x.1 text x.2.spec))) w reply w' ∧
      Rests σ R (x.1 :: D) w' := by
  obtain ⟨hpolling, hR, Q, I, P, Ls, hstage, hblocked⟩ := h
  obtain ⟨Q', P', reply, t', hsend, hlined, hposted, hperm, hsame⟩ :=
    hstage.posted.exists_send hx text hstage.lined
  refine ⟨reply, { w with tasks := t' }, .job (j := .command (.send x.1 text x.2.spec))
    (.of_eq fun run => ?_), hsame.polling_eq.trans hpolling,
    fun c hc => List.mem_cons_of_mem _ (hR c hc), Q', I, P', Ls,
    hstage.relined hperm hlined hposted hsame.errors_eq,
    fun j hj => hblocked j (hperm.mem_iff.1 hj)⟩
  change Run.send x.1 ⟨text, x.2.spec⟩ w = _
  rw [Run.send, hsend]

/-- Tasks are settled. -/
theorem exists_settle (h : Rests σ R D w) :
    ∃ w', Run.Yields (fun run => run (.command .runUntilStalled)) w (.flag true) w' ∧
      Rests σ (some D) D w' := by
  obtain ⟨hpolling, hR, Q, I, P, Ls, hstage, -⟩ := h
  have hwithin : R.Within (some D) := ⟨fun _ => rfl, hR⟩
  obtain ⟨P', Ls', w', hyields, hstage', hpolling'⟩ := (hstage.mono hwithin).exists_settle hpolling
  refine ⟨w', .job (j := .command .runUntilStalled) (hyields.bind (.of_eq fun _ => rfl)), hpolling',
    fun _ => id, [], [], P', Ls', hstage', fun j hj => ?_⟩
  obtain ⟨c, hc, hcD⟩ := hstage'.posted.aside hj
  exact Staged.blocked_of_channel hc hcD

end Rests

/-! ### What happens to a fragment -/

/-- What can happen after a fragment has been rendered: a value is sent through its channel, or
tasks are settled. -/
inductive Happening where
  | sent (part : String × Staged) (text : String)
  | settled

namespace Happening

/-- The command that makes it happen. -/
def command : Happening → Command
  | sent part text => .send part.1 text part.2.spec
  | settled => .runUntilStalled

/-- Whether a value is sent only if it is one of the given values with their channels. -/
def Among (parts : List (String × Staged)) : Happening → Prop
  | sent part _ => part ∈ parts
  | settled => True

/-- What has been seen and sent after it, from what had been before. -/
def after (before : Seen × List String) : Happening → Seen × List String
  | sent part _ => (before.1, part.1 :: before.2)
  | settled => (some before.2, before.2)

end Happening

/-- What is seen after given things have happened: what had been sent when tasks were settled
last. -/
def seenAfter (happenings : List Happening) : Seen :=
  (happenings.foldl Happening.after (none, [])).1

/-- With enough fuel the commands are performed, and lead to the world `w'`. -/
def World.Performs (watch : List String) (w : World) (cs : List Command) (w' : World) : Prop :=
  ∃ enough reports, ∀ fuel, enough ≤ fuel → w.performAll fuel watch cs = some (reports, w')

theorem World.performs_nil : w.Performs watch [] w := ⟨0, [], fun _ _ => rfl⟩

theorem World.Performs.cons {c : Command} {cs : List Command} {reply : Reply}
    (h : Run.Yields (fun run => run (.command c)) { w with log := [] } reply w₁)
    (h' : w₁.release.Performs watch cs w') : w.Performs watch (c :: cs) w' := by
  obtain ⟨enough, h⟩ := h
  obtain ⟨enough', reports, h'⟩ := h'
  refine ⟨max enough enough', ⟨reply, w₁.release.log, watch.map w₁.release.written⟩ :: reports,
    fun fuel hfuel => ?_⟩
  have hfirst := h fuel (le_of_max_le_left hfuel)
  simp only at hfirst
  rw [World.performAll, World.perform, hfirst]
  simp only [h' fuel (le_of_max_le_right hfuel)]

/-- Whatever happens to a fragment, it rests afterwards. -/
theorem Rests.exists_performs {happenings : List Happening} (h : Rests σ R D w)
    (watch : List String) (hamong : ∀ x ∈ happenings, x.Among σ.all) :
    ∃ w', w.Performs watch (happenings.map Happening.command) w' ∧
      Rests σ (happenings.foldl Happening.after (R, D)).1
        (happenings.foldl Happening.after (R, D)).2 w' := by
  induction happenings generalizing w R D with
  | nil => exact ⟨w, World.performs_nil, h⟩
  | cons x happenings ih =>
    obtain ⟨hx, hamong⟩ := List.forall_mem_cons.1 hamong
    have hstep : ∃ reply w₁, Run.Yields (fun run => run (.command x.command)) { w with log := [] }
        reply w₁ ∧ Rests σ (x.after (R, D)).1 (x.after (R, D)).2 w₁ := by
      cases x with
      | sent part text => exact h.unlogged.exists_send hx text
      | settled =>
        obtain ⟨w₁, hyields, hrests⟩ := h.unlogged.exists_settle
        exact ⟨_, w₁, hyields, hrests⟩
    obtain ⟨reply, w₁, hyields, hrests⟩ := hstep
    obtain ⟨w', hperforms, hrests'⟩ := ih hrests.release hamong
    exact ⟨w', .cons hyields hperforms, hrests'⟩

end LiveMarkup
