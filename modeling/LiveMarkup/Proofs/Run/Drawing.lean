import LiveMarkup.Proofs.Run.Mounting
import LiveMarkup.Proofs.Screen.Pieces

/-!
# Drawing a value

Binding a value without code to a comment that has a parent succeeds: what the value consists of
stands in the place of the comment, and a task waits at the comment of each part that comes later
(`Run.exists_draws`).
-/

namespace LiveMarkup

open Forest

variable {f g : Forest} {w w' : World} {l n p v : NodeId} {k : ℕ} {x : Piece}
  {ms drained held held' : List NodeId} {ps qs : List Program} {inside : NodeId → List Piece}

/-! ### New tasks -/

/-- The scheduler with new tasks. -/
def Scheduler.spawnAll (s : Scheduler) (ps : List Program) : Scheduler :=
  ps.foldl (fun s p => (s.spawn p).2) s

theorem Scheduler.programs_spawnAll (s : Scheduler) (ps : List Program) :
    (s.spawnAll ps).programs = s.programs ++ ps.toArray := by
  induction ps generalizing s with
  | nil => simp [spawnAll]
  | cons p ps ih =>
    have hrest : s.spawnAll (p :: ps) = (s.spawn p).2.spawnAll ps := rfl
    rw [hrest, ih]
    simp [spawn]

namespace World

/-- The world with another forest and new tasks. -/
def drawn (w : World) (f : Forest) (ps : List Program) : World :=
  (w.setForest f).setScheduler (w.tasks.scheduler.spawnAll ps)

@[simp] theorem forest_drawn (f : Forest) (ps : List Program) : (w.drawn f ps).forest = f := rfl

theorem drawn_drawn (ps qs : List Program) : (w.drawn f ps).drawn g qs = w.drawn g (ps ++ qs) := by
  rw [drawn, drawn, drawn, Scheduler.spawnAll, Scheduler.spawnAll, Scheduler.spawnAll,
    List.foldl_append]
  rfl

theorem programs_drawn (w : World) (f : Forest) (ps : List Program) :
    (w.drawn f ps).tasks.scheduler.programs = w.tasks.scheduler.programs ++ ps.toArray :=
  w.tasks.scheduler.programs_spawnAll ps

theorem taskCount_drawn (f : Forest) (ps : List Program) :
    (w.drawn f ps).taskCount = w.taskCount + ps.length := by
  rw [taskCount, programs_drawn]
  simp [taskCount]

theorem taskTarget?_congr (h : w'.tasks.scheduler.program k = w.tasks.scheduler.program k) :
    w'.taskTarget? k = w.taskTarget? k := by
  rw [taskTarget?, taskTarget?, h]

theorem lt_taskCount (h : w.taskTarget? k = some n) : k < w.taskCount := by
  by_contra hk
  have hdefault : w.tasks.scheduler.program k = default := by
    rw [Scheduler.program, Array.getD_eq_getD_getElem?,
      Array.getElem?_eq_none (Nat.le_of_not_lt hk), Option.getD_none]
  rw [taskTarget?, hdefault] at h
  cases h

/-- New tasks leave the others as they are. -/
theorem taskTarget?_append
    (h : w'.tasks.scheduler.programs = w.tasks.scheduler.programs ++ ps.toArray)
    (hk : w.taskTarget? k = some n) : w'.taskTarget? k = some n := by
  have hlt : k < w.tasks.scheduler.programs.size := lt_taskCount hk
  rw [← hk]
  refine taskTarget?_congr ?_
  rw [Scheduler.program, h, Scheduler.program, Array.getD_eq_getD_getElem?,
    Array.getD_eq_getD_getElem?, Array.getElem?_append_left hlt]

theorem taskTarget?_append_new {promise : Promise} (h : w'.tasks.scheduler.programs =
    w.tasks.scheduler.programs ++ [Program.deferred promise n].toArray) :
    w'.taskTarget? w.taskCount = some n := by
  have hprogram : w'.tasks.scheduler.program w.taskCount = .deferred promise n := by
    rw [Scheduler.program, h, Array.getD_eq_getD_getElem?]
    simp [taskCount]
  rw [taskTarget?, hprogram]

/-! ### Nodes as pieces -/

/-- The value of a task is to take the place of a node, which is an empty comment. -/
structure Awaits (w : World) (k : ℕ) (n : NodeId) : Prop where
  target_eq : w.taskTarget? k = some n
  lt_size : n < w.forest.size
  kind_eq : w.forest.kind n = .comment
  data_eq : w.forest.data n = ""

/-- What a node has to be to stand for a piece. -/
def Depicts (w : World) (n : NodeId) : Piece → Prop
  | .text s => n < w.forest.size ∧ w.forest.kind n = .text ∧ w.forest.data n = s
  | .blank => n < w.forest.size ∧ w.forest.kind n = .comment ∧ w.forest.data n = ""
  | .node v => n = v
  | .slot k => w.Awaits k n

theorem Awaits.congr (h : w.Awaits k n) (hsize : w.forest.size ≤ w'.forest.size)
    (hkind : w'.forest.kind n = w.forest.kind n) (hdata : w'.forest.data n = w.forest.data n)
    (htarget : w'.taskTarget? k = some n) : w'.Awaits k n :=
  ⟨htarget, h.lt_size.trans_le hsize, hkind.trans h.kind_eq, hdata.trans h.data_eq⟩

theorem Depicts.congr (h : w.Depicts n x) (hsize : w.forest.size ≤ w'.forest.size)
    (hkind : n < w.forest.size → w'.forest.kind n = w.forest.kind n)
    (hdata : n < w.forest.size → w'.forest.data n = w.forest.data n)
    (htarget : ∀ k, w.taskTarget? k = some n → w'.taskTarget? k = some n) : w'.Depicts n x := by
  cases x with
  | text s => exact ⟨h.1.trans_le hsize, (hkind h.1).trans h.2.1, (hdata h.1).trans h.2.2⟩
  | blank => exact ⟨h.1.trans_le hsize, (hkind h.1).trans h.2.1, (hdata h.1).trans h.2.2⟩
  | node v => exact h
  | slot k =>
    have h : w.Awaits k n := h
    exact h.congr hsize (hkind h.lt_size) (hdata h.lt_size) (htarget k h.target_eq)

theorem Depicts.drawn (h : w.Depicts l x) (hr : Redraws w.forest g n ms drained)
    (ps : List Program) : (w.drawn g ps).Depicts l x :=
  h.congr hr.size_le hr.kind_eq hr.data_eq fun _ => taskTarget?_append (w.programs_drawn g ps)

end World

/-- An empty comment among the children of `p`. -/
structure Forest.Vacant (f : Forest) (p n : NodeId) : Prop where
  kind_eq : f.kind n = .comment
  data_eq : f.data n = ""
  parent_eq : f.parent n = some p

namespace Run

/-- Nodes that can be put among the children of `p`, each with the pieces that it brings. -/
structure Offered (inside : NodeId → List Piece) (w : World) (p : NodeId) (held : List NodeId) :
    Prop where
  nodup : held.Nodup
  free {v : NodeId} : v ∈ held → w.forest.Free p v
  brings {v : NodeId} : v ∈ held → List.Forall₂ w.Depicts (w.forest.pickUp v).1 (inside v)

namespace Offered

theorem sublist (h : Offered inside w p held) (hsub : held'.Sublist held) :
    Offered inside w p held' :=
  ⟨h.nodup.sublist hsub, fun hv => h.free (hsub.subset hv), fun hv => h.brings (hsub.subset hv)⟩

/-- Nodes that are not among those that are placed can still be put among the children of `p`. -/
theorem drawn (h : Offered inside w p held) (hf : w.forest.Sound)
    (hr : Redraws w.forest g n ms drained) (hn : w.forest.parent n = some p)
    (hout : ∀ v ∈ held, v ∉ ms ∧ v ∉ drained) (ps : List Program) :
    Offered inside (w.drawn g ps) p held := by
  refine ⟨h.nodup, fun {v} hv => hr.free hf hn (h.free hv) (hout v hv).1, fun {v} hv => ?_⟩
  have hpick : ((w.drawn g ps).forest.pickUp v).1 = (w.forest.pickUp v).1 :=
    hr.fst_pickUp hf hn (h.free hv) (hout v hv).2
  rw [hpick]
  exact (h.brings hv).imp fun _ _ hl => hl.drawn hr ps

end Offered

/-- The nodes `ns` stand for the pieces `xs`.  The fragments among the nodes `held` are empty, and
no other nodes that had no parent are among `ns`. -/
structure Draws (w : World) (held : List NodeId) (g : Forest) (ps : List Program)
    (ns drained : List NodeId) (xs : List Piece) : Prop where
  depicts : List.Forall₂ (w.drawn g ps).Depicts ns xs
  mem_drained_iff {v : NodeId} : v ∈ drained ↔ v ∈ held ∧ w.forest.kind v = .fragment
  held_of_parent_eq_none {l : NodeId} :
    l ∈ ns → l < w.forest.size → w.forest.parent l = none → l ∈ held

theorem not_mem_drained {xs : List Piece} {ns : List NodeId} (h : Offered inside w p held)
    (hd : Draws w held g ps ns drained xs) : p ∉ drained := fun hin =>
  (h.free (hd.mem_drained_iff.1 hin).1).ne rfl

/-- A text takes the place of a comment. -/
theorem exists_draws_text (hf : w.forest.Sound) (hk : w.forest.kind n = .comment)
    (hn : w.forest.parent n = some p) (kind s : String) :
    ∃ g ns drained, Activity.place (·.placeText n kind s) w = some (.ok (), w.drawn g []) ∧
      Redraws w.forest g n ns drained ∧ Draws w [] g [] ns drained [.text s] ∧ n ∉ ns := by
  obtain ⟨g, hplace, hr, hlt, hkind, hdata⟩ := exists_redraws_text hf hk hn kind s
  refine ⟨g, _, _, ?_, hr, ⟨.cons ⟨hlt, hkind, hdata⟩ .nil, by simp, fun {l} hl hlt' _ => ?_⟩,
    fun hin => ?_⟩
  · rw [Activity.place, hplace]
    rfl
  · obtain rfl := List.mem_singleton.1 hl
    exact absurd hlt' (Nat.lt_irrefl _)
  · exact absurd (lt_size_of_parent hn) (List.mem_singleton.1 hin).not_lt

/-- A node, or what is in it, takes the place of a comment. -/
theorem exists_draws_node (hf : w.forest.Sound) (hk : w.forest.kind n = .comment)
    (hn : w.forest.parent n = some p) (h : Offered inside w p [v]) :
    ∃ g ns drained, Activity.place (·.placeNode n v) w = some (.ok (), w.drawn g []) ∧
      Redraws w.forest g n ns drained ∧ Draws w [v] g [] ns drained (inside v) ∧ n ∉ ns := by
  have hmem : v ∈ [v] := List.mem_singleton_self v
  obtain ⟨g, hplace, hr⟩ := exists_redraws_node hf hk hn (h.free hmem)
  refine ⟨g, _, _, ?_, hr, ⟨(h.brings hmem).imp fun _ _ hl => hl.drawn hr [], fun {u} => ?_,
    fun {l} hl _ hnone => ?_⟩, fun hin => ?_⟩
  · rw [Activity.place, hplace]
    rfl
  · unfold emptied
    split_ifs with hfr
    · refine ⟨fun hu => ⟨hu, ?_⟩, And.left⟩
      rwa [List.mem_singleton.1 hu]
    · refine ⟨fun hu => absurd hu List.not_mem_nil, fun hu => ?_⟩
      rw [List.mem_singleton.1 hu.1] at hu
      exact absurd hu.2 hfr
  · unfold pickUp at hl
    split_ifs at hl with hfr
    · rw [hf.mem_children_iff.1 hl] at hnone
      cases hnone
    · exact hl
  · unfold pickUp at hin
    split_ifs at hin with hfr
    · exact (h.free hmem).ne (Option.some.inj (hn.symm.trans (hf.mem_children_iff.1 hin)))
    · rw [List.mem_singleton.1 hin, (h.free hmem).parent_eq] at hn
      cases hn

/-- What is drawn in the place of a new slot before the comment `n` is drawn before `n`. -/
theorem Draws.slot {ns : List NodeId} {xs : List Piece} (hf : w.forest.Sound)
    (hn : w.forest.parent n = some p) (hr : Redraws w.forest f n [w.forest.size, n] [])
    (hsize : w.forest.size < f.size) (hr' : Redraws f g w.forest.size ns drained)
    (hd : Draws (w.setForest f) held g ps ns drained xs) (hheld : ∀ v ∈ held, v < w.forest.size) :
    Redraws w.forest g n (ns ++ [n]) drained ∧ Draws w held g ps ns drained xs := by
  have hlt : n < w.forest.size := lt_size_of_parent hn
  have hboth := hr.trans hf hr' (Or.inr le_rfl)
  have hns : replaced w.forest.size ns [w.forest.size, n] = ns ++ [n] := by
    simp [replaced, hlt.ne]
  rw [hns, List.nil_append] at hboth
  refine ⟨hboth, hd.depicts, fun {v} => ?_, fun {l} hl hl' hnone => ?_⟩
  · rw [hd.mem_drained_iff]
    exact and_congr_right fun hv => by rw [forest_setForest, hr.kind_eq (hheld v hv)]
  · refine hd.held_of_parent_eq_none hl (hl'.trans hsize) ?_
    refine hr.parent_eq_none hf hnone fun hin => ?_
    rcases List.mem_pair.1 hin with rfl | rfl
    · exact absurd hl' (Nat.lt_irrefl _)
    · rw [hn] at hnone
      cases hnone

/-- What is drawn before the same comment afterwards comes behind what has been drawn. -/
theorem Draws.append {ns ns' drained' : List NodeId} {xs xs' : List Piece} (hf : w.forest.Sound)
    (hn : w.forest.parent n = some p) (h : Offered inside w p (held ++ held'))
    (hr : Redraws w.forest f n (ns ++ [n]) drained) (hd : Draws w held f ps ns drained xs)
    (hr' : Redraws f g n (ns' ++ [n]) drained')
    (hd' : Draws (w.drawn f ps) held' g qs ns' drained' xs') :
    Redraws w.forest g n (ns ++ ns' ++ [n]) (drained ++ drained') ∧
      Draws w (held ++ held') g (ps ++ qs) (ns ++ ns') (drained ++ drained') (xs ++ xs') := by
  have hp : p ∉ drained := not_mem_drained (h.sublist (List.sublist_append_left _ _)) hd
  have hout : n ∉ ns := fun hin =>
    (List.nodup_append.1 (hr.nodup hf hn hp)).2.2 n hin n (List.mem_singleton_self n) rfl
  have hboth := hr.trans hf hr' (Or.inl rfl)
  rw [replaced_append, replaced_singleton, replaced_of_not_mem hout, ← List.append_assoc] at hboth
  refine ⟨hboth, List.rel_append (hd.depicts.imp fun _ _ hl => ?_) ?_, fun {v} => ?_,
    fun {l} hl hl' hnone => ?_⟩
  · have hlater := hl.drawn hr' qs
    rwa [World.drawn_drawn] at hlater
  · rw [← World.drawn_drawn]
    exact hd'.depicts
  · rw [List.mem_append, List.mem_append, hd.mem_drained_iff, hd'.mem_drained_iff, or_and_right]
    refine or_congr_right (and_congr_right fun hv => ?_)
    rw [World.forest_drawn, hr.kind_eq (h.free (List.mem_append_right held hv)).lt_size]
  · rcases List.mem_append.1 hl with hl | hl
    · exact List.mem_append_left _ (hd.held_of_parent_eq_none hl hl' hnone)
    · by_cases hin : l ∈ ns ++ [n]
      · rcases List.mem_append.1 hin with hin | hin
        · exact List.mem_append_left _ (hd.held_of_parent_eq_none hin hl' hnone)
        · rw [List.mem_singleton.1 hin, hn] at hnone
          cases hnone
      · exact List.mem_append_right _ (hd'.held_of_parent_eq_none hl (hl'.trans_le hr.size_le)
          (hr.parent_eq_none hf hnone hin))

/-- When all items have been drawn before the comment `n`, the comment is taken away. -/
theorem Draws.iterable {items : List Expression} {ns : List NodeId} {xs : List Piece}
    (hf : w.forest.Sound) (hk : w.forest.kind n = .comment) (hn : w.forest.parent n = some p)
    (h : Offered inside w p (Expression.heldNodesAll items))
    (hr : Redraws w.forest g n (ns ++ [n]) drained)
    (hd : Draws w (Expression.heldNodesAll items) g ps ns drained xs)
    (hslots : ∀ (run : Runner) (binding : Binding → NodeId → Activity (Except RenderFault Unit)),
      applySlots run binding p n items w = some (.ok (), w.drawn g ps)) :
    (∀ (run : Runner) (binding : Binding → NodeId → Activity (Except RenderFault Unit)),
      applyTo run binding n (.iterable items) w = some (.ok (), w.drawn (g.remove n) ps)) ∧
      Redraws w.forest (g.remove n) n ns drained ∧
      Draws w (Expression.heldNodesAll items) (g.remove n) ps ns drained xs ∧ n ∉ ns := by
  have hp : p ∉ drained := not_mem_drained h hd
  have hk' : g.kind n = .comment := (hr.kind_eq (lt_size_of_parent hn)).trans hk
  have hremove := redraws_remove hr.sound hk'
  have hout : n ∉ ns := fun hin =>
    (List.nodup_append.1 (hr.nodup hf hn hp)).2.2 n hin n (List.mem_singleton_self n) rfl
  have hboth := hr.trans hf hremove (Or.inl rfl)
  rw [replaced_append, replaced_singleton, replaced_of_not_mem hout, List.append_nil,
    List.append_nil] at hboth
  refine ⟨fun run binding => ?_, hboth, ⟨hd.depicts.imp fun _ _ hl => ?_, hd.mem_drained_iff,
    hd.held_of_parent_eq_none⟩, hout⟩
  · rw [applyTo]
    simp only [Activity.get_bind, hk, hn]
    rw [Activity.bind_of_eq_some (hslots run binding)]
    rfl
  · have hl' := hl.drawn hremove []
    rwa [World.drawn_drawn, List.append_nil] at hl'

mutual

/-- Binding a value without code to a comment among the children of `p` puts its pieces in the place
of the comment, and tasks wait for the parts that come later. -/
theorem exists_draws : ∀ (e : Expression) {w : World} {n : NodeId}, e.Showable → w.forest.Sound →
    w.forest.Vacant p n → Offered inside w p e.heldNodes →
    ∃ g ps ns drained,
      (∀ (run : Runner) (binding : Binding → NodeId → Activity (Except RenderFault Unit)),
        applyTo run binding n e w = some (.ok (), w.drawn g ps)) ∧ ps.length = e.lateCount ∧
      Redraws w.forest g n ns drained ∧
      Draws w e.heldNodes g ps ns drained (e.pieces inside w.taskCount)
  | .empty, w, n, _, hf, hn, _ => by
    have hlt : n < w.forest.size := lt_size_of_parent hn.parent_eq
    refine ⟨w.forest, [], [n], [], fun _ _ => rfl, rfl, .refl hf n,
      .cons ⟨hlt, hn.kind_eq, hn.data_eq⟩ .nil, by simp [Expression.heldNodes],
      fun {l} hl _ hnone => ?_⟩
    rw [List.mem_singleton.1 hl, hn.parent_eq] at hnone
    cases hnone
  | .text s, w, n, _, hf, hn, _ => by
    obtain ⟨g, ns, drained, hplace, hr, hd, -⟩ :=
      exists_draws_text hf hn.kind_eq hn.parent_eq "text" s
    exact ⟨g, [], ns, drained, fun _ _ => by rw [applyTo, hplace], rfl, hr, hd⟩
  | .number x, w, n, _, hf, hn, _ => by
    obtain ⟨g, ns, drained, hplace, hr, hd, -⟩ :=
      exists_draws_text hf hn.kind_eq hn.parent_eq "number" x.text
    exact ⟨g, [], ns, drained, fun _ _ => by rw [applyTo, hplace], rfl, hr, hd⟩
  | .bigint i, w, n, _, hf, hn, _ => by
    obtain ⟨g, ns, drained, hplace, hr, hd, -⟩ :=
      exists_draws_text hf hn.kind_eq hn.parent_eq "bigint" (toString i)
    exact ⟨g, [], ns, drained, fun _ _ => by rw [applyTo, hplace], rfl, hr, hd⟩
  | .node v, w, n, _, hf, hn, h => by
    obtain ⟨g, ns, drained, hplace, hr, hd, -⟩ := exists_draws_node hf hn.kind_eq hn.parent_eq h
    exact ⟨g, [], ns, drained, fun _ _ => by rw [applyTo, hplace], rfl, hr, hd⟩
  | .deferred promise, w, n, _, hf, hn, _ => by
    have hlt : n < w.forest.size := lt_size_of_parent hn.parent_eq
    refine ⟨w.forest, [.deferred promise n], [n], [], fun _ _ => by rw [applyTo]; rfl, rfl,
      .refl hf n, .cons ⟨?_, hlt, hn.kind_eq, hn.data_eq⟩ .nil, by simp [Expression.heldNodes],
      fun {l} hl _ hnone => ?_⟩
    · exact World.taskTarget?_append_new (w.programs_drawn w.forest _)
    · rw [List.mem_singleton.1 hl, hn.parent_eq] at hnone
      cases hnone
  | .iterable items, w, n, hshow, hf, hn, h => by
    obtain ⟨g, ps, ns, drained, hslots, hlen, hr, hd⟩ :=
      exists_draws_all items hshow hf hn.kind_eq hn.parent_eq h
    obtain ⟨happly, hr', hd', -⟩ := hd.iterable hf hn.kind_eq hn.parent_eq h hr hslots
    exact ⟨g.remove n, ps, ns, drained, happly, hlen, hr', hd'⟩
  | .function _, _, _, hshow, _, _, _ => hshow.elim
  | .capability _ _, _, _, hshow, _, _, _ => hshow.elim

/-- Binding several values without code, each to a slot of its own before the comment `n`, puts
their pieces before `n`. -/
theorem exists_draws_all : ∀ (items : List Expression) {w : World} {n : NodeId},
    Expression.ShowableAll items → w.forest.Sound → w.forest.kind n = .comment →
    w.forest.parent n = some p → Offered inside w p (Expression.heldNodesAll items) →
    ∃ g ps ns drained,
      (∀ (run : Runner) (binding : Binding → NodeId → Activity (Except RenderFault Unit)),
        applySlots run binding p n items w = some (.ok (), w.drawn g ps)) ∧
      ps.length = Expression.lateCountAll items ∧
      Redraws w.forest g n (ns ++ [n]) drained ∧
      Draws w (Expression.heldNodesAll items) g ps ns drained
        (Expression.piecesAll inside w.taskCount items)
  | [], w, n, _, hf, _, _, _ =>
    ⟨w.forest, [], [], [], fun _ _ => rfl, rfl, .refl hf n, .nil,
      by simp [Expression.heldNodesAll], fun hl => absurd hl List.not_mem_nil⟩
  | item :: items, w, n, hshow, hf, hk, hn, h => by
    have hfirst := h.sublist (List.sublist_append_left item.heldNodes _)
    have hrest := h.sublist (List.sublist_append_right item.heldNodes _)
    -- The slot of the item is put before the comment.
    obtain ⟨g₁, hslot, hr₁, hsize, hkind, hdata⟩ := exists_redraws_slot hf hn
    have hvacant : g₁.Vacant p w.forest.size := ⟨hkind, hdata,
      hr₁.parent_of_mem hf hn List.not_mem_nil List.mem_cons_self⟩
    have hfirst' : Offered inside (w.setForest g₁) p item.heldNodes := by
      refine hfirst.drawn hf hr₁ hn (fun v hv => ⟨fun hin => ?_, List.not_mem_nil⟩) []
      rcases List.mem_pair.1 hin with rfl | rfl
      · exact absurd (hfirst.free hv).lt_size (Nat.lt_irrefl _)
      · exact absurd (hn.symm.trans (hfirst.free hv).parent_eq) nofun
    -- The item takes the place of its slot.
    obtain ⟨g₂, ps₁, ns₁, drained₁, happly, hlen₁, hr₂, hd₁⟩ :=
      exists_draws item (w := w.setForest g₁) hshow.1 hr₁.sound hvacant hfirst'
    obtain ⟨hr₁₂, hd₁⟩ := hd₁.slot hf hn hr₁ hsize hr₂ fun v hv => (hfirst.free hv).lt_size
    have hk₂ : g₂.kind n = .comment := (hr₁₂.kind_eq (lt_size_of_parent hn)).trans hk
    have hn₂ : g₂.parent n = some p := hr₁₂.parent_of_mem hf hn (not_mem_drained hfirst hd₁)
      (List.mem_append_right _ (List.mem_singleton_self n))
    have hrest' : Offered inside (w.drawn g₂ ps₁) p (Expression.heldNodesAll items) := by
      refine hrest.drawn hf hr₁₂ hn (fun v hv => ?_) ps₁
      have hout : v ∉ item.heldNodes := fun hin =>
        (List.nodup_append.1 h.nodup).2.2 v hin v hv rfl
      have hfree := hrest.free hv
      refine ⟨fun hin => ?_, fun hin => hout (hd₁.mem_drained_iff.1 hin).1⟩
      rcases List.mem_append.1 hin with hin | hin
      · exact hout (hd₁.held_of_parent_eq_none hin hfree.lt_size hfree.parent_eq)
      · rw [List.mem_singleton.1 hin] at hfree
        exact absurd (hn.symm.trans hfree.parent_eq) nofun
    -- The other items follow, before the same comment.
    obtain ⟨g₃, ps₂, ns₂, drained₂, hslots, hlen₂, hr₃, hd₂⟩ :=
      exists_draws_all items (w := w.drawn g₂ ps₁) hshow.2 hr₁₂.sound hk₂ hn₂ hrest'
    obtain ⟨hr, hd⟩ := hd₁.append hf hn h hr₁₂ hr₃ hd₂
    refine ⟨g₃, ps₁ ++ ps₂, ns₁ ++ ns₂, drained₁ ++ drained₂, fun run binding => ?_, ?_, hr, ?_⟩
    · rw [applySlots]
      simp only [hslot]
      rw [Activity.bind_of_eq_some (happly run binding)]
      exact (hslots run binding).trans (by rw [World.drawn_drawn])
    · rw [List.length_append, hlen₁, hlen₂, Expression.lateCountAll]
    · rw [World.taskCount_drawn, hlen₁] at hd
      exact hd

end

/-! ### A comment that stands nowhere -/

end Run

/-- Everything is as it was, but for new nodes and the new tasks `ps`. -/
structure World.Extends (w w' : World) (ps : List Program) : Prop where
  sound : w'.forest.Sound
  size_le : w.forest.size ≤ w'.forest.size
  cell_eq {m : NodeId} : m < w.forest.size → w'.forest.cell m = w.forest.cell m
  programs_eq : w'.tasks.scheduler.programs = w.tasks.scheduler.programs ++ ps.toArray

theorem World.Extends.of_eq (hf : w.forest.Sound) (hforest : w'.forest = w.forest)
    (hprograms : w'.tasks.scheduler.programs = w.tasks.scheduler.programs) :
    w.Extends w' [] := by
  refine ⟨hforest ▸ hf, hforest ▸ le_rfl, fun _ => by rw [hforest], ?_⟩
  rw [hprograms, Array.append_empty]

theorem Scheduler.programs_dropReceivers (s : Scheduler) (cs : List ℕ) :
    (cs.foldl dropReceiver s).programs = s.programs := by
  induction cs generalizing s with
  | nil => rfl
  | cons c cs ih => exact ih (s.dropReceiver c)

namespace Run

/-- Binding inert code to a comment gives an outcome and changes no node. -/
theorem exists_bind_of_inert {b : Binding} (hb : b.Inert) (hn : w.forest.kind n = .comment) :
    ∃ outcome w', (∀ run, bind run b n w = some (outcome, w')) ∧ w'.forest = w.forest ∧
      w'.tasks = w.tasks := by
  have helement : ¬ (w.forest.kind n).isElement = true := by simp [hn, Kind.isElement]
  cases b with
  | fail fault => exact ⟨_, w, fun _ => rfl, rfl, rfl⟩
  | setAttr name value =>
    refine ⟨.error (w.forest.unsupported "attribute setter" n), w, fun _ => ?_, rfl, rfl⟩
    simp only [bind, Activity.place, placeAttr, if_neg helement]
    rfl
  | listen event routine once =>
    refine ⟨.error (w.forest.unsupported "event binding" n), w, fun _ => ?_, rfl, rfl⟩
    simp only [bind, Activity.get_bind, if_neg helement]
    rfl
  | capture slot => exact ⟨_, _, fun _ => rfl, rfl, rfl⟩
  | function as commands result => exact hb.elim
  | live value => exact hb.elim

/-- Binding a value that runs no code to a comment without a parent changes nothing that was there,
whatever the value is: at most there are a new text, and a task if the value itself comes later. -/
theorem exists_extends {e : Expression} (he : e.Inert) (hf : w.forest.Sound)
    (hn : w.forest.kind n = .comment) (hnone : w.forest.parent n = none) :
    ∃ outcome w' ps, (∀ run, applyTo run (bind run) n e w = some (outcome, w')) ∧
      w.Extends w' ps ∧ ps.length = e.lateAlone ∧ ∀ p ∈ ps, ∃ promise, p = .deferred promise n := by
  have hno : ∀ p ∈ ([] : List Program), ∃ promise, p = .deferred promise n := fun _ hp => nomatch hp
  have htext (kind s : String) : ∃ outcome w',
      Activity.place (·.placeText n kind s) w = some (outcome, w') ∧ w.Extends w' [] := by
    have hparent : (w.forest.create .text s).2.parent n = none := by rw [parent_create, hnone]
    refine ⟨.ok (), w.setForest (w.forest.create .text s).2, ?_, hf.create .text s isSmall_empty,
      ?_, fun hm => ?_, by rw [Array.append_empty]; rfl⟩
    · simp only [Activity.place, placeText, hn, replaceWith, hparent]
      rfl
    · simp
    · rw [forest_setForest, cell_create, if_neg hm.ne]
  cases e with
  | empty => exact ⟨.ok (), w, [], fun _ => rfl, .of_eq hf rfl rfl, rfl, hno⟩
  | text s =>
    obtain ⟨outcome, w', hplace, hext⟩ := htext "text" s
    exact ⟨outcome, w', [], fun _ => by rw [applyTo, hplace], hext, rfl, hno⟩
  | number x =>
    obtain ⟨outcome, w', hplace, hext⟩ := htext "number" x.text
    exact ⟨outcome, w', [], fun _ => by rw [applyTo, hplace], hext, rfl, hno⟩
  | bigint i =>
    obtain ⟨outcome, w', hplace, hext⟩ := htext "bigint" (toString i)
    exact ⟨outcome, w', [], fun _ => by rw [applyTo, hplace], hext, rfl, hno⟩
  | node v =>
    have hsame : (w.forest.placeNode n v).2 = w.forest := by
      unfold placeNode
      split_ifs with ha he
      · simp [hn, Kind.isElement] at he
      · rfl
      · simp only [hn, replaceWith, hnone]
        rfl
    refine ⟨_, w.setForest (w.forest.placeNode n v).2, [], fun _ => by rw [applyTo]; rfl,
      .of_eq hf ?_ rfl, rfl, hno⟩
    rw [forest_setForest, hsame]
  | capability name value =>
    refine ⟨_, w.setForest (placed (w.forest.setAttr n name value)).2, [],
      fun _ => by rw [applyTo]; rfl, .of_eq hf ?_ rfl, rfl, hno⟩
    rw [forest_setForest, snd_placed, setAttr_of_comment hn]
  | function b =>
    obtain ⟨outcome, w', hbind, hforest, htasks⟩ := exists_bind_of_inert he hn
    exact ⟨outcome, w', [], fun run => by rw [applyTo, hbind run],
      .of_eq hf hforest (by rw [htasks]), rfl, hno⟩
  | deferred promise =>
    exact ⟨.ok (), w.drawn w.forest [.deferred promise n], [.deferred promise n],
      fun _ => by rw [applyTo]; rfl, ⟨hf, le_rfl, fun _ => rfl, w.programs_drawn _ _⟩, rfl,
      fun p hp => ⟨promise, List.mem_singleton.1 hp⟩⟩
  | iterable items =>
    refine ⟨.error (w.forest.unsupported "iterable" n), w.dropped items, [], fun _ => ?_,
      .of_eq hf rfl (Scheduler.programs_dropReceivers _ _), rfl, hno⟩
    rw [applyTo]
    simp only [Activity.get_bind, hn, hnone]
    rfl

end Run

end LiveMarkup
