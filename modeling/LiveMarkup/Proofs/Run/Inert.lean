import Mathlib.Order.Interval.Set.Defs
import LiveMarkup.Proofs.Forest.Alike
import LiveMarkup.Proofs.Forest.Subtrees
import LiveMarkup.Proofs.Run.KeepingCommands
import LiveMarkup.Proofs.Run.Repeated

/-!
# Templates are inert

The content of a template is seated in a world (`World.seat`): it lies in the forest as nodes that
the template holds and that nothing else leads to.  Rendering copies these nodes
(`Inert.instantiate_eq`), so all that scripts get to see of a template are copies.  Whatever scripts
do afterwards, the nodes of the content stay as they are, and nothing that scripts can get at leads
to one of them; so rendering the same texts gives the same markup at any time
(`inert_of_reaches`).
-/

namespace LiveMarkup

variable {S : Set NodeId} {f g : Forest} {m n : NodeId} {v w : World} {base : String}
  {segments : List String} {t : Template}

/-! ### Seats -/

namespace Forest

/-- The nodes that are new when a fragment of trees has been planted. -/
def seat (f : Forest) (ts : List Tree) : Set NodeId :=
  Set.Ico f.size (f.plantFragment ts).2.size

theorem sealed_empty : empty.Sealed ∅ :=
  ⟨fun hn => hn.elim, fun _ => by
    rw [cell_of_size_le (Nat.zero_le _)]
    exact Cell.linksTo_detached _ _ _⟩

/-- What is new in a forest is sealed off if nothing old has changed. -/
theorem Sealed.of_grows (hf : f.Sealed ∅) (hfg : Grows f g) :
    g.Sealed (Set.Ico f.size g.size) ∧
      ∀ n, f.Open ∅ n → g.Open (Set.Ico f.size g.size) n := by
  have hopen : ∀ n, f.Open ∅ n → g.Open (Set.Ico f.size g.size) n := fun n hn =>
    ⟨hn.lt.trans_le hfg.size_le, fun hin => Nat.not_le_of_gt hn.lt hin.1⟩
  refine ⟨⟨fun hn => hn.2, fun {n} hn => ?_⟩, hopen⟩
  by_cases hlt : n < f.size
  · rw [hfg.cell_eq hlt]
    exact (hf.links id).mono hopen
  · have hle : g.size ≤ n := by
      by_contra hgt
      exact hn ⟨Nat.le_of_not_lt hlt, Nat.lt_of_not_le hgt⟩
    rw [cell_of_size_le hle]
    exact Cell.linksTo_detached _ _ _

section Layout

variable {Ls : List (Labelled (List ℕ))}

/-- The new nodes are the fragment and those with the numbers after it. -/
theorem mem_seat : n ∈ f.seat (Labelled.trees Ls) ↔ n = f.size ∨
    n ∈ (Labelled.labelsAll (Labelled.numberedAll (f.size + 1) Ls)).map Prod.fst := by
  rw [Labelled.fst_labelsAll_numbered, List.mem_range'_1, seat, Set.mem_Ico, size_plantFragment]
  have hsplit : ∀ a k i : ℕ, a ≤ i ∧ i < a + 1 + k ↔ i = a ∨ a + 1 ≤ i ∧ i < a + 1 + k := by
    omega
  exact hsplit _ _ _

variable (hcell : ∀ n ∈ f.seat (Labelled.trees Ls),
  g.cell n = (f.plantFragment (Labelled.trees Ls)).2.cell n)

include hcell

/-- A fragment whose nodes are as they were when it was planted is laid out as it was. -/
theorem holdsBelow_of_seat :
    g.HoldsBelow Prod.fst f.size (Labelled.numberedAll (f.size + 1) Ls) := by
  obtain ⟨-, -, -, -, hlayout⟩ := f.holdsBelow_plantFragment Ls
  exact hlayout.congr (hcell _ (mem_seat.2 (Or.inl rfl))) fun l hl =>
    hcell _ (mem_seat.2 (Or.inr (List.mem_map_of_mem hl)))

theorem snapshot_of_seat : g.snapshot f.size = .fragment (Labelled.trees Ls) := by
  obtain ⟨-, hkind, -, -, -⟩ := f.holdsBelow_plantFragment Ls
  have hroot : g.kind f.size = .fragment := by
    rw [kind, hcell _ (mem_seat.2 (Or.inl rfl))]
    exact hkind
  rw [(holdsBelow_of_seat hcell).snapshot hroot (Labelled.nodup_labels_numberedAll _ Ls),
    Labelled.trees_numberedAll]

/-- Holding the fragment is enough to hold all of its nodes. -/
theorem mem_heldBelow_of_seat {ns : List NodeId} (hns : f.size ∈ ns)
    (hn : n ∈ f.seat (Labelled.trees Ls)) : n ∈ g.heldBelow (g.size + 1) ns := by
  have hlayout := holdsBelow_of_seat hcell
  have hlength := hlayout.holds.length_le_size (Labelled.nodup_labels_numberedAll _ Ls)
  have hids := HoldsBelow.mapAll (ι := id) (φ := Prod.fst) hlayout
  refine hids.mem_heldBelow hns ?_ n (List.mem_cons.2 ?_)
  · rwa [Labelled.labelsAll_mapAll, List.length_map]
  · rw [Labelled.labelsAll_mapAll]
    exact mem_seat.1 hn

end Layout

/-- Paths lead to the same nodes together if each of them does. -/
theorem descendAll_congr {paths : List Path}
    (h : ∀ path ∈ paths, g.descend n path = f.descend n path) :
    g.descendAll n paths = f.descendAll n paths := by
  induction paths with
  | nil => simp only [descendAll]
  | cons path paths ih =>
    obtain ⟨hpath, hpaths⟩ := List.forall_mem_cons.1 h
    simp only [descendAll, hpath, ih hpaths]

end Forest

/-- The paths of a template lead through its content wherever that lies. -/
theorem Template.descendAll_of_holdsBelow (ht : Template.compile base segments = .ok t) {k : ℕ}
    (hf : f.HoldsBelow Prod.fst n (Labelled.numberedAll k (Template.cutSource base segments)))
    (hg : g.HoldsBelow Prod.fst n (Labelled.numberedAll k (Template.cutSource base segments))) :
    g.descendAll n t.paths = f.descendAll n t.paths := by
  obtain ⟨-, -, -, hpaths⟩ := Template.compile_eq_ok ht
  have hnamed := Template.namedAll_cutSource base segments
  rw [← Labelled.trees_numberedAll k] at hnamed
  refine Forest.descendAll_congr fun path hpath => ?_
  obtain ⟨i, hi⟩ := List.getElem?_of_mem hpath
  obtain ⟨b, hb, rfl, -⟩ := Template.exists_address ((hpaths i path).2 hi) k
  rw [hf.descend hnamed b hb, hg.descend hnamed b hb]

namespace World

/-- The world in which the content of a template lies in the forest, held by the template only. -/
def seat (w : World) (t : Template) : World :=
  { w.setForest (w.forest.plantFragment t.content).2 with held := w.forest.size :: w.held }

/-- Nothing is sealed off in a fresh world, and every link in it leads to a node that is there. -/
theorem sealed_fresh (base : String) : (fresh base).Sealed ∅ := by
  obtain ⟨hplant, hbody⟩ := Forest.Avoids.plant Forest.sealed_empty
    (Page.bodyTree Page.shellMarkup)
  refine ⟨⟨hplant.seals, hbody, nofun, nofun, nofun, nofun, nofun⟩, fun _ _ _ _ hn => hn.elim,
    fun hr => ?_, fun hp => ?_, Templates.sound_empty base⟩
  · exact absurd hr (Array.not_mem_empty _)
  · exact absurd hp (Array.not_mem_empty _)

/-- The content of a template that has been seated is sealed off. -/
theorem Sealed.seat (hw : w.Sealed ∅) (ht : Template.compile base segments = .ok t) :
    (w.seat t).Sealed (w.forest.seat t.content) := by
  have hcontent := (Template.compile_eq_ok ht).1
  obtain ⟨hforest, hopen⟩ := hw.forest.of_grows
    (w.forest.holdsBelow_plantFragment (Template.cutSource base segments)).2.2.1
  rw [← hcontent] at hforest hopen
  refine ⟨hw.page.transfer hforest hopen, fun g _ hcell n hn => ?_,
    fun hr hn => hopen _ (hw.routines hr hn), fun hp hn => hopen _ (hw.programs hp hn),
    hw.templates⟩
  rw [hcontent] at hcell hn
  refine Forest.mem_heldBelow_of_seat (fun m hm => ?_) List.mem_cons_self hn
  rw [hcell m hm, ← hcontent]
  rfl

/-! ### What scripts can get at -/

/-- The nodes that scripts can get at: the document, what is bound to names, what is shown at
mounts, the nodes of events, and the nodes that routines and tasks act on. -/
def handedOut (w : World) : List NodeId :=
  let p := w.page
  p.body :: p.nodes.map Prod.snd ++ p.weak.map Prod.snd ++ p.slots.map Prod.snd ++
    p.mounts.map (fun (_, m) => m.container) ++
    p.events.flatMap (fun e => e.target :: e.current.toList) ++
    w.routines.toList.filterMap Routine.target? ++
    w.tasks.scheduler.programs.toList.filterMap Program.target?

theorem Sealed.open_of_mem_handedOut (hw : w.Sealed S) (hn : n ∈ w.handedOut) :
    w.forest.Open S n := by
  have htable {t : Table NodeId} (h : t.All (w.forest.Open S)) (hn : n ∈ t.map Prod.snd) :
      w.forest.Open S n := by
    obtain ⟨e, he, rfl⟩ := List.mem_map.1 hn
    exact h e he
  simp only [handedOut, List.cons_append, List.mem_cons, List.mem_append] at hn
  rcases hn with rfl | (((((hn | hn) | hn) | hn) | hn) | hn) | hn
  · exact hw.page.body
  · exact htable hw.page.nodes hn
  · exact htable hw.page.weak hn
  · exact htable hw.page.slots hn
  · obtain ⟨e, he, rfl⟩ := List.mem_map.1 hn
    exact hw.page.mounts e he
  · obtain ⟨e, he, hn⟩ := List.mem_flatMap.1 hn
    rcases List.mem_cons.1 hn with rfl | hn
    · exact (hw.page.events e he).target
    · exact (hw.page.events e he).current (Option.mem_toList.1 hn)
  · obtain ⟨r, hr, htarget⟩ := List.mem_filterMap.1 hn
    exact hw.routines (Array.mem_toList_iff.1 hr) htarget
  · obtain ⟨p, hp, htarget⟩ := List.mem_filterMap.1 hn
    exact hw.programs (Array.mem_toList_iff.1 hp) htarget

/-- A session leads from one world to another. -/
def Reaches (v w : World) : Prop :=
  ∃ fuel watch cs reports, v.performAll fuel watch cs = some (reports, w)

theorem Sealed.of_reaches (hv : v.Sealed S) (h : v.Reaches w) : Avoids S v w := by
  obtain ⟨fuel, watch, cs, reports, h⟩ := h
  exact hv.performAll h

end World

namespace Run

/-! ### Inert templates -/

/-- A template of the given segments was seated in the world `v`, and now the world is `w`. -/
structure Inert (base : String) (segments : List String) (t : Template) (v w : World) : Prop where
  /-- Every node of the content is what it was, -/
  cell_eq {n : NodeId} : n ∈ v.forest.seat t.content → w.forest.cell n = (v.seat t).forest.cell n
  /-- so the content looks as it was compiled, -/
  snapshot_eq : w.forest.snapshot v.forest.size = .fragment t.content
  /-- and the paths lead to the nodes they led to. -/
  descendAll_eq : ∃ ns, ns.length = holeCount segments ∧
    (v.seat t).forest.descendAll v.forest.size t.paths = .ok ns ∧
    w.forest.descendAll v.forest.size t.paths = .ok ns
  /-- The template is instantiated by copying the content and following the paths in the copy. -/
  instantiate_eq : instantiate t w =
    let (root, f) := w.forest.copy v.forest.size true
    some ((f.descendAll root t.paths).map ((root, ·)), w.setForest f)
  /-- Nothing that scripts can get at leads to a node of the content. -/
  apart {n m : NodeId} : n ∈ w.handedOut → w.forest.LeadsTo n m → m ∉ v.forest.seat t.content
  /-- A value that is built, for example by rendering, does not bring along such a node either. -/
  apart_of_build {fuel : ℕ} {spec : Spec} {e : Expression} {u : World} {n m : NodeId} :
    run fuel (.build spec) w = some (e, u) → n ∈ e.heldNodes → u.forest.LeadsTo n m →
      m ∉ v.forest.seat t.content
  /-- All templates that had been compiled are what they were, -/
  template_eq {k : ℕ} : k < v.templates.cache.templates.size →
    w.templates.cache.template k = v.templates.cache.template k
  /-- and strings with these segments give this template. -/
  fetch_eq {s : ℕ} : (w.templates.cache.stringsAt s).segments = segments →
    fetch s w = some (.ok t, w.fetched s)

theorem inert_of_avoids (ht : Template.compile base segments = .ok t)
    (hbase : v.templates.base = base)
    (h : World.Avoids (v.forest.seat t.content) (v.seat t) w) :
    Inert base segments t v w := by
  obtain ⟨hcontent, -, -, -⟩ := Template.compile_eq_ok ht
  have hcell : ∀ n ∈ v.forest.seat (Labelled.trees (Template.cutSource base segments)),
      w.forest.cell n = (v.forest.plantFragment
        (Labelled.trees (Template.cutSource base segments))).2.cell n := by
    rw [← hcontent]
    exact fun n hn => h.forest.cell_eq hn
  have hsnapshot := Forest.snapshot_of_seat hcell
  rw [← hcontent] at hsnapshot
  refine ⟨fun hn => h.forest.cell_eq hn, hsnapshot, ?_, ?_, fun hn hlead => ?_,
    fun hbuild hn hlead => ?_, fun hk => h.templates.cache.template_eq hk, fun hs => ?_⟩
  · obtain ⟨ns, hdescend, hlen, -, -⟩ := Template.exists_instance ht v.forest
    obtain ⟨-, -, -, -, hlayout⟩ :=
      v.forest.holdsBelow_plantFragment (Template.cutSource base segments)
    rw [← hcontent] at hlayout
    refine ⟨ns, hlen, hdescend, ?_⟩
    rw [Template.descendAll_of_holdsBelow ht hlayout (Forest.holdsBelow_of_seat hcell)]
    exact hdescend
  · rw [Forest.copy, if_pos rfl, hsnapshot]
    rfl
  · exact (h.seals.forest.open_of_leadsTo (h.seals.open_of_mem_handedOut hn) hlead).not_mem
  · obtain ⟨hu, he⟩ := keeps_run _ (.build _) h.seals trivial _ _ hbuild
    exact (hu.seals.forest.open_of_leadsTo (he _ hn) hlead).not_mem
  · have hsame : w.templates.base = base := h.templates.base_eq.trans hbase
    refine Run.fetch_eq hsame (hsame ▸ h.seals.templates.cache) ?_
    rw [hs]
    exact ht

/-- Templates are inert.  Let a template be compiled, and its content be seated in a world to which
any session has led from the fresh one.  After any session, the content is as it was, and nothing
that scripts can get at leads to one of its nodes.  Hence the reply to rendering given texts with
strings of given segments is the same in all worlds to which sessions lead, whatever happened
before. -/
theorem inert_of_reaches (ht : Template.compile base segments = .ok t) :
    (∀ v w, (World.fresh base).Reaches v → (v.seat t).Reaches w → Inert base segments t v w) ∧
      ∀ texts : List String, ∃ reply, ∀ (w : World) (source : TemplateSource) (fuel : ℕ)
        (watch : List String) (as : Option String),
        (World.fresh base).Reaches w ∨
          (∃ v, (World.fresh base).Reaches v ∧ (v.seat t).Reaches w) →
        Offers w segments source →
        ∃ report w', w.perform (fuel + 2) watch (.render source (texts.map .text) none as) =
          some (report, w') ∧ report.reply = reply := by
  have hsealed : ∀ v, (World.fresh base).Reaches v → World.Avoids ∅ (World.fresh base) v :=
    fun v hv => (World.sealed_fresh base).of_reaches hv
  have hseat : ∀ v w, (World.fresh base).Reaches v → (v.seat t).Reaches w →
      World.Avoids (v.forest.seat t.content) (v.seat t) w := fun v w hv hw =>
    ((hsealed v hv).seals.seat ht).of_reaches hw
  refine ⟨fun v w hv hw => inert_of_avoids ht (hsealed v hv).templates.base_eq (hseat v w hv hw),
    fun texts => ?_⟩
  obtain ⟨reply, hreply⟩ := exists_reply base segments texts
  refine ⟨reply, fun w source fuel watch as hw hsource => ?_⟩
  have htemplates : w.templates.base = base ∧ w.templates.Sound := by
    rcases hw with hw | ⟨v, hv, hw⟩
    · exact ⟨(hsealed w hw).templates.base_eq, (hsealed w hw).seals.templates⟩
    · have hkept := hseat v w hv hw
      exact ⟨hkept.templates.base_eq.trans (hsealed v hv).templates.base_eq,
        hkept.seals.templates⟩
  obtain ⟨hbase, hsound⟩ := htemplates
  obtain ⟨w', hrun⟩ := hreply fuel (w := { w with log := [] }) as hbase (hbase ▸ hsound.cache)
    hsource
  refine ⟨⟨reply, w'.release.log, watch.map w'.release.written⟩, w'.release, ?_, rfl⟩
  rw [World.perform, hrun]

/-- A template with a hole for the value of an attribute and a hole in a text. -/
def badge : List String := ["<p class=", ">Hi ", "</p>"]

/-- A badge that is rendered at once. -/
def wideBadge (as : Option String) : Command :=
  .render (.segments badge) [.text "wide", .text "you"] none as

/-- A badge whose text comes later, one with a text too few, and a wide one that is taken apart: a
class is written through the attribute node, and a handler moves the element elsewhere. -/
def badgeDeeds : List Command :=
  [.render (.segments badge) [.text "thin", .deferred (.text "later")] none (some "second"),
    .runUntilStalled,
    .render (.segments badge) [.text "wide"] none (some "third"),
    .page (.navigate "first" .first (some "p")),
    .page (.attrNode "p" "class" (some "a")),
    .page (.setValue "a" "broken"),
    .listen "p" "click" (.script [.page (.append "second" "p")]) false none,
    .dispatch "p" "click",
    .drop "first"]

/-- The template of the badge, the world in which it is seated, and the world after the deeds. -/
def badgeWorlds : Option (Template × World × World) := do
  let t ← (Template.compile "a0123456789abcdef" badge).toOption
  let (_, v) ← (World.fresh "a0123456789abcdef").performAll 6 [] [wideBadge (some "first")]
  let (_, w) ← (v.seat t).performAll 6 [] badgeDeeds
  return (t, v, w)

/-- The wide badge shows the same before and after the deeds. -/
theorem inert_of_reaches_badge :
    ∃ t v w, (World.fresh "a0123456789abcdef").Reaches v ∧ (v.seat t).Reaches w ∧
      Inert "a0123456789abcdef" badge t v w ∧
      ∃ reply, ∀ u ∈ [v, w], ∃ report u', u.perform 2 [] (wideBadge none) = some (report, u') ∧
        report.reply = reply := by
  have hsome : badgeWorlds.isSome = true := by decide +kernel
  obtain ⟨x, hx⟩ := Option.isSome_iff_exists.1 hsome
  simp only [badgeWorlds, Option.bind_eq_bind, Option.bind_eq_some_iff] at hx
  obtain ⟨t, ht, ⟨reports, v⟩, hv, ⟨reports', w⟩, hw, -⟩ := hx
  have hcompile : Template.compile "a0123456789abcdef" badge = .ok t := by
    cases hcase : Template.compile "a0123456789abcdef" badge with
    | error fault =>
      rw [hcase] at ht
      cases ht
    | ok u =>
      rw [hcase] at ht
      exact congrArg _ (Option.some.inj ht)
  have hbefore : (World.fresh "a0123456789abcdef").Reaches v := ⟨_, _, _, _, hv⟩
  have hafter : (v.seat t).Reaches w := ⟨_, _, _, _, hw⟩
  obtain ⟨hinert, hreply⟩ := inert_of_reaches hcompile
  obtain ⟨reply, hreply⟩ := hreply ["wide", "you"]
  refine ⟨t, v, w, hbefore, hafter, hinert v w hbefore hafter, reply, fun u hu => ?_⟩
  refine hreply u (.segments badge) 0 [] none ?_ rfl
  rcases List.mem_cons.1 hu with rfl | hu
  · exact Or.inl hbefore
  · exact Or.inr ⟨v, hbefore, List.mem_singleton.1 hu ▸ hafter⟩

end Run

end LiveMarkup
