import LiveMarkup.Proofs.Markup.RoundTrip
import LiveMarkup.Proofs.Run.Copied
import LiveMarkup.Proofs.Run.Settling

/-!
# Deferred rendering

A template is rendered with values parts of which come later, and the parts are sent in any order,
while tasks are settled now and then.  What the fragment looks like at any time depends only on what
had been sent when tasks were settled last, and when everything has come it looks like the fragment
that is rendered with the same values at once (`Run.render_confluent`).
-/

namespace LiveMarkup

open Forest

/-! ### What is needed -/

/-- What the node bound to a name brings along. -/
def World.pieces (w : World) (name : String) : List Tree :=
  match w.page.nodes.get? name with
  | some n => (w.forest.snapshot n).pieces
  | none => []

/-- A template can be rendered with the values, and the fragment named `as`: the values can be bound
at their holes, their nodes are there, have no parent and differ, and so do their channels, which
have not been used.  No task is there to be polled. -/
structure World.Prepared (w : World) (t : Template) (vs : List Staged) (as : String) : Prop where
  sound : w.forest.Sound
  takes : t.Takes w.forest vs
  node {name : String} : name ∈ Staged.namesAll vs → ∃ n, w.page.nodes.get? name = some n ∧
    n < w.forest.size ∧ ¬ (w.forest.kind n).isAttr = true ∧ w.forest.parent n = none
  names_nodup : (Staged.namesAll vs).Nodup
  names_inj {name other : String} : name ∈ Staged.namesAll vs → other ∈ Staged.namesAll vs →
    w.page.nodes.get? name = w.page.nodes.get? other → name = other
  fresh : as ∉ Staged.namesAll vs
  channel {x : String × Staged} : x ∈ Staged.partsAll vs → ∃ c,
    w.tasks.senders.get? x.1 = some c ∧ w.tasks.receivers.get? x.1 = some c ∧
      c < w.tasks.scheduler.channels.size ∧
      w.tasks.scheduler.channel c = ⟨none, false, false, none⟩
  channels_nodup : ((Staged.partsAll vs).map Prod.fst).Nodup
  channels_inj {x y : String × Staged} : x ∈ Staged.partsAll vs → y ∈ Staged.partsAll vs →
    w.tasks.senders.get? x.1 = w.tasks.senders.get? y.1 → x.1 = y.1
  polling_eq : w.tasks.scheduler.pool.polling = false
  ready_eq : w.tasks.scheduler.pool.ready = []
  incoming_eq : w.tasks.scheduler.pool.incoming = []
  queue_eq : w.signals.reactive.queue = []

/-- The numbers of named channels. -/
def World.channelOf (w : World) (name : String) : ℕ := (w.tasks.senders.get? name).getD 0

/-- What does not change after the template with the values has been rendered. -/
def World.setting (w : World) (base : String) (segments : List String) (vs : List Staged)
    (as : String) (stock : String → Stock) : Setting :=
  ⟨stock, w.channelOf, w.forest.size, as, Staged.partsAll vs, w.tasks.scheduler.errors,
    fun S => Labelled.expandAll (Staged.lookFor vs S w.pieces) (Template.cutSource base segments)⟩

namespace World.Prepared

variable {w w' : World} {t : Template} {vs : List Staged} {as : String} (h : w.Prepared t vs as)

include h

theorem unlogged : World.Prepared { w with log := [] } t vs as :=
  ⟨h.sound, h.takes, h.node, h.names_nodup, h.names_inj, h.fresh, h.channel, h.channels_nodup,
    h.channels_inj, h.polling_eq, h.ready_eq, h.incoming_eq, h.queue_eq⟩

/-- The template can be rendered with the same values at once. -/
theorem now : w.Prepared t (Staged.nowAll vs) as := by
  have hnames := Staged.namesAll_nowAll vs
  have hparts : ∀ {x : String × Staged}, x ∉ Staged.partsAll (Staged.nowAll vs) := fun hx => by
    rw [Staged.partsAll_nowAll] at hx
    cases hx
  refine ⟨h.sound, fun ns hns => ?_, fun hname => h.node (hnames ▸ hname), hnames ▸ h.names_nodup,
    fun hname hother => h.names_inj (hnames ▸ hname) (hnames ▸ hother), hnames ▸ h.fresh,
    fun hx => absurd hx hparts, ?_, fun hx => absurd hx hparts, h.polling_eq, h.ready_eq,
    h.incoming_eq, h.queue_eq⟩
  · rw [Staged.nowAll_eq_map, List.forall₂_map_right_iff]
    exact (h.takes ns hns).imp fun _ _ htake => htake.now
  · rw [Staged.partsAll_nowAll]
    exact List.nodup_nil

/-- Everything below the named nodes. -/
theorem exists_stocked : ∃ stock : String → Stock,
    Stocked w.forest stock (Staged.namesAll vs) ∧
      (∀ name ∈ Staged.namesAll vs, w.page.nodes.get? name = some (stock name).node) ∧
      (fun name => Labelled.trees (stock name).trees) = w.pieces := by
  have hone : ∀ name, ∃ S : Stock, Labelled.trees S.trees = w.pieces name ∧
      (name ∈ Staged.namesAll vs → w.page.nodes.get? name = some S.node ∧ S.LiesIn w.forest ∧
        (∀ l ∈ S.labels, w.forest.Inside S.node l) ∧ S.labels.Nodup) := fun name => by
    by_cases hname : name ∈ Staged.namesAll vs
    · obtain ⟨n, hn, hlt, ha, hp⟩ := h.node hname
      obtain ⟨S, rfl, hS, hinside, hd⟩ := h.sound.exists_stock hlt ha hp
      refine ⟨S, ?_, fun _ => ⟨hn, hS, hinside, hd⟩⟩
      rw [pieces, hn]
      exact (hS.pieces_snapshot hd).symm
    · -- Nothing is asked of other names, but that they look the same.
      obtain ⟨Ls, hLs⟩ := exists_trees_eq (w.pieces name)
      refine ⟨.fragment 0 (Labelled.mapAll (fun _ => 0) Ls), ?_, fun hin => absurd hin hname⟩
      exact (Labelled.trees_mapAll _ Ls).trans hLs
  choose stock hpieces hstock using hone
  refine ⟨stock, ⟨h.names_nodup, fun name hname => (hstock name hname).2.1,
    fun name hname => (hstock name hname).2.2.1, fun name hname => (hstock name hname).2.2.2,
    fun name hname other hother heq => h.names_inj hname hother ?_⟩,
    fun name hname => (hstock name hname).1, funext hpieces⟩
  rw [(hstock name hname).1, (hstock other hother).1, heq]

theorem channelOf_eq {x : String × Staged} (hx : x ∈ Staged.partsAll vs) :
    w.tasks.senders.get? x.1 = some (w.channelOf x.1) ∧
      w.tasks.receivers.get? x.1 = some (w.channelOf x.1) ∧
      w.channelOf x.1 < w.tasks.scheduler.channels.size ∧
      w.tasks.scheduler.channel (w.channelOf x.1) = ⟨none, false, false, none⟩ := by
  obtain ⟨c, hsender, hreceiver, hlt, hchannel⟩ := h.channel hx
  have hc : w.channelOf x.1 = c := by rw [channelOf, hsender, Option.getD_some]
  rw [hc]
  exact ⟨hsender, hreceiver, hlt, hchannel⟩

/-- The values can be built. -/
theorem provides {stock : String → Stock}
    (hstock : ∀ name ∈ Staged.namesAll vs, w.page.nodes.get? name = some (stock name).node) :
    Run.Provides (Run.nodesOf stock) w.channelOf w (Staged.namesAll vs) (Staged.heldAll vs) := by
  have hsub := Staged.sublist_filterMap_channel (Staged.pendingAll vs)
  rw [Staged.partsAll_pendingAll] at hsub
  refine ⟨fun {name} hname => hstock name hname, fun {c} hc => ?_, h.channels_nodup.sublist hsub⟩
  obtain ⟨x, hx, rfl⟩ := List.mem_map.1 (hsub.subset hc)
  exact (h.channelOf_eq hx).2.1

/-- Nothing has been sent through the channels of the values. -/
theorem posted {s : Scheduler} (hchannels : s.channels = w.tasks.scheduler.channels) :
    Posted w.channelOf (Staged.partsAll vs) [] (Staged.pendingAll vs) []
      { (w.taking (Staged.heldAll vs)).tasks with scheduler := s } := by
  have hparts := Staged.partsAll_pendingAll vs
  have hd := h.channels_nodup
  rw [← hparts] at hd
  have hspec {x : String × Staged} (hx : x ∈ Staged.partsAll (Staged.pendingAll vs)) :=
    h.channelOf_eq (hparts ▸ hx)
  have hchannel (k : ℕ) : s.channel k = w.tasks.scheduler.channel k := by
    rw [Scheduler.channel, hchannels, Scheduler.channel]
  refine ⟨hd, fun hx => hparts ▸ hx, fun hx => Or.inr (hparts.symm ▸ hx), fun hx hy heq => ?_,
    fun _ hin => absurd hin List.not_mem_nil, fun hx => ?_,
    fun _ hin => absurd hin List.not_mem_nil, fun {x} hx _ => ?_, fun {v x} hv hx => ?_,
    fun hj => absurd hj List.not_mem_nil⟩
  · refine h.channels_inj hx hy ?_
    rw [(h.channelOf_eq hx).1, (h.channelOf_eq hy).1, heq]
  · exact hchannels ▸ (hspec hx).2.2.1
  · obtain ⟨hsender, -, -, hnew⟩ := hspec hx
    have hsame := (hchannel (w.channelOf x.1)).trans hnew
    exact ⟨hsender, by rw [hsame], by rw [hsame], by rw [hsame], fun task => by simp [hsame]⟩
  · have hmem := Staged.mem_partsAll hv (Staged.mem_parts_of_mem_body hx)
    have hout := Staged.not_mem_filterMap_channel hd hv hx
    exact (Table.get?_unbindAll _ _ _ hout).trans (hspec hmem).2.1

/-- A fragment that has just been rendered rests. -/
theorem rests {base : String} {segments : List String} {stock : String → Stock} {qs : Due}
    {Ls : List (Labelled NodeId)}
    (hstock : ∀ name ∈ Staged.namesAll vs, w.page.nodes.get? name = some (stock name).node)
    (hlaid : Laid stock w.forest.size ⟨w'.forest, Ls, qs⟩)
    (hshown : ∀ S, Sheet.shown ⟨w'.forest, Ls, qs⟩ stock S =
      (w.setting base segments vs as stock).looks S)
    (hqs : qs.map Prod.snd = Staged.pendingAll vs)
    (htasks : w'.tasks = { (w.taking (Staged.heldAll vs)).tasks with
      scheduler := w.tasks.scheduler.promised w.channelOf qs })
    (hnodes : w'.page.nodes = w.page.nodes.bind as w.forest.size)
    (hsignals : w'.signals = w.signals) :
    Rests (w.setting base segments vs as stock) none [] w' := by
  have hdue : ([] ++ Late.number w.tasks.scheduler.programs.size qs ++ []).map Late.due = qs := by
    simp
  have hlater : ∀ j ∈ [] ++ Late.number w.tasks.scheduler.programs.size qs ++ [],
      j.value.IsLater := fun j hj => by
    have hmem := List.mem_map_of_mem (f := Late.value) hj
    simp only [List.nil_append, List.append_nil, Late.map_value_number, hqs] at hmem
    exact Staged.isLater_of_mem_pendingAll hmem
  refine ⟨?_, (fun _ hc => nomatch hc), [], Late.number w.tasks.scheduler.programs.size qs, [], Ls,
    ⟨?_, fun _ => ?_, fun hj => hlater _ hj, ?_, ?_, fun {name} hname => ?_, ?_, ?_, ?_⟩,
    fun j hj => ?_⟩
  · rw [htasks]
    exact (congrArg Pool.polling (Scheduler.pool_promised _ _)).trans h.polling_eq
  · rw [hdue]
    exact hlaid
  · rw [hdue]
    exact hshown _
  · have hlined : Lined w.channelOf w.tasks.scheduler [] [] [] :=
      ⟨(fun hj => nomatch hj), (fun hj => nomatch hj), List.nodup_nil, h.ready_eq, h.incoming_eq,
        (fun hj => nomatch hj)⟩
    rw [htasks]
    exact hlined.promised qs
  · rw [List.nil_append, List.append_nil, Late.map_value_number, hqs, htasks]
    exact h.posted (Scheduler.channels_promised _ _)
  · rw [hdue, Due.names, hqs] at hname
    have hin := (Staged.sublist_namesAll_pendingAll vs).subset hname
    have hne : name ≠ as := fun e => h.fresh (e ▸ hin)
    rw [hnodes, Table.get?_bind, if_neg hne]
    exact hstock name hin
  · rw [hnodes, Table.get?_bind]
    exact if_pos rfl
  · rw [htasks]
    exact Scheduler.errors_promised _ _
  · rw [hsignals]
    exact h.queue_eq
  · exact Staged.blocked_none (hlater j hj)

end World.Prepared

namespace Run

variable {base : String} {segments : List String} {t : Template} {vs : List Staged} {as : String}
  {stock : String → Stock} {channels : String → ℕ} {root : NodeId} {w w₁ w' : World}

/-! ### Binding the values for the holes -/

/-- Binding values to nodes in order shows what is there and promises the rest; where no value is
due, there is none. -/
theorem exists_applyEach (channels : String → ℕ) (target : NodeId → Bool) {xs pre : Due}
    {Ls : List (Labelled NodeId)}
    (hempty : ∀ x ∈ xs, target x.1 = false → x.2 = .empty)
    (h : Laid stock root ⟨w.forest, Ls, pre ++ xs.filter fun x => target x.1⟩) :
    ∃ g Ls' qs, Yields (fun run => applyEach run none
        (Staged.expressions (nodesOf stock) channels (xs.map Prod.snd)) (xs.map Prod.fst))
        w (.ok ()) (w.showing channels g qs) ∧
      qs.map Prod.snd = Staged.pendingAll (xs.map Prod.snd) ∧
      Laid stock root ⟨g, Ls', pre ++ qs⟩ ∧
      ∀ S, Sheet.shown ⟨g, Ls', pre ++ qs⟩ stock S =
        Sheet.shown ⟨w.forest, Ls, pre ++ xs.filter fun x => target x.1⟩ stock S := by
  induction xs generalizing w pre Ls with
  | nil => exact ⟨w.forest, Ls, [], .of_eq fun _ => rfl, rfl, h, fun _ => rfl⟩
  | cons x xs ih =>
    obtain ⟨n, u⟩ := x
    obtain ⟨hfirst, hempty⟩ := List.forall_mem_cons.1 hempty
    have hstep : ∃ g Ls' qs, (∀ (run : Runner)
        (binding : Binding → NodeId → Activity (Except RenderFault Unit)),
          applyTo run binding n (u.expression (nodesOf stock) channels) w =
            some (.ok (), w.showing channels g qs)) ∧ qs.map Prod.snd = u.pending ∧
        Laid stock root ⟨g, Ls', pre ++ qs ++ xs.filter fun x => target x.1⟩ ∧
        ∀ S, Sheet.shown ⟨g, Ls', pre ++ qs ++ xs.filter fun x => target x.1⟩ stock S =
          Sheet.shown ⟨w.forest, Ls, pre ++ ((n, u) :: xs).filter fun x => target x.1⟩ stock S := by
      rw [List.filter_cons] at h ⊢
      by_cases hn : target n = true
      · rw [if_pos hn] at h ⊢
        obtain ⟨g, Ls', qs, happly, hqs, hunfolds⟩ := exists_applyTo h
        exact ⟨g, Ls', qs, happly, hqs, hunfolds.laid, hunfolds.shown_eq⟩
      · rw [if_neg hn] at h ⊢
        obtain rfl : u = .empty := hfirst (Bool.not_eq_true _ ▸ hn)
        refine ⟨w.forest, Ls, [], fun _ _ => rfl, rfl, ?_, fun _ => ?_⟩
        · rwa [List.append_nil]
        · rw [List.append_nil]
    obtain ⟨g₁, Ls₁, qs₁, happly, hqs₁, hlaid₁, hshown₁⟩ := hstep
    obtain ⟨g₂, Ls₂, qs₂, hyields, hqs₂, hlaid₂, hshown₂⟩ :=
      ih (w := w.showing channels g₁ qs₁) hempty hlaid₁
    refine ⟨g₂, Ls₂, qs₁ ++ qs₂, ?_, ?_, ?_, fun S => ?_⟩
    · rw [← World.showing_showing (f := g₁)]
      exact (Yields.job (j := .apply _ n) (.of_eq fun run => happly run (bind run))).bind hyields
    · rw [List.map_append, hqs₁, hqs₂, List.map_cons, Staged.pendingAll]
    · rwa [← List.append_assoc]
    · rw [← List.append_assoc]
      exact (hshown₂ S).trans (hshown₁ S)

/-! ### Rendering -/

/-- Filling a copy of a template holds what it works on meanwhile. -/
theorem yields_fill {g : Forest} {es : List Expression} {ns : List NodeId}
    (hinstance : instantiate t w = some (.ok (root, ns), w.setForest g))
    (hlen : ns.length = es.length)
    (h : Yields (fun run => applyEach run none es ns)
      ((w.setForest g).holding (root :: ns ++ Expression.heldNodesAll es)) (.ok ()) w₁) :
    Yields (fun run => fill run t none es) w (.ok root) { w₁ with held := w.held } := by
  obtain ⟨enough, h⟩ := h
  refine ⟨enough, fun fuel hfuel => (fill_eq_some_iff hinstance hlen).2 ⟨.ok (), w₁, ?_, rfl, rfl⟩⟩
  exact (applyEach_eq_some_iff hlen).1 (h fuel hfuel)

/-- Rendering segments that compile fills a copy of their template. -/
theorem yields_renderSegments {es : List Expression}
    (ht : Template.compile base segments = .ok t)
    (hbase : w.templates.base = base) (hcache : TemplateCache.Reachable base w.templates.cache)
    (h : Yields (fun run => fill run t none es)
      ((withSegments w segments).fetched w.templates.cache.strings.size) (.ok root) w₁) :
    Yields (fun run => renderSegments run segments es) w (.ok root)
      (withoutStrings w₁ w.templates.cache.strings.size) := by
  have hfetch : fetch w.templates.cache.strings.size (withSegments w segments) =
      some (.ok t, (withSegments w segments).fetched w.templates.cache.strings.size) := by
    refine fetch_eq hbase (hcache.addStrings segments true) ?_
    exact (congrArg _ (segments_addStrings_self w.templates.cache segments true)).trans ht
  have hstrings : Yields (fun run => renderStrings run w.templates.cache.strings.size none es)
      (withSegments w segments) (.ok root) w₁ := h.congr fun _ => Activity.bind_of_eq_some hfetch
  have hdropped : Yields (fun run => renderStrings run w.templates.cache.strings.size none es >>=
      fun rendered => modify (withoutStrings · w.templates.cache.strings.size) >>=
        fun _ => pure rendered) (withSegments w segments) (.ok root)
          (withoutStrings w₁ w.templates.cache.strings.size) := hstrings.bind (.of_eq fun _ => rfl)
  exact hdropped.congr fun run => rfl

/-- A template is rendered, and the fragment rests. -/
theorem exists_rendered (ht : Template.compile base segments = .ok t)
    (hbase : w.templates.base = base) (hcache : TemplateCache.Reachable base w.templates.cache)
    (h : w.Prepared t vs as) :
    ∃ stock reply w', Yields (fun run => run (.command
        (.render (.segments segments) (Staged.specs vs) none (some as)))) w reply w' ∧
      Rests (w.setting base segments vs as stock) none [] w' := by
  obtain ⟨stock, hstocked, hnames, hpieces⟩ := h.exists_stocked
  obtain ⟨ns, hdescend, -⟩ := Template.exists_instance ht w.forest
  have htakes := h.takes ns hdescend
  have hlen := htakes.length_eq
  have hlaid := Template.laid_copy ht rfl hdescend h.sound hstocked htakes
  have hbuild := yields_buildAll (h.provides hnames)
  -- The copy is filled in the world in which the strings are there.
  let w₁ := w.taking (Staged.heldAll vs)
  let w₂ := (withSegments w₁ segments).fetched w₁.templates.cache.strings.size
  let g := (w.forest.plantFragment t.content).2
  have hinstance : instantiate t w₂ = some (.ok (w.forest.size, ns), w₂.setForest g) := by
    rw [instantiate_apply]
    change some (Except.map _ (g.descendAll w.forest.size t.paths), _) = _
    rw [hdescend]
    rfl
  have hempty : ∀ x ∈ ns.zip vs, (!(g.kind x.1).isElement) = false → x.2 = .empty := by
    intro x hx helement
    have htake := (List.forall₂_iff_zip.1 htakes).2 hx
    cases hk : g.kind x.1 with
    | element tag =>
      rw [hk] at htake
      exact htake
    | attr name | text | comment | fragment =>
      rw [hk] at helement
      cases helement
  let w₃ := (w₂.setForest g).holding (w.forest.size :: ns ++
    Expression.heldNodesAll (Staged.expressions (nodesOf stock) w.channelOf vs))
  have hcopy : Laid stock w.forest.size ⟨w₃.forest, Labelled.mapAll Prod.fst
      (Labelled.numberedAll (w.forest.size + 1) (Template.cutSource base segments)),
        [] ++ (ns.zip vs).filter fun x => !(g.kind x.1).isElement⟩ := hlaid
  obtain ⟨g', Ls', qs, hyields, hqs, hlaid', hshown'⟩ :=
    exists_applyEach w.channelOf (fun n => !(g.kind n).isElement) hempty hcopy
  rw [List.map_snd_zip hlen.ge, List.map_fst_zip hlen.le] at hyields
  rw [List.map_snd_zip hlen.ge] at hqs
  have hfill := yields_fill hinstance (hlen.trans (Staged.length_expressions _ _ vs).symm) hyields
  have hrender := (yields_renderSegments (w := w₁) ht hbase hcache hfill).map
    (Except.mapError Failure.render)
  let w₄ := withoutStrings { w₃.showing w.channelOf g' qs with held := w₂.held }
    w₁.templates.cache.strings.size
  let w₅ := { w₄ with page := w₄.page.bindTo (some as) w.forest.size }
  refine ⟨stock, .text (w₅.page.inner w.forest.size), w₅, .job (j := .command
    (.render (.segments segments) (Staged.specs vs) none (some as)))
      ((hbuild.bind (hrender.bind (.of_eq fun _ => rfl))).congr fun _ => rfl),
    h.rests hnames hlaid' (fun S => (hshown' S).trans ?_) hqs rfl rfl rfl⟩
  refine (Template.shown_copy ht rfl hdescend hlen S).trans ?_
  rw [hpieces]
  rfl

/-! ### Confluence -/

section Confluence

variable (ht : Template.compile base segments = .ok t) (hbase : w.templates.base = base)
  (hcache : TemplateCache.Reachable base w.templates.cache)

include ht hbase hcache

/-- Rendering, and whatever happens afterwards, ends in a world in which the fragment shows what has
been seen. -/
theorem exists_shown (h : w.Prepared t vs as) {happenings : List Happening}
    (hamong : ∀ x ∈ happenings, x.Among (Staged.partsAll vs)) (watch : List String) :
    ∃ w', w.Performs watch (.render (.segments segments) (Staged.specs vs) none (some as) ::
        happenings.map Happening.command) w' ∧
      w'.page.nodes.get? as = some w.forest.size ∧
      w'.tasks.scheduler.errors = w.tasks.scheduler.errors ∧
      w'.forest.snapshot w.forest.size = .fragment (Labelled.expandAll
        (Staged.lookFor vs (seenAfter happenings) w.pieces)
        (Template.cutSource base segments)) := by
  obtain ⟨stock, reply, w₁, hyields, hrests⟩ :=
    exists_rendered (w := { w with log := [] }) ht hbase hcache h.unlogged
  obtain ⟨w', hperforms, hrests'⟩ := hrests.release.exists_performs watch hamong
  exact ⟨w', .cons hyields hperforms, hrests'.named, hrests'.errors_eq, hrests'.snapshot⟩

/-- Deferred rendering is confluent.  Let a template be rendered with values that can be bound at
its holes, and let parts of the values be sent through their channels in any order and any number of
them, while tasks are settled now and then.  Nothing fails, no error is recorded, and the fragment
shows the values as far as they had been sent when tasks were settled last, with an empty comment or
an empty value for each part that had not.  When everything has come the fragment looks like the one
that is rendered with the same values at once. -/
theorem render_confluent (h : w.Prepared t vs as) (happenings : List Happening)
    (hamong : ∀ x ∈ happenings, x.Among (Staged.partsAll vs)) (watch : List String) :
    ∃ w' root, w.Performs watch (.render (.segments segments) (Staged.specs vs) none (some as) ::
        happenings.map Happening.command) w' ∧
      w'.page.nodes.get? as = some root ∧
      w'.tasks.scheduler.errors = w.tasks.scheduler.errors ∧
      w'.forest.snapshot root = .fragment (Labelled.expandAll
        (Staged.lookFor vs (seenAfter happenings) w.pieces) (Template.cutSource base segments)) ∧
      (Staged.HaveCome (seenAfter happenings) vs → ∃ v' root', w.Performs watch
          [.render (.segments segments) (Staged.specs (Staged.nowAll vs)) none (some as)] v' ∧
        v'.page.nodes.get? as = some root' ∧
        w'.forest.snapshot root = v'.forest.snapshot root') := by
  obtain ⟨w', hperforms, hnamed, herrors, hsnapshot⟩ := exists_shown ht hbase hcache h hamong watch
  refine ⟨w', w.forest.size, hperforms, hnamed, herrors, hsnapshot, fun hcome => ?_⟩
  have hnone : ∀ x ∈ ([] : List Happening), x.Among (Staged.partsAll (Staged.nowAll vs)) :=
    fun _ hx => nomatch hx
  obtain ⟨v', hperforms', hnamed', -, hsnapshot'⟩ := exists_shown ht hbase hcache h.now hnone watch
  refine ⟨v', w.forest.size, hperforms', hnamed', ?_⟩
  rw [hsnapshot, hsnapshot', Staged.lookFor_nowAll hcome]

end Confluence

/-- A page with a guest that stands nowhere yet. -/
def guestForest : Forest := ((World.fresh "a0123456789abcdef").forest.create (.element "b") "").2

theorem sound_guestForest : guestForest.Sound := by
  have hbody : (Page.bodyTree Page.shellMarkup).Named :=
    ⟨(fun _ ha => nomatch ha), List.nodup_nil, Tree.namedAll_ofMarkup _⟩
  exact (Sound.empty.plant _ hbody).create (.element "b") "" isSmall_empty

/-- A fresh world with the guest and two channels. -/
def guestWorld : World :=
  { World.fresh "a0123456789abcdef" with
    page := { Page.fresh with forest := guestForest, nodes := [("guest", 2)] }
    tasks := (Tasks.empty.addChannel "tone").addChannel "name" }

/-- A tone that comes later and then still later, and a guest with a name that comes later. -/
def guestValues : List Staged :=
  [.sent "tone" (.soon (.text "warm")), .list [.node "guest", .sent "name" (.text "Ada")]]

theorem prepared_guestWorld {t : Template}
    (ht : Template.compile "a0123456789abcdef" greeting = .ok t) :
    guestWorld.Prepared t guestValues "card" := by
  have hkinds : ((Template.compile "a0123456789abcdef" greeting).toOption.bind fun t =>
      let g := (guestWorld.forest.plantFragment t.content).2
      (g.descendAll guestWorld.forest.size t.paths).toOption.map fun ns => ns.map g.kind) =
      some [.attr "class", .comment] := by decide +kernel
  rw [ht, Except.toOption, Option.bind_some] at hkinds
  refine ⟨sound_guestForest, fun ns hns => ?_, fun {name} hname => ?_, by decide, ?_, by decide,
    fun {x} hx => ?_, by decide, ?_, rfl, rfl, rfl, rfl⟩
  · simp only [hns] at hkinds
    have hmap : ns.map (guestWorld.forest.plantFragment t.content).2.kind =
        [.attr "class", .comment] := Option.some.inj hkinds
    have htakes : List.Forall₂ (fun (k : Kind) v => k.Takes v) [.attr "class", .comment]
        guestValues :=
      .cons trivial (.cons trivial .nil)
    rwa [← hmap, List.forall₂_map_left_iff] at htakes
  · obtain rfl := List.mem_singleton.1 hname
    exact ⟨2, by decide +kernel, by decide +kernel, by decide +kernel, by decide +kernel⟩
  · intro name other hname hother _
    exact (List.mem_singleton.1 hname).trans (List.mem_singleton.1 hother).symm
  · rcases List.mem_pair.1 hx with rfl | rfl
    · exact ⟨0, by decide +kernel, by decide +kernel, by decide +kernel, rfl⟩
    · exact ⟨1, by decide +kernel, by decide +kernel, by decide +kernel, rfl⟩
  · intro x y hx hy heq
    rcases List.mem_pair.1 hx with rfl | rfl <;> rcases List.mem_pair.1 hy with rfl | rfl
    · rfl
    · exact absurd heq (by decide +kernel)
    · exact absurd heq (by decide +kernel)
    · rfl

/-- The name is sent before the tone, and the fragment looks as if both had been there at once. -/
theorem render_confluent_guest :
    ∃ w' root, guestWorld.Performs [] [.render (.segments greeting) (Staged.specs guestValues) none
        (some "card"), .send "name" "" (.text "Ada"), .runUntilStalled,
        .send "tone" "" (.deferred (.text "warm")), .runUntilStalled] w' ∧
      w'.page.nodes.get? "card" = some root ∧ w'.tasks.scheduler.errors = [] ∧
      (w'.forest.snapshot root).rows = [.fragment 0, .element 1 "p" [⟨"class", "warm"⟩],
        .text 2 "Hi ", .element 2 "b" [], .text 2 "Ada", .text 2 ", you"] := by
  have hok : (Template.compile "a0123456789abcdef" greeting).isOk = true := by decide +kernel
  obtain ⟨t, ht⟩ := exists_of_isOk hok
  have hamong : ∀ x ∈ [.sent ("name", .text "Ada") "", .settled,
      .sent ("tone", .soon (.text "warm")) "", .settled],
        Happening.Among (Staged.partsAll guestValues) x := by
    intro x hx
    simp only [List.mem_cons, List.not_mem_nil, or_false] at hx
    rcases hx with rfl | rfl | rfl | rfl
    · exact List.mem_cons_of_mem _ List.mem_cons_self
    · trivial
    · exact List.mem_cons_self
    · trivial
  obtain ⟨w', root, hperforms, hnamed, herrors, hsnapshot, -⟩ := render_confluent ht rfl .empty
    (prepared_guestWorld ht) _ hamong []
  refine ⟨w', root, hperforms, hnamed, herrors, ?_⟩
  rw [hsnapshot]
  decide +kernel

end Run

end LiveMarkup
