import LiveMarkup.Proofs.Run.Activities
import LiveMarkup.Proofs.Template.Cached
import LiveMarkup.Proofs.Template.Instance
import LiveMarkup.Run.Screens

/-!
# Rendering

A template that compiles can be instantiated in every world, and rendering applies the expressions
to the nodes at the holes in order, up to the first fault, provided that there is one expression for
each hole (`Run.Applies`); otherwise it applies none.  `compile_sound` gathers what a compiled
template guarantees.
-/

namespace LiveMarkup

/-- The world after expressions have been dropped. -/
def World.dropped (w : World) (es : List Expression) : World :=
  w.setScheduler ((Expression.channelsAll es).foldl Scheduler.dropReceiver w.tasks.scheduler)

/-- The world in which nodes are held. -/
def World.holding (w : World) (nodes : List NodeId) : World := { w with held := nodes ++ w.held }

/-- The world after the template of strings has been fetched. -/
def World.fetched (w : World) (s : ℕ) : World := { w with templates := (w.templates.fetch s).2 }

namespace Run

variable {run : Runner} {e : Expression} {es : List Expression} {n root : NodeId} {ns : List NodeId}
  {trail : ℕ → World} {k : ℕ} {w w' : World} {outcome : Except RenderFault Unit} {t : Template}

/-! ### Applying expressions in order -/

/-- For every `i < k`, expression `i` is applied to node `i` in the world `trail i`, with success,
and leads to the world `trail (i + 1)`. -/
def AppliesFirst (run : Runner) (es : List Expression) (ns : List NodeId) (trail : ℕ → World)
    (k : ℕ) : Prop :=
  ∀ i < k, ∃ e n, es[i]? = some e ∧ ns[i]? = some n ∧
    run (.apply e n) (trail i) = some (.ok (), trail (i + 1))

/-- Expressions are applied to nodes one to one in order: all of them with success, or up to the
first fault, and the expressions after it are dropped. -/
def Applies (run : Runner) (es : List Expression) (ns : List NodeId) (w : World) :
    Except RenderFault Unit → World → Prop
  | .ok (), w' => ∃ trail, trail 0 = w ∧ AppliesFirst run es ns trail es.length ∧
      trail es.length = w'
  | .error fault, w' => ∃ trail k e n w₁, trail 0 = w ∧ AppliesFirst run es ns trail k ∧
      es[k]? = some e ∧ ns[k]? = some n ∧
      run (.apply e n) (trail k) = some (.error fault, w₁) ∧ w' = w₁.dropped (es.drop (k + 1))

theorem appliesFirst_zero : AppliesFirst run es ns trail 0 := fun i hi => absurd hi i.not_lt_zero

theorem appliesFirst_succ :
    AppliesFirst run (e :: es) (n :: ns) trail (k + 1) ↔
      run (.apply e n) (trail 0) = some (.ok (), trail 1) ∧
        AppliesFirst run es ns (fun i => trail (i + 1)) k := by
  constructor
  · intro h
    refine ⟨?_, fun i hi => h (i + 1) (Nat.succ_lt_succ hi)⟩
    obtain ⟨e', n', he, hn, hrun⟩ := h 0 k.succ_pos
    obtain rfl := Option.some.inj he
    obtain rfl := Option.some.inj hn
    exact hrun
  · rintro ⟨hfirst, hrest⟩ i hi
    cases i with
    | zero => exact ⟨e, n, rfl, rfl, hfirst⟩
    | succ i => exact hrest i (Nat.lt_of_succ_lt_succ hi)

theorem applies_nil : Applies run [] [] w outcome w' ↔ outcome = .ok () ∧ w' = w := by
  cases outcome with
  | ok u =>
    constructor
    · rintro ⟨trail, rfl, -, rfl⟩
      exact ⟨rfl, rfl⟩
    · rintro ⟨-, rfl⟩
      exact ⟨fun _ => w', rfl, appliesFirst_zero, rfl⟩
  | error fault =>
    constructor
    · rintro ⟨trail, k, e, n, w₁, -, -, he, -⟩
      cases he
    · rintro ⟨h, -⟩
      cases h

theorem applies_cons :
    Applies run (e :: es) (n :: ns) w outcome w' ↔
      (∃ w₁, run (.apply e n) w = some (.ok (), w₁) ∧ Applies run es ns w₁ outcome w') ∨
        ∃ fault w₁, run (.apply e n) w = some (.error fault, w₁) ∧ outcome = .error fault ∧
          w' = w₁.dropped es := by
  cases outcome with
  | ok u =>
    constructor
    · rintro ⟨trail, rfl, hfirst, rfl⟩
      obtain ⟨hrun, hrest⟩ := appliesFirst_succ.1 hfirst
      exact Or.inl ⟨trail 1, hrun, fun i => trail (i + 1), rfl, hrest, rfl⟩
    · rintro (⟨w₁, hrun, trail, rfl, hrest, rfl⟩ | ⟨fault, w₁, -, heq, -⟩)
      · exact ⟨fun i => Nat.casesOn i w trail, rfl, appliesFirst_succ.2 ⟨hrun, hrest⟩, rfl⟩
      · cases heq
  | error fault =>
    constructor
    · rintro ⟨trail, k, e', n', w₁, rfl, hfirst, he, hn, hfail, rfl⟩
      cases k with
      | zero =>
        obtain rfl := Option.some.inj he
        obtain rfl := Option.some.inj hn
        exact Or.inr ⟨fault, w₁, hfail, rfl, rfl⟩
      | succ k =>
        obtain ⟨hrun, hrest⟩ := appliesFirst_succ.1 hfirst
        exact Or.inl ⟨trail 1, hrun, fun i => trail (i + 1), k, e', n', w₁, rfl, hrest, he, hn,
          hfail, rfl⟩
    · rintro (⟨w₁, hrun, trail, k, e', n', w₂, rfl, hrest, he, hn, hfail, rfl⟩ |
        ⟨fault', w₁, hfail, heq, rfl⟩)
      · exact ⟨fun i => Nat.casesOn i w trail, k + 1, e', n', w₂, rfl,
          appliesFirst_succ.2 ⟨hrun, hrest⟩, he, hn, hfail, rfl⟩
      · obtain rfl := Except.error.inj heq
        exact ⟨fun _ => w, 0, e, n, w₁, rfl, appliesFirst_zero, rfl, rfl, hfail, rfl⟩

theorem applyEach_eq_some_iff (hlen : ns.length = es.length) :
    applyEach run none es ns w = some (outcome, w') ↔ Applies run es ns w outcome w' := by
  induction es generalizing ns w with
  | nil =>
    obtain rfl := List.eq_nil_of_length_eq_zero hlen
    rw [applies_nil, applyEach]
    · simp [eq_comm]
    · simp
  | cons e es ih =>
    cases ns with
    | nil => cases hlen
    | cons n ns =>
      rw [applies_cons, applyEach, Activity.bind_eq_some_iff]
      constructor
      · rintro ⟨first, w₁, hrun, hrest⟩
        cases first with
        | ok u => exact Or.inl ⟨w₁, hrun, (ih (Nat.succ.inj hlen)).1 hrest⟩
        | error fault =>
          obtain ⟨rfl, rfl⟩ := Prod.mk.inj (Option.some.inj hrest)
          exact Or.inr ⟨fault, w₁, hrun, rfl, rfl⟩
      · rintro (⟨w₁, hrun, hrest⟩ | ⟨fault, w₁, hfail, rfl, rfl⟩)
        · exact ⟨.ok (), w₁, hrun, (ih (Nat.succ.inj hlen)).2 hrest⟩
        · exact ⟨.error fault, w₁, hfail, rfl⟩

/-! ### Filling a copy -/

theorem instantiate_apply (t : Template) (w : World) :
    instantiate t w = some (((w.forest.plantFragment t.content).2.descendAll w.forest.size
      t.paths).map ((w.forest.size, ·)), w.setForest (w.forest.plantFragment t.content).2) := rfl

/-- An instance depends on the forest only. -/
theorem instantiate_congr {v : World} (hv : v.forest = w.forest) {g : Forest}
    (h : instantiate t w = some (.ok (root, ns), w.setForest g)) :
    instantiate t v = some (.ok (root, ns), v.setForest g) := by
  rw [instantiate_apply] at h ⊢
  obtain ⟨hresult, hworld⟩ := Prod.mk.inj (Option.some.inj h)
  have hforest : (w.forest.plantFragment t.content).2 = g := congrArg World.forest hworld
  rw [hv, hresult, hforest]

theorem instantiate_eq {base : String} {segments : List String}
    (ht : Template.compile base segments = .ok t) (w : World) :
    ∃ root ns g, instantiate t w = some (.ok (root, ns), w.setForest g) ∧
      ns.length = holeCount segments ∧ w.forest.Instance g t.content root ns := by
  obtain ⟨ns, hdescend, hlength, hinstance, -⟩ := Template.exists_instance ht w.forest
  refine ⟨w.forest.size, ns, (w.forest.plantFragment t.content).2, ?_, hlength, hinstance⟩
  rw [instantiate_apply, hdescend]
  rfl

theorem fill_of_length_ne {g : Forest}
    (hinstance : instantiate t w = some (.ok (root, ns), w.setForest g))
    (hlen : ns.length ≠ es.length) :
    fill run t none es w =
      some (.error (.arityMismatch ns.length es.length), (w.setForest g).dropped es) := by
  rw [fill, Activity.bind_of_eq_some hinstance]
  simp only [if_neg hlen]
  rfl

theorem fill_eq_some_iff {g : Forest} {rendered : Except RenderFault NodeId}
    (hinstance : instantiate t w = some (.ok (root, ns), w.setForest g))
    (hlen : ns.length = es.length) :
    fill run t none es w = some (rendered, w') ↔
      ∃ outcome w₁, Applies run es ns
          ((w.setForest g).holding (root :: ns ++ Expression.heldNodesAll es)) outcome w₁ ∧
        rendered = outcome.map (fun _ => root) ∧ w' = { w₁ with held := w.held } := by
  rw [fill, Activity.bind_of_eq_some hinstance]
  simp only [if_pos hlen, Activity.holding, bind_assoc, Activity.get_bind, Activity.modify_bind,
    pure_bind]
  rw [Activity.bind_eq_some_iff]
  simp only [applyEach_eq_some_iff hlen]
  constructor
  · rintro ⟨outcome, w₁, happlies, hrest⟩
    refine ⟨outcome, w₁, happlies, ?_⟩
    cases outcome with
    | ok u =>
      obtain ⟨rfl, rfl⟩ := Prod.mk.inj (Option.some.inj hrest)
      exact ⟨rfl, rfl⟩
    | error fault =>
      obtain ⟨rfl, rfl⟩ := Prod.mk.inj (Option.some.inj hrest)
      exact ⟨rfl, rfl⟩
  · rintro ⟨outcome, w₁, happlies, rfl, rfl⟩
    refine ⟨outcome, w₁, happlies, ?_⟩
    cases outcome <;> rfl

/-! ### Rendering strings -/

theorem fetch_eq {base : String} {s : ℕ} (hbase : w.templates.base = base)
    (hcache : TemplateCache.Reachable base w.templates.cache)
    (ht : Template.compile base (w.templates.cache.stringsAt s).segments = .ok t) :
    fetch s w = some (.ok t, w.fetched s) := by
  subst hbase
  obtain ⟨n, c, hfetch, rfl⟩ := TemplateCache.fetch_eq_ok hcache.faithful ht
  have happly : w.templates.fetch s = (.ok n, { w.templates with cache := c }) := by
    rw [Templates.fetch, hfetch]
  simp only [fetch, World.fetched, happly]
  rfl

/-- The world with the segments of a template among its strings. -/
def withSegments (w : World) (segments : List String) : World :=
  { w with templates := (w.templates.addStrings segments true).2 }

/-- The world in which strings have been dropped. -/
def withoutStrings (w : World) (s : ℕ) : World :=
  { w with templates := { w.templates with cache := w.templates.cache.dropStrings s } }

theorem segments_addStrings_self (c : TemplateCache) (segments : List String) (owned : Bool) :
    ((c.addStrings segments owned).2.stringsAt (c.addStrings segments owned).1).segments =
      segments := by
  simp [TemplateCache.addStrings, TemplateCache.stringsAt]

/-- What a template that compiles guarantees.  It has a path for each hole and no marker is left in
its content.  It can be instantiated in every world, which gives a copy of the content with a node
for each hole.  Rendering refuses a wrong number of expressions before it applies any of them, and
otherwise applies them one to one to these nodes, in order and up to the first fault. -/
theorem compile_sound {base : String} {segments : List String}
    (ht : Template.compile base segments = .ok t) :
    t.paths.length = holeCount segments ∧ Tree.UnmarkedAll base t.content ∧
      ∀ w : World, ∃ root ns g,
        instantiate t w = some (.ok (root, ns), w.setForest g) ∧
          ns.length = holeCount segments ∧ w.forest.Instance g t.content root ns ∧
          ∀ s : ℕ, w.templates.base = base → TemplateCache.Reachable base w.templates.cache →
            (w.templates.cache.stringsAt s).segments = segments →
            ∀ (run : Runner) (es : List Expression),
              (es.length ≠ holeCount segments →
                renderStrings run s none es w =
                  some (.error (.arityMismatch (holeCount segments) es.length),
                    ((w.fetched s).setForest g).dropped es)) ∧
              (es.length = holeCount segments → ∀ rendered w',
                renderStrings run s none es w = some (rendered, w') ↔
                  ∃ outcome w₁, Applies run es ns (((w.fetched s).setForest g).holding
                      (root :: ns ++ Expression.heldNodesAll es)) outcome w₁ ∧
                    rendered = outcome.map (fun _ => root) ∧ w' = { w₁ with held := w.held }) := by
  obtain ⟨hcontent, hpaths, -, -⟩ := Template.compile_eq_ok ht
  refine ⟨hpaths, hcontent ▸ Template.unmarkedAll_cutSource base segments, fun w => ?_⟩
  obtain ⟨root, ns, g, hinstance, hns, hcopy⟩ := instantiate_eq ht w
  refine ⟨root, ns, g, hinstance, hns, hcopy, ?_⟩
  rintro s hbase hcache rfl run es
  have hfetched := instantiate_congr (v := w.fetched s) (w := w) rfl hinstance
  rw [renderStrings, Activity.bind_of_eq_some (fetch_eq hbase hcache ht)]
  rw [← hns]
  exact ⟨fun hlen => fill_of_length_ne hfetched (Ne.symm hlen),
    fun hlen rendered w' => fill_eq_some_iff hfetched hlen.symm⟩

theorem exists_of_isOk {base : String} {segments : List String}
    (h : (Template.compile base segments).isOk = true) :
    ∃ t, Template.compile base segments = .ok t := by
  cases ht : Template.compile base segments with
  | ok t => exact ⟨t, rfl⟩
  | error fault =>
    rw [ht] at h
    cases h

/-- A template with a hole for the value of an attribute and a hole in a text. -/
def greeting : List String := ["<p class=", ">Hi ", ", you</p>"]

/-- A fresh world with the strings of the greeting. -/
def greetingWorld : World :=
  { World.fresh "a0123456789abcdef" with
    templates := ((Templates.empty "a0123456789abcdef").addStrings greeting true).2 }

/-- The greeting compiles to two paths, and rendering it with one expression applies nothing. -/
theorem compile_sound_greeting :
    ∃ t, Template.compile "a0123456789abcdef" greeting = .ok t ∧ t.paths.length = 2 ∧
      ∃ w', ∀ run, renderStrings run 0 none [.text "you"] greetingWorld =
        some (.error (.arityMismatch 2 1), w') := by
  have hok : (Template.compile "a0123456789abcdef" greeting).isOk = true := by decide +kernel
  obtain ⟨t, ht⟩ := exists_of_isOk hok
  obtain ⟨hpaths, -, hworlds⟩ := compile_sound ht
  obtain ⟨root, ns, g, -, -, -, hrender⟩ := hworlds greetingWorld
  have hcache : TemplateCache.Reachable "a0123456789abcdef" greetingWorld.templates.cache :=
    .addStrings .empty greeting true
  exact ⟨t, ht, hpaths, ((greetingWorld.fetched 0).setForest g).dropped [.text "you"], fun run =>
    (hrender 0 rfl hcache rfl run [.text "you"]).1 (by decide)⟩

end Run

end LiveMarkup
