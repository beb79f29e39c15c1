import Mathlib.Data.Nat.Find
import LiveMarkup.Proofs.Run.Substituted
import LiveMarkup.Proofs.Template.Lasting
import LiveMarkup.Proofs.Template.Transparency

/-!
# Rendering the same texts again

What rendering texts shows depends on nothing but the segments of the template and the texts: there
is one outcome for all worlds, whatever has happened in them before (`Run.exists_outcome`), and one
reply to the command that renders (`Run.exists_reply`).  The texts before the first hole at an
element fill their holes, and the text for that hole is refused, because no text can stand for an
element.
-/

namespace LiveMarkup

/-! ### The elements of a labelled tree -/

namespace Labelled

variable {α β : Type} {φ : α → List ℕ} {σ : ℕ → Option String}

mutual

/-- The labels of the elements of a tree, each with its tag. -/
def elements : Labelled α → List (α × String)
  | element l tag _ cs => (l, tag) :: elementsAll cs
  | text _ _ => []
  | comment _ _ => []

/-- The labels of the elements of several trees. -/
def elementsAll : List (Labelled α) → List (α × String)
  | [] => []
  | L :: Ls => L.elements ++ elementsAll Ls

end

mutual

theorem elements_map (ψ : α → β) (L : Labelled α) :
    (L.map ψ).elements = L.elements.map fun x => (ψ x.1, x.2) := by
  cases L with
  | text l s | comment l s => rfl
  | element l tag as cs => rw [map, elements, elements, elementsAll_mapAll, List.map_cons]

theorem elementsAll_mapAll (ψ : α → β) (Ls : List (Labelled α)) :
    elementsAll (mapAll ψ Ls) = (elementsAll Ls).map fun x => (ψ x.1, x.2) := by
  cases Ls with
  | nil => rfl
  | cons L Ls => rw [mapAll, elementsAll, elementsAll, elements_map, elementsAll_mapAll,
      List.map_append]

end

mutual

/-- Filling holes changes no element. -/
theorem elements_fill (L : Labelled α) : (L.fill φ σ).elements = L.elements := by
  cases L with
  | text l s => rfl
  | comment l s =>
    rw [fill]
    split <;> rfl
  | element l tag as cs => rw [fill, elements, elements, elementsAll_fillAll]

theorem elementsAll_fillAll (Ls : List (Labelled α)) :
    elementsAll (fillAll φ σ Ls) = elementsAll Ls := by
  cases Ls with
  | nil => rfl
  | cons L Ls => rw [fillAll, elementsAll, elementsAll, elements_fill, elementsAll_fillAll]

end

mutual

theorem mem_labels_of_mem_elements {L : Labelled α} {x : α × String} (hx : x ∈ L.elements) :
    x.1 ∈ L.labels := by
  cases L with
  | text l s | comment l s => cases hx
  | element l tag as cs =>
    rcases List.mem_cons.1 hx with rfl | hx
    · exact List.mem_append_left _ List.mem_cons_self
    · exact List.mem_append_right _ (mem_labelsAll_of_mem_elementsAll hx)

theorem mem_labelsAll_of_mem_elementsAll {Ls : List (Labelled α)} {x : α × String}
    (hx : x ∈ elementsAll Ls) : x.1 ∈ labelsAll Ls := by
  cases Ls with
  | nil => cases hx
  | cons L Ls =>
    rcases List.mem_append.1 hx with hx | hx
    · exact List.mem_append_left _ (mem_labels_of_mem_elements hx)
    · exact List.mem_append_right _ (mem_labelsAll_of_mem_elementsAll hx)

end

mutual

theorem elementHoles_eq_flatMap (L : Labelled (List ℕ)) :
    L.elementHoles = L.elements.flatMap Prod.fst := by
  cases L with
  | text l s | comment l s => rfl
  | element l tag as cs =>
    rw [elementHoles, elements, List.flatMap_cons, elementHolesAll_eq_flatMap]

/-- The holes at elements are those in the labels of elements. -/
theorem elementHolesAll_eq_flatMap (Ls : List (Labelled (List ℕ))) :
    elementHolesAll Ls = (elementsAll Ls).flatMap Prod.fst := by
  cases Ls with
  | nil => rfl
  | cons L Ls =>
    rw [elementHolesAll, elementsAll, List.flatMap_append, elementHoles_eq_flatMap,
      elementHolesAll_eq_flatMap]

end

theorem exists_of_mem_elementHolesAll {Ls : List (Labelled (List ℕ))} {i : ℕ}
    (hi : i ∈ elementHolesAll Ls) : ∃ x ∈ elementsAll Ls, i ∈ x.1 := by
  rwa [elementHolesAll_eq_flatMap, List.mem_flatMap] at hi

end Labelled

namespace Forest

variable {α : Type} {f : Forest} {ι : α → NodeId} {q : Option NodeId}

mutual

theorem Holds.kind_of_mem_elements {q : Option NodeId} {L : Labelled α} (h : Holds f ι q L)
    {x : α × String} (hx : x ∈ L.elements) : f.kind (ι x.1) = .element x.2 := by
  cases L with
  | text l s | comment l s => cases hx
  | element l tag as cs =>
    rcases List.mem_cons.1 hx with rfl | hx
    · exact h.1.kind_eq
    · exact h.2.2.kind_of_mem_elementsAll hx

/-- An element of a layout is an element with its tag. -/
theorem HoldsAll.kind_of_mem_elementsAll {q : Option NodeId} {Ls : List (Labelled α)}
    (h : HoldsAll f ι q Ls) {x : α × String} (hx : x ∈ Labelled.elementsAll Ls) :
    f.kind (ι x.1) = .element x.2 := by
  cases Ls with
  | nil => cases hx
  | cons L Ls =>
    rcases List.mem_append.1 hx with hx | hx
    · exact h.1.kind_of_mem_elements hx
    · exact h.2.kind_of_mem_elementsAll hx

end

end Forest

namespace Run

open Forest

/-! ### Applying texts -/

section Applying

variable {Ms : List (Labelled (ℕ × List ℕ))} {ns : List NodeId} {texts : List String}
  {root n : NodeId} {k : ℕ} {w : World}

/-- No hole is an element: the texts are for all holes that come before the first of those. -/
abbrev Nowhere : ℕ → Prop := fun _ => False

/-- The texts before the first hole at an element fill their holes. -/
theorem exists_applies_before (fuel : ℕ)
    (hMs : Template.TidyAll (Labelled.mapAll Prod.snd Ms))
    (hd : (Labelled.labelsAll (Labelled.mapAll Prod.snd Ms)).flatten.Nodup)
    (hbefore : ∀ i < k, i ∉ Labelled.elementHolesAll (Labelled.mapAll Prod.snd Ms))
    (hk : k ≤ texts.length) (hlen : ns.length = texts.length)
    (hstands : ∀ i n, ns[i]? = some n → Template.StandsFor Ms i n)
    (h : Filled w.forest Prod.fst root Prod.snd (fun _ => none) Ms) :
    ∃ trail, trail 0 = w ∧ AppliesFirst (run (fuel + 1)) (texts.map .text) ns trail k ∧
      FilledBefore Ms Nowhere (texts.getD · "") root k (trail k) := by
  have hnone : textsBefore Nowhere (texts.getD · "") 0 = fun _ => none :=
    funext fun i => if_neg fun h => i.not_lt_zero h.1
  refine exists_trail ⟨Prod.fst, hnone ▸ h, fun _ _ _ _ _ => rfl⟩ fun i hi v hv => ?_
  have hin : i < texts.length := hi.trans_le hk
  have hn : ns[i]? = some ns[i] := List.getElem?_eq_getElem (hlen ▸ hin)
  obtain ⟨v', hrun, hnext⟩ := hv.apply fuel hMs hd (iff_false_intro (hbefore i hi))
    (hstands i _ hn)
  rw [if_neg id] at hrun
  refine ⟨_, _, v', ?_, hn, hrun, hnext⟩
  rw [List.getElem?_map, List.getD_eq_getElem?_getD, List.getElem?_eq_getElem hin]
  rfl

/-- A text cannot be applied at an element. -/
theorem FilledBefore.apply_element (fuel : ℕ)
    (hd : (Labelled.labelsAll (Labelled.mapAll Prod.snd Ms)).flatten.Nodup)
    {m : ℕ × List ℕ} {tag : String} (hm : (m, tag) ∈ Labelled.elementsAll Ms) (hk : k ∈ m.2)
    (hn : Template.StandsFor Ms k n)
    (h : FilledBefore Ms Nowhere (texts.getD · "") root k w) (s : String) :
    run (fuel + 1) (.apply (.text s) n) w =
      some (.error (.unsupported "text" (Kind.element tag).nodeName), w.setForest w.forest) := by
  obtain ⟨ι, hfilled, hstays⟩ := h
  obtain ⟨l, hl, hkl⟩ := hn
  obtain rfl : (n, l) = m :=
    eq_of_mem_holes hd hl (Labelled.mem_labelsAll_of_mem_elementsAll hm) hkl hk
  have hkind : w.forest.kind n = .element tag := by
    have hsame := hfilled.layout.holds.kind_of_mem_elementsAll (x := ((n, l), tag))
      (by rwa [Labelled.elementsAll_fillAll])
    rwa [hstays (n, l) hl k hkl le_rfl] at hsame
  rw [run, job, Run.apply, applyTo]
  simp only [Activity.place, Forest.placeText, Forest.unsupported, hkind]

/-- A fragment in which holes of a template have been filled. -/
theorem FilledBefore.snapshot {Ls : List (Labelled (List ℕ))} {m : ℕ}
    (h : FilledBefore (Labelled.numberedAll m Ls) Nowhere (texts.getD · "") root k w) :
    w.forest.snapshot root = .fragment (Labelled.trees (Labelled.fillAll id
      (textsBefore Nowhere (texts.getD · "") k) Ls)) := by
  obtain ⟨ι, ⟨hkind, -, hlayout, hnodup⟩, -⟩ := h
  have hlabels := Labelled.fillAll_mapAll (σ := textsBefore Nowhere (texts.getD · "") k) Prod.snd id
    (Labelled.numberedAll m Ls)
  rw [Labelled.mapAll_snd_numbered] at hlabels
  rw [hlayout.snapshot hkind (by rw [Labelled.labelsAll_fillAll]; exact hnodup.of_cons), hlabels,
    Labelled.trees_mapAll]
  rfl

end Applying

/-! ### One outcome for all worlds -/

section Outcome

variable {base : String} {segments texts : List String} {t : Template} {run : Runner}
  {es : List Expression} {ns : List NodeId} {root : NodeId} {s : ℕ} {w w' : World} {g : Forest}

/-- The first expressions are applied with success, and the next one is refused. -/
theorem applies_of_refused {trail : ℕ → World} {k : ℕ} {e : Expression} {n : NodeId}
    {fault : RenderFault} (hfirst : AppliesFirst run es ns trail k) (he : es[k]? = some e)
    (hn : ns[k]? = some n) (hrun : run (.apply e n) (trail k) = some (.error fault, w')) :
    Applies run es ns (trail 0) (.error fault) (w'.dropped (es.drop (k + 1))) :=
  ⟨trail, k, e, n, w', rfl, hfirst, he, hn, hrun, rfl⟩

theorem renderStrings_of_compile_eq_error {fault : RenderFault}
    (hbase : w.templates.base = base) (hcache : TemplateCache.Reachable base w.templates.cache)
    (hfault : Template.compile base (w.templates.cache.stringsAt s).segments = .error fault) :
    renderStrings run s none es w = some (.error fault, (w.fetched s).dropped es) := by
  subst hbase
  have hfetched : (w.templates.fetch s).1 = .error fault :=
    TemplateCache.fetch_eq_error hcache.faithful hfault
  have hfetch : fetch s w = some (.error fault, w.fetched s) := by
    rw [fetch, World.fetched]
    generalize w.templates.fetch s = fetched at hfetched ⊢
    obtain ⟨outcome, t⟩ := fetched
    obtain rfl : outcome = .error fault := hfetched
    rfl
  rw [renderStrings, Activity.bind_of_eq_some hfetch]
  rfl

/-- A template that compiles is copied, and the expressions for its holes are applied. -/
theorem renderStrings_of_applies (ht : Template.compile base segments = .ok t)
    (hbase : w.templates.base = base) (hcache : TemplateCache.Reachable base w.templates.cache)
    (hs : (w.templates.cache.stringsAt s).segments = segments)
    (hinstance : instantiate t w = some (.ok (root, ns), w.setForest g))
    (hlen : ns.length = es.length) {outcome : Except RenderFault Unit}
    (happlies : Applies run es ns (((w.fetched s).setForest g).holding
      (root :: ns ++ Expression.heldNodesAll es)) outcome w') :
    renderStrings run s none es w =
      some (outcome.map fun _ => root, { w' with held := w.held }) := by
  subst hs
  have hfetched := instantiate_congr (v := w.fetched s) (w := w) rfl hinstance
  rw [renderStrings, Activity.bind_of_eq_some (fetch_eq hbase hcache ht)]
  exact (fill_eq_some_iff hfetched hlen).2 ⟨outcome, w', happlies, rfl, rfl⟩

/-- A wrong number of expressions is refused before any of them is applied. -/
theorem renderStrings_of_length_ne (ht : Template.compile base segments = .ok t)
    (hbase : w.templates.base = base) (hcache : TemplateCache.Reachable base w.templates.cache)
    (hs : (w.templates.cache.stringsAt s).segments = segments)
    (hinstance : instantiate t w = some (.ok (root, ns), w.setForest g))
    (hlen : ns.length ≠ es.length) :
    renderStrings run s none es w = some (.error (.arityMismatch ns.length es.length),
      ((w.fetched s).setForest g).dropped es) := by
  subst hs
  have hfetched := instantiate_congr (v := w.fetched s) (w := w) rfl hinstance
  rw [renderStrings, Activity.bind_of_eq_some (fetch_eq hbase hcache ht)]
  exact fill_of_length_ne hfetched hlen

/-- A copy of a compiled template with the nodes at its holes, none of which is filled. -/
theorem exists_copy (ht : Template.compile base segments = .ok t) (w : World) :
    ∃ ns, ns.length = holeCount segments ∧
      instantiate t w =
        some (.ok (w.forest.size, ns), w.setForest (w.forest.plantFragment t.content).2) ∧
      (∀ i n, ns[i]? = some n → Template.StandsFor
        (Labelled.numberedAll (w.forest.size + 1) (Template.cutSource base segments)) i n) ∧
      Filled (w.forest.plantFragment t.content).2 Prod.fst w.forest.size Prod.snd (fun _ => none)
        (Labelled.numberedAll (w.forest.size + 1) (Template.cutSource base segments)) := by
  obtain ⟨ns, hdescend, hlen, -, hstands⟩ := Template.exists_instance ht w.forest
  refine ⟨ns, hlen, ?_, hstands, ?_⟩
  · rw [instantiate_apply, hdescend]
    rfl
  · rw [(Template.compile_eq_ok ht).1]
    exact filled_plantFragment w.forest _

/-- In a copy of a template, the holes before the first one at an element are filled with texts. -/
theorem exists_filled_copy (fuel : ℕ) (ht : Template.compile base segments = .ok t)
    (hlen : holeCount segments = texts.length) {k : ℕ} (hk : k ≤ texts.length)
    (hbefore : ∀ i < k, i ∉ Labelled.elementHolesAll (Template.cutSource base segments))
    (s : ℕ) (w : World) :
    ∃ ns trail, ns.length = texts.length ∧
      instantiate t w =
        some (.ok (w.forest.size, ns), w.setForest (w.forest.plantFragment t.content).2) ∧
      (∀ i n, ns[i]? = some n → Template.StandsFor
        (Labelled.numberedAll (w.forest.size + 1) (Template.cutSource base segments)) i n) ∧
      trail 0 = ((w.fetched s).setForest (w.forest.plantFragment t.content).2).holding
        (w.forest.size :: ns ++ Expression.heldNodesAll (texts.map .text)) ∧
      AppliesFirst (Run.run (fuel + 1)) (texts.map .text) ns trail k ∧
      FilledBefore (Labelled.numberedAll (w.forest.size + 1) (Template.cutSource base segments))
        Nowhere (texts.getD · "") w.forest.size k (trail k) := by
  obtain ⟨ns, hns, hinstance, hstands, hfilled⟩ := exists_copy ht w
  have hnumbers := Labelled.mapAll_snd_numbered (w.forest.size + 1)
    (Template.cutSource base segments)
  have hcount := hns.trans hlen
  obtain ⟨trail, hstart, hfirst, hlast⟩ := exists_applies_before fuel
    (w := ((w.fetched s).setForest (w.forest.plantFragment t.content).2).holding
      (w.forest.size :: ns ++ Expression.heldNodesAll (texts.map .text)))
    (by rw [hnumbers]; exact Template.tidyAll_cutSource base segments)
    (by rw [hnumbers]; exact Template.nodup_holes ht)
    (by rwa [hnumbers]) hk hcount hstands hfilled
  exact ⟨ns, trail, hcount, hinstance, hstands, hstart, hfirst, hlast⟩

/-- Rendering texts with strings of the given segments has one outcome for all worlds: the markup
inside the fragment or a fault. -/
def HasOutcome (base : String) (segments texts : List String)
    (outcome : Except RenderFault String) : Prop :=
  ∀ (fuel : ℕ) {s : ℕ} {w : World}, w.templates.base = base →
    TemplateCache.Reachable base w.templates.cache →
    (w.templates.cache.stringsAt s).segments = segments →
    ∃ rendered w', renderStrings (Run.run (fuel + 1)) s none (texts.map .text) w =
        some (rendered, w') ∧ rendered.map w'.page.inner = outcome

theorem hasOutcome_of_arity (ht : Template.compile base segments = .ok t)
    (hlen : holeCount segments ≠ texts.length) :
    HasOutcome base segments texts
      (.error (.arityMismatch (holeCount segments) texts.length)) := by
  intro fuel s w hbase hcache hs
  obtain ⟨ns, hns, hinstance, -, -⟩ := exists_copy ht w
  have hne : ns.length ≠ (texts.map Expression.text).length := by rwa [hns, List.length_map]
  refine ⟨_, _, renderStrings_of_length_ne ht hbase hcache hs hinstance hne, ?_⟩
  rw [hns, List.length_map]
  rfl

/-- If no hole is at an element, all holes are filled. -/
theorem hasOutcome_of_filled (ht : Template.compile base segments = .ok t)
    (hlen : holeCount segments = texts.length)
    (hnone : ∀ i < texts.length,
      i ∉ Labelled.elementHolesAll (Template.cutSource base segments)) :
    HasOutcome base segments texts (.ok (Snapshot.fragment (Labelled.trees (Labelled.fillAll id
      (textsBefore Nowhere (texts.getD · "") texts.length)
        (Template.cutSource base segments)))).inner) := by
  intro fuel s w hbase hcache hs
  obtain ⟨ns, trail, hcount, hinstance, -, hstart, hfirst, hlast⟩ :=
    exists_filled_copy fuel ht hlen le_rfl hnone s w
  have hlength : (texts.map Expression.text).length = texts.length := List.length_map _
  have happlies : Applies (run (fuel + 1)) (texts.map .text) ns _ (.ok ()) (trail texts.length) :=
    ⟨trail, hstart, hlength ▸ hfirst, hlength ▸ rfl⟩
  refine ⟨_, _, renderStrings_of_applies ht hbase hcache hs hinstance (hcount.trans hlength.symm)
    happlies, ?_⟩
  exact congrArg (fun x => Except.ok (Snapshot.inner x)) hlast.snapshot

/-- The text for the first hole at an element is refused. -/
theorem hasOutcome_of_element (ht : Template.compile base segments = .ok t)
    (hlen : holeCount segments = texts.length) {k : ℕ} (hk : k < texts.length)
    (hbefore : ∀ i < k, i ∉ Labelled.elementHolesAll (Template.cutSource base segments))
    {x : List ℕ × String} (hx : x ∈ Labelled.elementsAll (Template.cutSource base segments))
    (hin : k ∈ x.1) :
    HasOutcome base segments texts
      (.error (.unsupported "text" (Kind.element x.2).nodeName)) := by
  intro fuel s w hbase hcache hs
  obtain ⟨ns, trail, hcount, hinstance, hstands, hstart, hfirst, hlast⟩ :=
    exists_filled_copy fuel ht hlen hk.le hbefore s w
  have hnumbers := Labelled.mapAll_snd_numbered (w.forest.size + 1)
    (Template.cutSource base segments)
  have hd := Template.nodup_holes ht
  rw [← hnumbers] at hd
  rw [← hnumbers, Labelled.elementsAll_mapAll] at hx
  obtain ⟨⟨m, tag⟩, hm, rfl⟩ := List.mem_map.1 hx
  have hn : ns[k]? = some ns[k] := List.getElem?_eq_getElem (hcount ▸ hk)
  have hrefused := hlast.apply_element fuel hd hm hin (hstands k _ hn) texts[k]
  have he : (texts.map Expression.text)[k]? = some (.text texts[k]) := by
    rw [List.getElem?_map, List.getElem?_eq_getElem hk]
    rfl
  have happlies := applies_of_refused hfirst he hn hrefused
  rw [hstart] at happlies
  exact ⟨_, _, renderStrings_of_applies ht hbase hcache hs hinstance (by rwa [List.length_map])
    happlies, rfl⟩

theorem exists_outcome (base : String) (segments texts : List String) :
    ∃ outcome, HasOutcome base segments texts outcome := by
  cases ht : Template.compile base segments with
  | error fault =>
    refine ⟨.error fault, fun fuel s w hbase hcache hs => ⟨_, _,
      renderStrings_of_compile_eq_error hbase hcache (hs ▸ ht), rfl⟩⟩
  | ok t =>
    by_cases hlen : holeCount segments = texts.length
    · by_cases hel : ∃ i, i < texts.length ∧
          i ∈ Labelled.elementHolesAll (Template.cutSource base segments)
      · obtain ⟨hk, hin⟩ := Nat.find_spec hel
        have hfirst : ∀ i < Nat.find hel,
            i ∉ Labelled.elementHolesAll (Template.cutSource base segments) :=
          fun i hi hmem => Nat.find_min hel hi ⟨hi.trans hk, hmem⟩
        obtain ⟨x, hx, hkx⟩ := Labelled.exists_of_mem_elementHolesAll hin
        exact ⟨_, hasOutcome_of_element ht hlen hk hfirst hx hkx⟩
      · exact ⟨_, hasOutcome_of_filled ht hlen fun i hi hmem => hel ⟨i, hi, hmem⟩⟩
    · exact ⟨_, hasOutcome_of_arity ht hlen⟩

end Outcome

/-! ### One reply to the command that renders -/

/-- The segments that a source of templates stands for. -/
def Offers (w : World) (segments : List String) : TemplateSource → Prop
  | .segments own => own = segments
  | .strings name => ∃ s, w.templates.strings? name = .ok s ∧
      (w.templates.cache.stringsAt s).segments = segments

/-- The reply that shows an outcome. -/
def replyOf : Except RenderFault String → Reply
  | .ok inner => .text inner
  | .error fault => .failure (.render fault)

section Reply

variable {base : String} {segments texts : List String} {outcome : Except RenderFault String}
  {w : World}

theorem buildAll_texts (fuel : ℕ) (texts : List String) (w : World) :
    buildAll (run (fuel + 1)) (texts.map .text) w = some (texts.map .text, w) := by
  induction texts with
  | nil => rfl
  | cons s texts ih =>
    rw [List.map_cons, buildAll,
      Activity.bind_of_eq_some (show run (fuel + 1) (.build (.text s)) w = _ from rfl),
      Activity.bind_of_eq_some ih]
    rfl

/-- Segments are rendered like strings that are there for the purpose. -/
theorem HasOutcome.renderSegments (h : HasOutcome base segments texts outcome) (fuel : ℕ)
    (hbase : w.templates.base = base) (hcache : TemplateCache.Reachable base w.templates.cache) :
    ∃ rendered w', renderSegments (run (fuel + 1)) segments (texts.map .text) w =
        some (rendered, w') ∧ rendered.map w'.page.inner = outcome := by
  obtain ⟨rendered, w', hrender, hshown⟩ := h fuel (s := w.templates.cache.strings.size)
    (w := withSegments w segments) hbase (hcache.addStrings segments true)
    (segments_addStrings_self w.templates.cache segments true)
  refine ⟨rendered, withoutStrings w' w.templates.cache.strings.size, ?_, hshown⟩
  change (renderStrings (run (fuel + 1)) w.templates.cache.strings.size none (texts.map .text) >>=
    fun rendered => modify (withoutStrings · w.templates.cache.strings.size) >>=
      fun _ => pure rendered : Activity _) (withSegments w segments) = _
  rw [Activity.bind_of_eq_some hrender]
  rfl

/-- The fragment is named, and the reply shows what is in it. -/
theorem exists_named {rendered : Except RenderFault NodeId}
    (h : rendered.map w.page.inner = outcome) (as : Option String) :
    ∃ w', (match rendered.mapError Failure.render with
      | .ok n => do
        modify fun w => { w with page := w.page.bindTo as n }
        return .text ((← get).page.inner n)
      | .error failure => return .failure failure : Activity Reply) w =
        some (replyOf outcome, w') := by
  subst h
  cases rendered <;> exact ⟨_, rfl⟩

/-- The command that renders texts replies with the outcome. -/
theorem HasOutcome.render (h : HasOutcome base segments texts outcome) (fuel : ℕ)
    (hbase : w.templates.base = base) (hcache : TemplateCache.Reachable base w.templates.cache)
    {source : TemplateSource} (hsource : Offers w segments source) (as : Option String) :
    ∃ w', run (fuel + 2) (.command (.render source (texts.map .text) none as)) w =
      some (replyOf outcome, w') := by
  rw [run, job, command, Run.render, Activity.bind_of_eq_some (buildAll_texts fuel texts w)]
  cases source with
  | segments own =>
    obtain rfl : own = segments := hsource
    obtain ⟨rendered, w₁, hrender, hshown⟩ := h.renderSegments fuel hbase hcache
    dsimp only
    rw [Activity.bind_of_eq_some (Activity.map_of_eq_some hrender)]
    exact exists_named hshown as
  | strings name =>
    obtain ⟨s, hs, hsegments⟩ := hsource
    obtain ⟨rendered, w₁, hrender, hshown⟩ := h fuel hbase hcache hsegments
    dsimp only
    rw [Activity.get_bind, hs]
    dsimp only
    rw [ite_self, Activity.bind_of_eq_some (Activity.map_of_eq_some hrender)]
    exact exists_named hshown as

end Reply

theorem exists_reply (base : String) (segments texts : List String) :
    ∃ reply : Reply, ∀ (fuel : ℕ) {w : World} {source : TemplateSource} (as : Option String),
      w.templates.base = base → TemplateCache.Reachable base w.templates.cache →
      Offers w segments source →
      ∃ w', run (fuel + 2) (.command (.render source (texts.map .text) none as)) w =
        some (reply, w') := by
  obtain ⟨outcome, h⟩ := exists_outcome base segments texts
  exact ⟨replyOf outcome, fun fuel w source as hbase hcache hsource =>
    h.render fuel hbase hcache hsource as⟩

end Run

end LiveMarkup
