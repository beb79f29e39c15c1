import Mathlib.Data.List.Pairwise
import LiveMarkup.Proofs.Run.Rendering
import LiveMarkup.Proofs.Template.Filling
import LiveMarkup.Proofs.Template.Substitution
import LiveMarkup.Run.Session

/-!
# Rendering texts

Rendering a template with texts for its holes is substitution in the markup that it was compiled
from: `Run.renderStrings_substitute`.  The copy of the content is laid out at new nodes
(`Forest.Filled`); every expression fills one more hole of it, so all holes are filled in the end,
and joining the texts below the fragment gives the trees with the texts for their markers.
-/

namespace LiveMarkup

open Forest

namespace Run

/-! ### Applying texts in order -/

section Trail

variable {run : Runner} {es : List Expression} {ns : List NodeId} {w : World} {k : ℕ}

/-- What every application keeps is kept by all of them, one after the other. -/
theorem exists_trail {P : ℕ → World → Prop} (h0 : P 0 w)
    (hstep : ∀ i < k, ∀ v, P i v → ∃ e n v', es[i]? = some e ∧ ns[i]? = some n ∧
      run (.apply e n) v = some (.ok (), v') ∧ P (i + 1) v') :
    ∃ trail, trail 0 = w ∧ AppliesFirst run es ns trail k ∧ P k (trail k) := by
  induction k with
  | zero => exact ⟨fun _ => w, rfl, appliesFirst_zero, h0⟩
  | succ k ih =>
    obtain ⟨trail, hstart, hfirst, hkeep⟩ := ih fun i hi => hstep i (Nat.lt_succ_of_lt hi)
    obtain ⟨e, n, v', he, hn, hrun, hnext⟩ := hstep k k.lt_succ_self _ hkeep
    refine ⟨Function.update trail (k + 1) v', ?_, fun i hi => ?_, ?_⟩
    · rw [Function.update_of_ne k.succ_ne_zero.symm, hstart]
    · rw [Function.update_of_ne hi.ne]
      rcases Nat.lt_succ_iff_lt_or_eq.1 hi with hi | rfl
      · rw [Function.update_of_ne (Nat.succ_lt_succ hi).ne]
        exact hfirst i hi
      · rw [Function.update_self]
        exact ⟨e, n, he, hn, hrun⟩
    · rw [Function.update_self]
      exact hnext

end Trail

/-! ### Filling the holes one after the other -/

section Holes

variable {Ms : List (Labelled (ℕ × List ℕ))} {ns : List NodeId} {es : List Expression}
  {atElement : ℕ → Prop} [DecidablePred atElement] {values : ℕ → String} {root : NodeId}
  {count k : ℕ} {w : World}

/-- The texts of the first `k` holes, but for those at elements. -/
def textsBefore (atElement : ℕ → Prop) [DecidablePred atElement] (values : ℕ → String) (k : ℕ) :
    ℕ → Option String :=
  fun i => if i < k ∧ ¬ atElement i then some (values i) else none

theorem textsBefore_succ_of_atElement (hk : atElement k) :
    textsBefore atElement values (k + 1) = textsBefore atElement values k := by
  funext i
  unfold textsBefore
  by_cases hi : i = k
  · subst hi
    rw [if_neg fun h => h.2 hk, if_neg fun h => h.2 hk]
  · simp only [show i < k + 1 ↔ i < k by omega]

theorem textsBefore_succ (hk : ¬ atElement k) :
    textsBefore atElement values (k + 1) =
      Function.update (textsBefore atElement values k) k (some (values k)) := by
  funext i
  by_cases hi : i = k
  · subst hi
    rw [Function.update_self, textsBefore, if_pos ⟨i.lt_succ_self, hk⟩]
  · rw [Function.update_of_ne hi, textsBefore, textsBefore]
    simp only [show i < k + 1 ↔ i < k by omega]

/-- The first `k` holes have been filled, and nodes with later holes stand where they stood. -/
def FilledBefore (Ms : List (Labelled (ℕ × List ℕ))) (atElement : ℕ → Prop)
    [DecidablePred atElement] (values : ℕ → String) (root : NodeId) (k : ℕ) (w : World) : Prop :=
  ∃ ι, Filled w.forest ι root Prod.snd (textsBefore atElement values k) Ms ∧
    ∀ l ∈ Labelled.labelsAll Ms, ∀ i ∈ l.2, k ≤ i → ι l = l.1

/-- No hole is at two nodes. -/
theorem eq_of_mem_holes (hd : (Labelled.labelsAll (Labelled.mapAll Prod.snd Ms)).flatten.Nodup)
    {l m : ℕ × List ℕ} (hl : l ∈ Labelled.labelsAll Ms) (hm : m ∈ Labelled.labelsAll Ms) {i : ℕ}
    (hil : i ∈ l.2) (him : i ∈ m.2) : l = m := by
  rw [Labelled.labelsAll_mapAll, ← List.flatMap_def, List.nodup_flatMap] at hd
  by_contra hne
  have hsymm : Std.Symm (Function.onFun List.Disjoint (Prod.snd : ℕ × List ℕ → List ℕ)) :=
    ⟨fun _ _ h => List.disjoint_symm h⟩
  exact List.Pairwise.forall hd.2 hl hm hne hil him

theorem run_apply_empty (fuel : ℕ) (n : NodeId) (w : World) :
    run (fuel + 1) (.apply .empty n) w = some (.ok (), w) := by
  rfl

theorem run_apply_text (fuel : ℕ) {n : NodeId} {s : String} {g : Forest}
    (h : w.forest.placeText n "text" s = (.ok (), g)) :
    run (fuel + 1) (.apply (.text s) n) w = some (.ok (), w.setForest g) := by
  rw [run, job, apply, applyTo]
  simp only [Activity.place, h]

/-- Applying the expression for the next hole fills it. -/
theorem FilledBefore.apply (fuel : ℕ)
    (hMs : Template.TidyAll (Labelled.mapAll Prod.snd Ms))
    (hd : (Labelled.labelsAll (Labelled.mapAll Prod.snd Ms)).flatten.Nodup)
    (hat : k ∈ Labelled.elementHolesAll (Labelled.mapAll Prod.snd Ms) ↔ atElement k) {n : NodeId}
    (hn : Template.StandsFor Ms k n) (h : FilledBefore Ms atElement values root k w) :
    ∃ w', run (fuel + 1) (.apply (if atElement k then .empty else .text (values k)) n) w =
        some (.ok (), w') ∧ FilledBefore Ms atElement values root (k + 1) w' := by
  obtain ⟨ι, hfilled, hstays⟩ := h
  obtain ⟨l, hl, hk⟩ := hn
  by_cases hel : atElement k
  · rw [if_pos hel]
    refine ⟨w, run_apply_empty fuel n w, ι, ?_, fun m hm i hi hle => hstays m hm i hi (by omega)⟩
    rw [textsBefore_succ_of_atElement hel]
    exact hfilled
  · rw [if_neg hel]
    have hι : ι (n, l) = n := hstays (n, l) hl k hk le_rfl
    have hσ : textsBefore atElement values k k = none := if_neg fun h => lt_irrefl k h.1
    obtain ⟨hkind, hone⟩ : (w.forest.kind (ι (n, l))).isElement = false ∧ l = [k] := by
      rcases (hfilled.layout.holds.isHole hMs (n, l) hl k hk hσ).2 with
        ⟨-, hin⟩ | ⟨hkind, hone, -⟩
      · exact absurd (hat.1 hin) hel
      · exact ⟨hkind, hone⟩
    obtain ⟨g, n', hplace, hnext⟩ := hfilled.place hMs hl hone hσ hkind
      (fun m hm hkm => eq_of_mem_holes hd hm hl hkm hk) "text" (values k)
    rw [hι] at hplace
    refine ⟨w.setForest g, run_apply_text fuel hplace, Function.update ι (n, l) n', ?_, ?_⟩
    · rw [textsBefore_succ hel]
      exact hnext
    · intro m hm i hi hle
      have hne : m ≠ (n, l) := by
        rintro rfl
        rw [hone, List.mem_singleton] at hi
        omega
      rw [Function.update_of_ne hne]
      exact hstays m hm i hi (by omega)

/-- Applying the expressions for all holes fills them all. -/
theorem exists_applies (fuel : ℕ) (values : ℕ → String)
    (hMs : Template.TidyAll (Labelled.mapAll Prod.snd Ms))
    (hd : (Labelled.labelsAll (Labelled.mapAll Prod.snd Ms)).flatten.Nodup)
    (hat : ∀ i < count, i ∈ Labelled.elementHolesAll (Labelled.mapAll Prod.snd Ms) ↔ atElement i)
    (hlen : ns.length = count)
    (hstands : ∀ i n, ns[i]? = some n → Template.StandsFor Ms i n)
    (h : Filled w.forest Prod.fst root Prod.snd (fun _ => none) Ms) :
    ∃ w', Applies (run (fuel + 1)) ((List.range count).map fun i =>
        if atElement i then .empty else .text (values i)) ns w (.ok ()) w' ∧
      FilledBefore Ms atElement values root count w' := by
  have h0 : FilledBefore Ms atElement values root 0 w := by
    have hnone : textsBefore atElement values 0 = fun _ => none := by
      funext i
      exact if_neg fun h => i.not_lt_zero h.1
    refine ⟨Prod.fst, ?_, fun _ _ _ _ _ => rfl⟩
    rw [hnone]
    exact h
  generalize hes : ((List.range count).map fun i =>
    if atElement i then Expression.empty else .text (values i)) = es
  obtain ⟨trail, hstart, hfirst, hlast⟩ : ∃ trail, trail 0 = w ∧
      AppliesFirst (run (fuel + 1)) es ns trail count ∧
      FilledBefore Ms atElement values root count (trail count) := by
    refine exists_trail h0 fun i hi v hv => ?_
    have hlt : i < ns.length := hlen ▸ hi
    have hn : ns[i]? = some ns[i] := List.getElem?_eq_getElem hlt
    obtain ⟨v', hrun, hnext⟩ := hv.apply fuel hMs hd (hat i hi) (hstands i _ hn)
    refine ⟨_, _, v', ?_, hn, hrun, hnext⟩
    rw [← hes, List.getElem?_map, List.getElem?_range hi]
    rfl
  have hlength : es.length = count := by simp [← hes]
  rw [← hlength] at hfirst hlast
  exact ⟨trail es.length, ⟨trail, hstart, hfirst, rfl⟩, hlength ▸ hlast⟩

end Holes

/-! ### Rendering -/

section Render

variable {base : String} {segments : List String} {t : Template} {values : ℕ → String}

/-- The copy of a compiled template with no hole filled. -/
theorem filled_plantFragment (f : Forest) (Ls : List (Labelled (List ℕ))) :
    Filled (f.plantFragment (Labelled.trees Ls)).2 Prod.fst f.size Prod.snd (fun _ => none)
      (Labelled.numberedAll (f.size + 1) Ls) := by
  obtain ⟨-, hkind, -, hlink, hlayout⟩ := f.holdsBelow_plantFragment Ls
  refine ⟨hkind, hlink, ?_, Labelled.nodup_cons_labels_numberedAll f.size Ls⟩
  rwa [Labelled.fillAll_none]

/-- Whether the marker of a hole is the name of an attribute in the markup of a template. -/
def AtElement (base : String) (segments : List String) (i : ℕ) : Prop :=
  Marker.text base i ∈ Tree.attributeNamesAll (Tree.ofMarkup (Template.source base segments))

instance (base : String) (segments : List String) : DecidablePred (AtElement base segments) :=
  fun _ => inferInstanceAs (Decidable (_ ∈ _))

/-- The path of a hole leads to an element exactly if the marker of the hole names an attribute. -/
theorem isElement_iff_atElement (ht : Template.compile base segments = .ok t)
    (hmarked : Template.MarkedSource base segments) (f : Forest) {ns : List NodeId}
    (hns : (f.plantFragment t.content).2.descendAll f.size t.paths = .ok ns) {i n : ℕ}
    (hn : ns[i]? = some n) :
    ((f.plantFragment t.content).2.kind n).isElement = true ↔ AtElement base segments i := by
  obtain ⟨ns', hdescend, hlen, -, hstands⟩ := Template.exists_instance ht f
  obtain rfl : ns' = ns := Except.ok.inj (hdescend.symm.trans hns)
  have hlt : i < holeCount segments := hlen ▸ (List.getElem?_eq_some_iff.1 hn).1
  obtain ⟨l, hl, hi⟩ := hstands i n hn
  have hfilled := filled_plantFragment f (Template.cutSource base segments)
  rw [← (Template.compile_eq_ok ht).1] at hfilled
  have hnumbers := Labelled.mapAll_snd_numbered (f.size + 1) (Template.cutSource base segments)
  have htidy := Template.tidyAll_cutSource base segments
  rw [← hnumbers] at htidy
  have hkinds := (hfilled.layout.holds.isHole htidy (n, l) hl i hi rfl).2
  rw [hnumbers] at hkinds
  have hat := Template.mem_elementHoles_cutSource_iff (i := i) ht hmarked
  rcases hkinds with ⟨hkind, hin⟩ | ⟨hkind, -, hin⟩
  · exact iff_of_true hkind (hat.1 hin).2
  · have hnot := (Template.not_mem_elementHoles ht hin).2
    exact iff_of_false (by simp [hkind]) fun h => hnot (hat.2 ⟨hlt, h⟩)

/-- Nothing for the holes at elements, and a text for every other hole. -/
def textsFor (base : String) (segments : List String) (values : ℕ → String) : List Expression :=
  (List.range (holeCount segments)).map fun i =>
    if AtElement base segments i then .empty else .text (values i)

/-- A fragment in which all holes of a template have been filled, with its texts joined. -/
theorem FilledBefore.snapshot_normalize {Ls : List (Labelled (List ℕ))} {atElement : ℕ → Prop}
    [DecidablePred atElement] {root : NodeId} {n k : ℕ} {w : World}
    (h : FilledBefore (Labelled.numberedAll n Ls) atElement values root k w) :
    (w.forest.normalize root).snapshot root = .fragment (Tree.joinedAll (Labelled.trees
      (Labelled.fillAll id (textsBefore atElement values k) Ls))) := by
  obtain ⟨ι, ⟨hkind, -, hlayout, hnodup⟩, -⟩ := h
  rw [← Labelled.labelsAll_fillAll (φ := Prod.snd) (σ := textsBefore atElement values k)] at hnodup
  have hlabels := Labelled.fillAll_mapAll (σ := textsBefore atElement values k) Prod.snd id
    (Labelled.numberedAll n Ls)
  rw [Labelled.mapAll_snd_numbered] at hlabels
  rw [hlayout.snapshot_normalize hkind hnodup, hlabels, Labelled.trees_mapAll]
  rfl

/-- Let the base stand in markers only in the texts, names and values of the markup of a template
that compiles.  Then rendering with any texts succeeds, and the fragment with its texts joined is
the markup in which each marker is replaced by its text, all at once, without the attributes that
markers name. -/
theorem renderStrings_substitute (ht : Template.compile base segments = .ok t)
    (hmarked : Template.MarkedSource base segments)
    (values : ℕ → String) (fuel : ℕ) {s : ℕ} {w : World} (hbase : w.templates.base = base)
    (hcache : TemplateCache.Reachable base w.templates.cache)
    (hs : (w.templates.cache.stringsAt s).segments = segments) :
    ∃ root w', renderStrings (run (fuel + 1)) s none (textsFor base segments values) w =
        some (.ok root, w') ∧
      (w'.forest.normalize root).snapshot root = .fragment (Tree.joinedAll
        (Tree.substituteAll base (holeCount segments) values
          (Tree.ofMarkup (Template.source base segments)))) := by
  obtain ⟨ns, hdescend, hlen, -, hstands⟩ := Template.exists_instance ht w.forest
  have hcontent := (Template.compile_eq_ok ht).1
  have hinstance : instantiate t w =
      some (.ok (w.forest.size, ns), w.setForest (w.forest.plantFragment t.content).2) := by
    rw [instantiate_apply, hdescend]
    rfl
  have hfetched := instantiate_congr (v := w.fetched s) (w := w) rfl hinstance
  have hfilled := filled_plantFragment w.forest (Template.cutSource base segments)
  rw [← hcontent] at hfilled
  have hnumbers := Labelled.mapAll_snd_numbered (w.forest.size + 1)
    (Template.cutSource base segments)
  have hlength : (textsFor base segments values).length = holeCount segments := by simp [textsFor]
  have hat : ∀ i < holeCount segments, i ∈ Labelled.elementHolesAll (Labelled.mapAll Prod.snd
      (Labelled.numberedAll (w.forest.size + 1) (Template.cutSource base segments))) ↔
        AtElement base segments i := fun i hi => by
    rw [hnumbers, Template.mem_elementHoles_cutSource_iff ht hmarked]
    exact and_iff_right hi
  obtain ⟨w₁, happlies, hlast⟩ := exists_applies fuel values
    (w := ((w.fetched s).setForest (w.forest.plantFragment t.content).2).holding
      (w.forest.size :: ns ++ Expression.heldNodesAll (textsFor base segments values)))
    (by rw [hnumbers]; exact Template.tidyAll_cutSource base segments)
    (by rw [hnumbers]; exact Template.nodup_holes ht)
    hat hlen hstands hfilled
  refine ⟨w.forest.size, { w₁ with held := w.held }, ?_, ?_⟩
  · subst hs
    rw [renderStrings, Activity.bind_of_eq_some (fetch_eq hbase hcache ht)]
    exact (fill_eq_some_iff hfetched (hlen.trans hlength.symm)).2 ⟨.ok (), w₁, happlies, rfl, rfl⟩
  · have hjoined := hlast.snapshot_normalize
    rw [Template.joinedAll_fillAll_cutSource ht hmarked] at hjoined
    · exact hjoined
    · intro i hi
      obtain ⟨hlt, hnot⟩ := Template.not_mem_elementHoles ht hi
      rw [Template.mem_elementHoles_cutSource_iff ht hmarked] at hnot
      exact if_pos ⟨hlt, fun hat => hnot ⟨hlt, hat⟩⟩

end Render

/-- A template with a hole at an element, one for the value of an attribute, and one in a text. -/
def invitation : List String := ["<p ", " class=", ">Hi ", ", you</p>"]

/-- A fresh world with the strings of the invitation. -/
def invitationWorld : World :=
  { World.fresh "a0123456789abcdef" with
    templates := ((Templates.empty "a0123456789abcdef").addStrings invitation true).2 }

/-- A name that looks like markup with a marker in it. -/
def trickyName : String := "<b>a0123456789abcdef-1-</b>"

/-- The name stands in the text as it is. -/
theorem renderStrings_substitute_invitation :
    ∃ root w', renderStrings (run 1) 0 none
        (textsFor "a0123456789abcdef" invitation fun i => ["", "wide", trickyName].getD i "")
        invitationWorld = some (.ok root, w') ∧
      ((w'.forest.normalize root).snapshot root).rows =
        [.fragment 0, .element 1 "p" [⟨"class", "wide"⟩],
          .text 2 "Hi <b>a0123456789abcdef-1-</b>, you"] := by
  have hok : (Template.compile "a0123456789abcdef" invitation).isOk = true := by decide +kernel
  obtain ⟨t, ht⟩ := exists_of_isOk hok
  have hmarked : Template.MarkedSource "a0123456789abcdef" invitation := by decide +kernel
  obtain ⟨root, w', hrender, hsnapshot⟩ := renderStrings_substitute ht hmarked
    (fun i => ["", "wide", trickyName].getD i "") 0 (s := 0) (w := invitationWorld) rfl
    (.addStrings .empty invitation true) rfl
  refine ⟨root, w', hrender, ?_⟩
  rw [hsnapshot]
  decide +kernel

end Run

end LiveMarkup
