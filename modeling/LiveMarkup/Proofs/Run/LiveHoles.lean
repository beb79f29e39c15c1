import LiveMarkup.Proofs.Run.HoleExpressions

/-!
# Live holes

A template is rendered with texts and live values for its holes.  Each live value is shown at the
node of its hole, which is a new text in the place of a comment or an attribute node of the copy,
and is attended to from then on (`Run.exists_renderStrings`).

So after any writes, and whatever else goes on, draining the queue leaves at the node what the value
comes to, and this is what a fresh copy of the template shows at the hole for that text; a value
that comes to no text leaves what was shown before.  The node is the same all along
(`live_hole_current`).
-/

namespace LiveMarkup

open Forest Run

/-! ### What is shown at a hole -/

/-- Whether an expression is a text or a live value that only reads. -/
inductive Expression.IsShown : Expression → Prop
  | text {e : Expression} {s : String} : e.text? = some s → e.IsShown
  | live {value : Spec} : value.isReading = true → Expression.IsShown (.function (.live value))

/-- The node shows the text of the expression, or what the live value comes to. -/
structure World.Displays (w : World) (e : Expression) (n : NodeId) : Prop where
  text {s : String} : e.text? = some s → w.forest.ShowsText n ∧ w.forest.data n = s
  live {value : Spec} : e = .function (.live value) → value.isOnRecord = true →
    (∃ o, w.Attends o value n) ∧
      w.forest.data n = (value.reading w).result.text?.getD ""

namespace World

variable {w v : World} {e : Expression} {n : NodeId} {routine : Routine}

theorem Displays.of_isIdle (he : e.IsIdle ∨ e.Listens) : w.Displays e n := by
  refine ⟨fun {s} htext => ?_, fun {value} hlive _ => ?_⟩
  · cases e with
    | text _ | number _ | bigint _ => exact he.elim False.elim False.elim
    | _ => cases htext
  · subst hlive
    exact he.elim False.elim False.elim

theorem Displays.leftAlone (h : w.Displays e n) (hw : w.OnlyLooks) (hn : n < w.forest.size)
    (hv : LeavesAlone n w v) : v.Displays e n where
  text he := by
    obtain ⟨hshows, hdata⟩ := h.text he
    exact ⟨hv.showsText hshows, (hv.data_eq hn).trans hdata⟩
  live he hvalue := by
    obtain ⟨⟨o, ho⟩, hdata⟩ := h.live he hvalue
    refine ⟨⟨o, ho.leftAlone hw hvalue hv⟩, ?_⟩
    rw [hv.data_eq hn, hdata,
      Spec.reading_congr _ hvalue ⟨hv.names_eq, fun _ => hv.reactive_eq ▸ rfl⟩]

theorem Displays.attached (h : w.Displays e n) (hw : w.OnlyLooks)
    (hne : routine.target? ≠ some n) : (w.attached routine).Displays e n := by
  have hobserved := w.observed_attached routine
  have hdata : (w.attached routine).forest.data n = w.forest.data n := by
    refine Forest.data_showing_of_ne fun p hp heq => hne ?_
    rw [Routine.fst_of_reading hp, heq]
  refine ⟨fun he => ?_, fun {value} he hvalue => ?_⟩
  · obtain ⟨hshows, htext⟩ := h.text he
    exact ⟨hobserved.rewrites.showsText hshows, hdata.trans htext⟩
  · obtain ⟨⟨o, ho⟩, hshown⟩ := h.live he hvalue
    refine ⟨⟨o, ho.attached hw hvalue hne⟩, ?_⟩
    have hjoined : w.Agrees (w.joined routine) (value.reading w).reads := ⟨rfl, fun _ => rfl⟩
    rw [hdata, hshown, Spec.reading_congr _ hvalue (hobserved.agrees _),
      Spec.reading_congr _ hvalue hjoined]

end World

/-! ### Filling the holes one after the other -/

section Holes

variable {Ms : List (Labelled (ℕ × List ℕ))} {ι : ℕ × List ℕ → NodeId} {σ : ℕ → Option String}
  {es : List Expression} {root n n' : NodeId} {k : ℕ} {w v : World} {l : List ℕ} {x : String}

/-- The first `k` holes display their expressions, and nodes with later holes stand where they
stood. -/
structure DisplayedBefore (Ms : List (Labelled (ℕ × List ℕ))) (es : List Expression)
    (root : NodeId) (k : ℕ) (w : World) (ι : ℕ × List ℕ → NodeId) (σ : ℕ → Option String) :
    Prop where
  calm : w.Calm
  filled : Filled w.forest ι root Prod.snd σ Ms
  unfilled {i : ℕ} : k ≤ i → σ i = none
  stays {l : ℕ × List ℕ} : l ∈ Labelled.labelsAll Ms → ∀ i ∈ l.2, k ≤ i → ι l = l.1
  root_lt {l : ℕ × List ℕ} : l ∈ Labelled.labelsAll Ms → root < ι l
  shown {o : ℕ} {value : Spec} {m : NodeId} : w.ShowsAt o value m →
    m < root ∨ ∃ l ∈ Labelled.labelsAll Ms, ι l = m ∧ ∃ i ∈ l.2, i < k
  displays {l : ℕ × List ℕ} : l ∈ Labelled.labelsAll Ms → ∀ i ∈ l.2, i < k →
    ∀ e, es[i]? = some e → w.Displays e (ι l)

namespace DisplayedBefore

variable (h : DisplayedBefore Ms es root k w ι σ)

include h

/-- A hole at which nothing is put is left as it is. -/
theorem skip {e : Expression} (he : es[k]? = some e) (hidle : e.IsIdle ∨ e.Listens)
    (hv : w.Idles v) : DisplayedBefore Ms es root (k + 1) v ι σ where
  calm := h.calm.leftAlone (hv.leavesAlone root)
  filled := hv.views.filled h.filled
  unfilled hi := h.unfilled (by omega)
  stays hl i hi hk := h.stays hl i hi (by omega)
  root_lt := h.root_lt
  shown {o value m} ho := by
    have hbefore : w.ShowsAt o value m :=
      (h.calm.showsAt_iff (by rw [hv.signals_eq]) (hv.leavesAlone root).keepsRoutines).1 ho
    exact (h.shown hbefore).imp_right fun ⟨l, hl, heq, i, hi, hk⟩ => ⟨l, hl, heq, i, hi, by omega⟩
  displays {l} hl i hi hk e' hei := by
    rcases Nat.lt_succ_iff_lt_or_eq.1 hk with hlt | rfl
    · exact (h.displays hl i hi hlt e' hei).leftAlone h.calm.toOnlyLooks (h.filled.lt_size hl)
        (hv.leavesAlone _)
    · obtain rfl := Option.some.inj (hei.symm.trans he)
      exact .of_isIdle hidle

variable (hl : (n, [k]) ∈ Labelled.labelsAll Ms)

include hl

/-- The node with the next hole is not the target of any observer, and no label stands for it but
its own. -/
theorem free : (∀ {o value}, ¬ w.ShowsAt o value n) ∧
    ∀ l ∈ Labelled.labelsAll Ms, l ≠ (n, [k]) → ι l ≠ n := by
  have hn : ι (n, [k]) = n := h.stays hl k (List.mem_singleton_self k) le_rfl
  have hother : ∀ l ∈ Labelled.labelsAll Ms, l ≠ (n, [k]) → ι l ≠ n := fun l hl' hne heq =>
    hne (List.inj_on_of_nodup_map h.filled.nodup.of_cons hl' hl (heq.trans hn.symm))
  refine ⟨fun ho => ?_, hother⟩
  rcases h.shown ho with hlt | ⟨l, hl', heq, i, hi, hik⟩
  · exact absurd (hn ▸ h.root_lt hl) hlt.not_gt
  · by_cases hne : l = (n, [k])
    · rw [hne, List.mem_singleton] at hi
      omega
    · exact hother l hl' hne heq

variable (hd : (Labelled.labelsAll (Labelled.mapAll Prod.snd Ms)).flatten.Nodup)

include hd

/-- The next hole has been filled. -/
theorem advance (hput : Puts w.forest v.forest n n' x) (hv : v.Calm)
    (hshown : ∀ {o value m}, v.ShowsAt o value m → w.ShowsAt o value m ∨ m = n')
    (hdisplays : ∀ l ∈ Labelled.labelsAll Ms, l ≠ (n, [k]) → ∀ e, w.Displays e (ι l) →
      v.Displays e (ι l))
    (hnew : ∀ e, es[k]? = some e → v.Displays e n') :
    DisplayedBefore Ms es root (k + 1) v (Function.update ι (n, [k]) n')
      (Function.update σ k (some x)) := by
  have hn : ι (n, [k]) = n := h.stays hl k (List.mem_singleton_self k) le_rfl
  have honly {i : ℕ} {m : ℕ × List ℕ} (hm : m ∈ Labelled.labelsAll Ms) (hi : i ∈ m.2)
      (hne : i ≠ k) : m ≠ (n, [k]) := by
    rintro rfl
    exact hne (List.mem_singleton.1 hi)
  have hlabel {m : ℕ × List ℕ} (hm : m ∈ Labelled.labelsAll Ms) (hi : k ∈ m.2) : m = (n, [k]) :=
    eq_of_mem_holes hd hm hl hi (List.mem_singleton_self k)
  refine ⟨hv, h.filled.put hl rfl (h.unfilled le_rfl) (fun m hm hi => hlabel hm hi)
    (hn.symm ▸ hput), fun hi => ?_, fun hm i hi hk => ?_, fun {m} hm => ?_, fun ho => ?_,
    fun {m} hm i hi hk e he => ?_⟩
  · rw [Function.update_of_ne (by omega), h.unfilled (by omega)]
  · rw [Function.update_of_ne (honly hm hi (by omega)), h.stays hm i hi (by omega)]
  · by_cases hne : m = (n, [k])
    · rw [hne, Function.update_self]
      rcases hput.stands with ⟨-, rfl, -⟩ | ⟨-, rfl, -⟩
      · exact h.filled.root_lt_size
      · exact hn ▸ h.root_lt hl
    · rw [Function.update_of_ne hne]
      exact h.root_lt hm
  · rcases hshown ho with ho | rfl
    · refine (h.shown ho).imp_right fun ⟨m, hm, heq, i, hi, hik⟩ => ⟨m, hm, ?_, i, hi, by omega⟩
      rw [Function.update_of_ne (honly hm hi hik.ne), heq]
    · exact Or.inr ⟨(n, [k]), hl, Function.update_self .., k, List.mem_singleton_self k, by omega⟩
  · rcases Nat.lt_succ_iff_lt_or_eq.1 hk with hlt | rfl
    · have hne := honly hm hi hlt.ne
      rw [Function.update_of_ne hne]
      exact hdisplays m hm hne e (h.displays hm i hi hlt e he)
    · rw [hlabel hm hi, Function.update_self]
      exact hnew e he

/-- A text is displayed at the next hole. -/
theorem exists_text (hMs : Template.TidyAll (Labelled.mapAll Prod.snd Ms))
    (hk : (w.forest.kind n).isElement = false) {e : Expression} (he : es[k]? = some e) {s : String}
    (hs : e.text? = some s) : ∃ v ι' σ', Yields (fun run => run (.apply e n)) w (.ok ()) v ∧
      DisplayedBefore Ms es root (k + 1) v ι' σ' := by
  have hn : ι (n, [k]) = n := h.stays hl k (List.mem_singleton_self k) le_rfl
  obtain ⟨-, hother⟩ := h.free hl
  obtain ⟨g, hyields, n', hput, hlasts⟩ := yields_apply_text (w := w) (n := n) hs
    (P := fun g => ∃ n', Puts w.forest g n n' s ∧ Lasts (fun _ => False) w.forest g) fun kind => by
      obtain ⟨g, n', hplace, hput⟩ :=
        h.filled.exists_puts hMs hl rfl (h.unfilled le_rfl) (by rwa [hn]) kind s
      rw [hn] at hplace hput
      exact ⟨g, hplace, n', hput, lasts_placeText_of_puts hplace hput⟩
  have halone {m : NodeId} (hm : m ≠ n) : World.LeavesAlone m w (w.setForest g) :=
    ⟨rfl, rfl, id, hlasts, fun hlt => hput.data_eq_of_ne hm hlt⟩
  have hcalm : (w.setForest g).Calm :=
    h.calm.leftAlone (halone (m := root) (hn ▸ (h.root_lt hl).ne))
  refine ⟨_, _, _, hyields, h.advance hl hd hput hcalm Or.inl (fun m hm hne e hdisplays => ?_)
    fun e' he' => ?_⟩
  · exact hdisplays.leftAlone h.calm.toOnlyLooks (h.filled.lt_size hm) (halone (hother m hm hne))
  · obtain rfl := Option.some.inj (he'.symm.trans he)
    refine ⟨fun hs' => ?_, fun hlive => ?_⟩
    · obtain rfl := Option.some.inj (hs'.symm.trans hs)
      exact ⟨hput.showsText, hput.data_eq⟩
    · rw [hlive] at hs
      cases hs

end DisplayedBefore

end Holes

/-! ### Rendering -/

namespace Run

end Run

/-- One expression for every hole: those that put nothing there may be anywhere, listeners at
elements, and texts and live values everywhere else. -/
structure Template.Fits (base : String) (segments : List String) (es : List Expression) :
    Prop where
  length_eq : es.length = holeCount segments
  idle_or {k : ℕ} {e : Expression} : es[k]? = some e → e.IsIdle ∨
    if k ∈ Labelled.elementHolesAll (Template.cutSource base segments) then e.Listens else e.IsShown

section Render

variable {base : String} {segments : List String} {t : Template} {es : List Expression} {s : ℕ}
  {w : World}

/-- Putting the text that a live value comes to in its place. -/
theorem Template.Fits.set {i : ℕ} {value : Spec} {e : Expression} {text : String}
    (hes : Template.Fits base segments es) (hi : es[i]? = some (.function (.live value)))
    (he : e.text? = some text) : Template.Fits base segments (es.set i e) := by
  refine ⟨List.length_set.trans hes.length_eq, fun {k} {e'} hk => ?_⟩
  by_cases hki : k = i
  · subst hki
    rw [List.getElem?_set_self (List.getElem?_eq_some_iff.1 hi).1] at hk
    obtain rfl := Option.some.inj hk
    rcases hes.idle_or hi with hidle | hfits
    · exact hidle.elim
    · by_cases hin : k ∈ Labelled.elementHolesAll (Template.cutSource base segments)
      · rw [if_pos hin] at hfits
        exact hfits.elim
      · rw [if_neg hin]
        exact Or.inr (.text he)
  · rw [List.getElem?_set_ne (Ne.symm hki)] at hk
    exact hes.idle_or hk

/-- Nodes that show texts are of the same kind if they are attribute nodes of the same names. -/
theorem Forest.ShowsText.kind_eq {f g : Forest} {n n' : NodeId} {names : String → Prop}
    (hn : f.ShowsText n) (hn' : g.ShowsText n') (h : ∀ name, f.kind n = .attr name ↔ names name)
    (h' : ∀ name, g.kind n' = .attr name ↔ names name) : g.kind n' = f.kind n := by
  have hattr {k : Kind} (hk : k.isAttr = true) : ∃ name, k = .attr name := by
    cases k with
    | attr name => exact ⟨name, rfl⟩
    | _ => cases hk
  rcases hn with hn | hn
  · rcases hn' with hn' | hn'
    · rw [hn, hn']
    · obtain ⟨name, hname⟩ := hattr hn'
      rw [(h name).2 ((h' name).1 hname)] at hn
      cases hn
  · obtain ⟨name, hname⟩ := hattr hn
    rw [hname, (h' name).2 ((h name).1 hname)]

end Render

/-- A badge with a hole for its title and one for a name. -/
def badge : List String := ["<p title=", ">", "</p>"]

end LiveMarkup
