import LiveMarkup.Proofs.Run.Keeping

/-!
# Showing values keeps nodes sealed off

A value that is built leads to nodes outside only, and binding such a value to a node outside, alone
or in a template, leaves the sealed nodes as they are.
-/

namespace LiveMarkup.Run

open Activity

variable {S : Set NodeId} {m n p : NodeId} {ns : List NodeId} {w v : World} {e : Expression}
  {es : List Expression} {run : Runner}

/-! ### Reading and naming -/

theorem keeps_readSignal (hw : w.Sealed S) (name : String) (mode : ReadMode) :
    Keeps S w (readSignal name mode) Anything := by
  intro a u hu
  rw [readSignal] at hu
  split at hu
  · obtain ⟨-, rfl⟩ := Prod.mk.inj (Option.some.inj hu)
    exact ⟨hw.refl, trivial⟩
  · split at hu
    · obtain ⟨-, rfl⟩ := Prod.mk.inj (Option.some.inj hu)
      exact ⟨hw.modifyReactive _, trivial⟩
    · obtain ⟨-, rfl⟩ := Prod.mk.inj (Option.some.inj hu)
      exact ⟨hw.refl, trivial⟩

theorem keeps_handler (hw : w.Sealed S) (h : Handler) : Keeps S w (handler h) Anything := by
  cases h with
  | script commands =>
    exact (keeps_addRoutine hw fun n hn => by cases hn).then_ fun _ v hv => .pure hv trivial
  | callback name => exact .get_bind (.pure hw trivial)

/-- What fails drops the values that were not bound. -/
theorem keeps_giveUp {α : Type} {post : α → World → Prop} (hw : w.Sealed S)
    (es : List Expression) {a : α} (ha : ∀ v, post a v) :
    Keeps S w (do discard es; return a) post :=
  (keeps_discard hw es).then_ fun _ v hv => .pure hv (ha v)

/-! ### Binding values -/

/-- A way of binding code to nodes that leaves sealed nodes as they are, and sealed off. -/
def KeepsBinding (S : Set NodeId)
    (binding : Binding → NodeId → Activity (Except RenderFault Unit)) : Prop :=
  ∀ (b : Binding) {n : NodeId} {w : World}, w.Sealed S → w.forest.Open S n →
    Keeps S w (binding b n) Anything

section Binding

variable {binding : Binding → NodeId → Activity (Except RenderFault Unit)}

mutual

theorem keeps_applyTo {w : World} {n : NodeId} (hb : KeepsBinding S binding) (hw : w.Sealed S)
    (hn : w.forest.Open S n) (e : Expression) (he : e.Open w.forest S) :
    Keeps S w (applyTo run binding n e) Anything := by
  have hf := hw.forest
  cases e with
  | empty => exact .pure hw trivial
  | text s | number x | bigint i =>
    rw [applyTo]
    exact keeps_place hw (.placeText hf hn.not_mem _ _)
  | node v =>
    rw [applyTo]
    exact keeps_place hw (.placeNode hf hn (he v List.mem_cons_self))
  | capability name value =>
    rw [applyTo]
    exact keeps_place hw (.placed (.setAttr hf hn name value))
  | function b => exact hb b hw hn
  | deferred promise =>
    have hspawn : ∀ k, (Program.deferred promise n).target? = some k → w.forest.Open S k :=
      fun k hk => Option.some.inj hk ▸ hn
    exact (keeps_spawn hw hspawn).then_ fun _ v hv => .pure hv trivial
  | iterable items =>
    refine .get_bind ?_
    dsimp only
    split
    · next p hkind hp =>
      refine (keeps_applySlots hb hw (hf.parent hn.not_mem hp) n items he).bind
        fun outcome v hv _ => ?_
      split
      · have hout := hv.seals.setForest (.remove hv.seals.forest hn.not_mem)
        exact .modify_bind hout (.pure hout.seals trivial)
      · exact .pure hv.seals trivial
    · exact keeps_applyAll hb hw hn items he
    · exact keeps_giveUp hw items fun _ => trivial

theorem keeps_applySlots {w : World} {p : NodeId} (hb : KeepsBinding S binding) (hw : w.Sealed S)
    (hp : w.forest.Open S p) (anchor : NodeId) (items : List Expression)
    (hitems : Expression.OpenAll w.forest S items) :
    Keeps S w (applySlots run binding p anchor items) Anything := by
  cases items with
  | nil => exact .pure hw trivial
  | cons item items =>
    obtain ⟨hslot, hopen⟩ := Forest.Avoids.addSlot hw.forest hp anchor
    have hset := hw.setForest hslot
    obtain ⟨hitem, hrest⟩ := Expression.openAll_cons.1 (hitems.mono hset.size_le)
    intro a u hu
    rw [applySlots] at hu
    dsimp only at hu
    rcases hadd : w.forest.addSlot p anchor with ⟨slot, fault | ⟨⟩, f⟩
    · rw [hadd] at hu hset
      exact (keeps_giveUp hset.seals (item :: items) (fun _ => trivial) a u hu).imp_left hset.trans
    · rw [hadd] at hu hset hopen hitem hrest
      have happly := keeps_applyTo hb hset.seals hopen item hitem
      refine (happly.bind (fun outcome v hv _ => ?_) a u hu).imp_left hset.trans
      split
      · exact keeps_applySlots hb hv.seals (hv.open_mono (hset.open_mono hp)) anchor items
          (hrest.mono hv.size_le)
      · exact keeps_giveUp hv.seals items fun _ => trivial

theorem keeps_applyAll {w : World} {n : NodeId} (hb : KeepsBinding S binding) (hw : w.Sealed S)
    (hn : w.forest.Open S n) (items : List Expression)
    (hitems : Expression.OpenAll w.forest S items) :
    Keeps S w (applyAll run binding n items) Anything := by
  cases items with
  | nil => exact .pure hw trivial
  | cons item items =>
    obtain ⟨hitem, hrest⟩ := Expression.openAll_cons.1 hitems
    refine (keeps_applyTo hb hw hn item hitem).bind fun outcome v hv _ => ?_
    split
    · exact keeps_applyAll hb hv.seals (hv.open_mono hn) items (hrest.mono hv.size_le)
    · exact keeps_giveUp hv.seals items fun _ => trivial

end

end Binding

variable (hr : run.Keeps S)

include hr

theorem keeps_bindLive (hw : w.Sealed S) (hn : w.forest.Open S n) (value : Spec) :
    Keeps S w (bindLive run value n) Anything := by
  obtain ⟨htarget, hopen⟩ := Forest.Avoids.liveTarget hw.forest hn
  refine .get_bind ?_
  have hset := hw.setForest htarget
  generalize w.forest.liveTarget n = t at hopen hset ⊢
  rcases t with ⟨fault | target, f⟩
  · exact .set_bind hset (.pure hset.seals trivial)
  · have hroutine : ∀ k, (Routine.live value target).target? = some k →
        (w.setForest f).forest.Open S k := fun k hk => Option.some.inj hk ▸ hopen target rfl
    refine .set_bind hset ((keeps_addObserver hset.seals true hroutine).then_ fun o v hv => ?_)
    exact (hr (.observer o) hv trivial).then_ fun _ u hu => .pure hu trivial

theorem keeps_bind (b : Binding) (hw : w.Sealed S) (hn : w.forest.Open S n) :
    Keeps S w (bind run b n) Anything := by
  cases b with
  | fail fault => exact .pure hw trivial
  | function as commands result =>
    have hname : World.Avoids S w { w with page := w.page.bindTo as n } :=
      hw.setPage (hw.page.bindTo as hn)
    refine .modify_bind hname ((keeps_body hr commands hname.seals).bind fun _ v hv _ => ?_)
    refine (hr (.build result) hv.seals trivial).bind fun e u hu he => ?_
    exact hr (.apply e n) hu.seals ⟨he, hu.open_mono (hv.open_mono (hname.open_mono hn))⟩
  | setAttr name value =>
    show Keeps S w (place fun f => f.placeAttr n name value) Anything
    exact keeps_place hw (.placeAttr hw.forest hn name value)
  | listen event routine once =>
    refine .get_bind ?_
    dsimp only
    split_ifs
    · have hlisten : World.Avoids S w { w with page := (w.page.listen n event routine once).2 } :=
        hw.setPage (hw.page.listen hn.not_mem event routine once)
      exact .modify_bind hlisten (.pure hlisten.seals trivial)
    · exact .pure hw trivial
  | capture slot =>
    have hbound := hw.setPage (hw.page.bindSlot slot hn)
    exact .modify_bind hbound (.pure hbound.seals trivial)
  | live value => exact keeps_bindLive hr hw hn value

theorem keeps_apply (hw : w.Sealed S) (he : e.Open w.forest S) (hn : w.forest.Open S n) :
    Keeps S w (apply run e n) Anything :=
  keeps_applyTo (fun b _ _ hw hn => keeps_bind hr b hw hn) hw hn e he

theorem keeps_showLive (hw : w.Sealed S) (value : Spec) (hn : w.forest.Open S n) :
    Keeps S w (showLive run value n) Anything := by
  refine (hr (.build value) hw trivial).bind fun e v hv he => ?_
  refine (hr (.apply e n) hv.seals ⟨he, hv.open_mono hn⟩).then_ fun _ u hu => .pure hu trivial

/-! ### Rendering -/

/-- What is rendered, if anything, is outside. -/
def RootOpen (S : Set NodeId) {ε : Type} (rendered : Except ε NodeId) (w : World) : Prop :=
  ∀ root, rendered = .ok root → w.forest.Open S root

namespace RootOpen

variable {ε ε' : Type} {fault : ε}

omit hr in
theorem ok (hn : w.forest.Open S n) : RootOpen S (.ok n : Except ε NodeId) w :=
  fun _ h => Except.ok.inj h ▸ hn

omit hr in
theorem error : RootOpen S (.error fault : Except ε NodeId) w := by
  simp [RootOpen]

omit hr in
theorem mapError {f : ε → ε'} {rendered : Except ε NodeId} (h : RootOpen S rendered w) :
    RootOpen S (rendered.mapError f) w := by
  cases rendered with
  | error fault => exact error
  | ok n => exact ok (h n rfl)

end RootOpen

theorem keeps_applyWith (hw : w.Sealed S) (applier : Option Applier) (he : e.Open w.forest S)
    (hn : w.forest.Open S n) : Keeps S w (applyWith run applier e n) Anything := by
  cases applier with
  | none => exact hr (.apply e n) hw ⟨he, hn⟩
  | some applier =>
    refine .get_bind ((keeps_note hw _).bind fun _ v hv _ => ?_)
    cases applier with
    | apply => exact hr (.apply e n) hv.seals ⟨he.mono hv.size_le, hv.open_mono hn⟩
    | skip => exact keeps_giveUp hv.seals [e] fun _ => trivial
    | fail => exact keeps_giveUp hv.seals [e] fun _ => trivial

theorem keeps_applyEach (applier : Option Applier) (hw : w.Sealed S)
    (hes : Expression.OpenAll w.forest S es) (hns : ∀ n ∈ ns, w.forest.Open S n) :
    Keeps S w (applyEach run applier es ns) Anything := by
  induction es generalizing ns w with
  | nil => cases ns <;> exact .pure hw trivial
  | cons e es ih =>
    cases ns with
    | nil => exact .pure hw trivial
    | cons n ns =>
      obtain ⟨he, hes⟩ := Expression.openAll_cons.1 hes
      obtain ⟨hn, hns⟩ := List.forall_mem_cons.1 hns
      refine (keeps_applyWith hr hw applier he hn).bind fun outcome v hv _ => ?_
      split
      · exact ih hv.seals (hes.mono hv.size_le) (hv.forest.all_mono hns)
      · exact keeps_giveUp hv.seals es fun _ => trivial

omit hr in
/-- A copy of a template is new, and so are the nodes at its holes. -/
theorem keeps_instantiate (hw : w.Sealed S) (t : Template) :
    Keeps S w (instantiate t) fun copy v => ∀ root ns, copy = .ok (root, ns) →
      v.forest.Open S root ∧ ∀ n ∈ ns, v.forest.Open S n := by
  obtain ⟨hplant, hroot⟩ := Forest.Avoids.plantFragment hw.forest t.content
  have hset := hw.setForest hplant
  intro copy v hcopy
  rw [instantiate] at hcopy
  dsimp only at hcopy
  generalize w.forest.plantFragment t.content = planted at hplant hroot hset hcopy
  obtain ⟨rfl, rfl⟩ := Prod.mk.inj (Option.some.inj hcopy)
  refine ⟨hset, fun root ns heq => ?_⟩
  cases hdescend : planted.2.descendAll planted.1 t.paths with
  | error fault =>
    rw [hdescend] at heq
    cases heq
  | ok ms =>
    rw [hdescend] at heq
    obtain ⟨rfl, rfl⟩ := Prod.mk.inj (Except.ok.inj heq)
    exact ⟨hroot, hplant.seals.descendAll hroot t.paths hdescend⟩

theorem keeps_fill (hw : w.Sealed S) (t : Template) (applier : Option Applier)
    (hes : Expression.OpenAll w.forest S es) :
    Keeps S w (fill run t applier es) (RootOpen S) := by
  refine (keeps_instantiate hw t).bind fun copy v hv hcopy => ?_
  split
  · exact keeps_giveUp hv.seals es fun _ => .error
  · next root ns =>
    obtain ⟨hroot, hns⟩ := hcopy root ns rfl
    split_ifs
    · refine (keeps_holding hv.seals (keeps_applyEach hr applier (hv.seals.holding _)
        (hes.mono hv.size_le) hns)).bind fun outcome u hu _ => ?_
      split
      · exact .pure hu.seals (.ok (hu.open_mono hroot))
      · exact .pure hu.seals .error
    · exact keeps_giveUp hv.seals es fun _ => .error

omit hr in
theorem keeps_fetch (hw : w.Sealed S) {s : ℕ} (hs : s < w.templates.cache.strings.size) :
    Keeps S w (fetch s) Anything :=
  .of_eq rfl (hw.setTemplates (hw.templates.fetch hs)) trivial

theorem keeps_renderStrings (hw : w.Sealed S) {s : ℕ} (hs : s < w.templates.cache.strings.size)
    (applier : Option Applier) (hes : Expression.OpenAll w.forest S es) :
    Keeps S w (renderStrings run s applier es) (RootOpen S) := by
  refine (keeps_fetch hw hs).bind fun fetched v hv _ => ?_
  split
  · exact keeps_giveUp hv.seals es fun _ => .error
  · exact keeps_fill hr hv.seals _ applier (hes.mono hv.size_le)

theorem keeps_renderSegments (hw : w.Sealed S) (segments : List String)
    (hes : Expression.OpenAll w.forest S es) :
    Keeps S w (renderSegments run segments es) (RootOpen S) := by
  have hadd := hw.setTemplates (hw.templates.addStrings segments true)
  refine .get_bind (.set_bind hadd ?_)
  refine (keeps_renderStrings hr hadd.seals ?_ none hes).bind fun rendered v hv hroot => ?_
  · simp [Templates.addStrings, TemplateCache.addStrings]
  · have hdrop := hv.seals.setTemplates (t := { v.templates with
      cache := v.templates.cache.dropStrings w.templates.cache.strings.size })
      (hv.seals.templates.setCache (hv.seals.templates.cache.dropStrings _) (.dropStrings _ _))
    exact .modify_bind hdrop (.pure hdrop.seals hroot)

/-! ### Building values -/

theorem keeps_buildAll (hw : w.Sealed S) (specs : List Spec) :
    Keeps S w (buildAll run specs) fun es v => Expression.OpenAll v.forest S es := by
  induction specs generalizing w with
  | nil => exact .pure hw Expression.openAll_nil
  | cons spec specs ih =>
    refine (hr (.build spec) hw trivial).bind fun e v hv he => ?_
    refine (ih hv.seals).bind fun es u hu hes => .pure hu.seals ?_
    exact Expression.openAll_cons.2 ⟨he.mono hu.size_le, hes⟩

theorem keeps_build (hw : w.Sealed S) (spec : Spec) :
    Keeps S w (build run spec) fun e v => e.Open v.forest S := by
  cases spec with
  | empty => exact .pure hw (.of_none rfl)
  | text s => exact .pure hw (.of_none rfl)
  | integer kind width i =>
    refine .pure hw ?_
    unfold Expression.ofInteger
    split_ifs <;> exact .of_none rfl
  | single bits => exact .pure hw (.of_none rfl)
  | double x => exact .pure hw (.of_none rfl)
  | list items => exact (keeps_buildAll hr hw items).bind fun es v hv hes => .pure hv.seals hes
  | node name =>
    refine .get_bind ?_
    split
    · next n hn =>
      exact .pure hw fun k hk => List.mem_singleton.1 hk ▸ hw.page.nodes.get? hn
    · exact .pure hw (.of_none rfl)
  | element tag =>
    exact (keeps_create hw _ _).bind fun n v hv hn =>
      .pure hv.seals fun k hk => List.mem_singleton.1 hk ▸ hn
  | attrNode name value =>
    exact (keeps_create hw _ _).bind fun n v hv hn =>
      .pure hv.seals fun k hk => List.mem_singleton.1 hk ▸ hn
  | markup segments values =>
    refine (keeps_buildAll hr hw values).bind fun es v hv hes => ?_
    refine (keeps_renderSegments hr hv.seals segments hes).bind fun rendered u hu hroot => ?_
    split
    · exact .pure hu.seals fun k hk => List.mem_singleton.1 hk ▸ hroot _ rfl
    · exact .pure hu.seals (.of_none rfl)
  | error reason => exact .pure hw (.of_none rfl)
  | capability name value => exact .pure hw (.of_none rfl)
  | function as commands result => exact .pure hw (.of_none rfl)
  | setAttr name value => exact .pure hw (.of_none rfl)
  | listen event h once =>
    refine (keeps_handler hw h).then_ fun routine v hv => ?_
    split <;> exact .pure hv (.of_none rfl)
  | capture slot => exact .pure hw (.of_none rfl)
  | live value => exact .pure hw (.of_none rfl)
  | deferred value => exact .pure hw (.of_none rfl)
  | received name =>
    intro e u hu
    have htake := hw.setTasks (w.tasks.programs_take (.channel name))
    rw [build] at hu
    dsimp only at hu
    split at hu
    · next c t heq =>
      obtain ⟨rfl, rfl⟩ := Prod.mk.inj (Option.some.inj hu)
      rw [heq] at htake
      exact ⟨htake, .of_none rfl⟩
    · next r t _ heq =>
      obtain ⟨rfl, rfl⟩ := Prod.mk.inj (Option.some.inj hu)
      rw [heq] at htake
      exact ⟨htake, .of_none rfl⟩
  | signal name mode =>
    refine (keeps_readSignal hw name mode).then_ fun value v hv => ?_
    split
    · next x => cases x <;> exact .pure hv (.of_none rfl)
    · exact .pure hv (.of_none rfl)
  | untracked value =>
    exact keeps_observing hw (hr (.build value) (hw.modifyReactive _).seals trivial) id
  | log message value =>
    exact (keeps_note hw _).then_ fun _ v hv => hr (.build value) hv trivial
  | choose name value same other =>
    refine (keeps_readSignal hw name .tracked).then_ fun value v hv => ?_
    split
    · exact hr (.build _) hv trivial
    · exact .pure hv (.of_none rfl)
  | concat parts =>
    exact (keeps_buildAll hr hw parts).then_ fun es v hv => .pure hv (.of_none rfl)

/-! ### Mounting -/

theorem keeps_mountAt (hw : w.Sealed S) (m : Mount) (hm : w.forest.Open S m.container)
    (he : e.Open w.forest S) (cls : Option String) :
    Keeps S w (mountAt run m e cls) Anything := by
  have htake := Forest.Avoids.takeChildren hw.forest hm.not_mem
  have hclass : World.Avoids S w (w.setForest ((w.forest.takeChildren m.container).2.setClassName
      m.container (cls.getD m.defaultClass)).2) :=
    hw.setForest (htake.trans (.setAttr htake.seals (htake.open_mono hm) _ _))
  intro a u hu
  rw [mountAt] at hu
  dsimp only at hu
  split at hu
  · next fault f hset =>
    rw [hset] at hclass
    exact (keeps_giveUp hclass.seals [e] (fun _ => trivial) a u hu).imp_left hclass.trans
  · next f hset =>
    rw [hset] at hclass
    have hf : f.Sealed S := hclass.seals.forest
    have hnew := Forest.Avoids.create hf .comment ""
    have hplace := Forest.Avoids.open_create hf .comment ""
    have hin : (f.create .comment "").2.Open S m.container :=
      hnew.open_mono (hclass.open_mono hm)
    have hadd := Forest.Avoids.append hnew.seals hin hplace
    change Forest.Avoids S _ ((f.create .comment "").2.append m.container
      (f.create .comment "").1).2 at hadd
    have hshown := hadd.open_mono hplace
    split at hu
    · next fault g heq =>
      rw [heq] at hadd
      have hg := hclass.trans (hclass.seals.setForest (hnew.trans hadd))
      exact (keeps_giveUp hg.seals [e] (fun _ => trivial) a u hu).imp_left hg.trans
    · next g heq =>
      rw [heq] at hadd hshown
      have hg := hclass.trans (hclass.seals.setForest (hnew.trans hadd))
      have hshow := hr (.apply e f.size) (hg.seals.holding (f.size :: m.container :: e.heldNodes))
        ⟨he.mono hg.size_le, hshown⟩
      exact (keeps_holding hg.seals hshow a u hu).imp_left hg.trans

end LiveMarkup.Run
