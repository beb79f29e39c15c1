import LiveMarkup.Proofs.Forest.Holdings

/-!
# Attributes as ordered maps

The attributes of an element are nodes that it owns, and these move in and out of elements.  What
can be read of them is nevertheless no more than a map for each element that keeps the order of
insertion, with names in small letters: the operations on attributes come to the writes and the
erasures of `Holdings.step`, answer for answer (`Sound.map_perform`), and so does every sequence of
them after any history of the forest (`attributesAreMaps`).  Whatever is refused changes nothing,
and once an element has given up an attribute node, writes to the node reach no element unless it is
given to one again.
-/

namespace LiveMarkup

/-! ### What is done with attributes -/

/-- An operation on attributes, or a new node to apply them to. -/
inductive AttributeStep where
  | element (tag : String)
  | attr (name value : String)
  | set (e : NodeId) (name value : String)
  | erase (e : NodeId) (name : String)
  | setNode (e a : NodeId)
  | eraseNode (e a : NodeId)
  | remove (a : NodeId)
  | write (a : NodeId) (value : String)

namespace AttributeStep

/-- The outcome of an operation, with the node that it answers, if any. -/
def perform (f : Forest) : AttributeStep → Edit (Option NodeId)
  | element tag => (.ok (some f.size), (f.create (.element tag.toLower) "").2)
  | attr name value => (.ok (some f.size), (f.create (.attr name.toLower) value).2)
  | set e name value => ((f.setAttr e name value).1.map fun _ => none, (f.setAttr e name value).2)
  | erase e name => f.removeAttr e name
  | setNode e a => f.setAttrNode e a
  | eraseNode e a => ((f.removeAttrNode e a).1.map fun _ => none, (f.removeAttrNode e a).2)
  | remove a => (.ok none, f.remove a)
  | write a value => ((f.setValue a value).1.map fun _ => none, (f.setValue a value).2)

/-- Whether an operation that has the given answer takes an attribute node away from its element. -/
def GivesUp (a : NodeId) (answer : Except Fault (Option NodeId)) : AttributeStep → Prop
  | erase _ _ | setNode _ _ => answer = .ok (some a)
  | eraseNode _ b => b = a ∧ answer = .ok none
  | remove b => b = a
  | element _ | attr _ _ | set _ _ _ | write _ _ => False

/-- Whether an operation that has the given answer gives an attribute node to an element. -/
def Attaches (a : NodeId) (answer : Except Fault (Option NodeId)) : AttributeStep → Prop
  | setNode _ b => b = a ∧ ∃ old, answer = .ok old
  | _ => False

/-- What is refused leaves the forest as it is. -/
theorem snd_perform_of_error {f : Forest} {s : AttributeStep} {fault : Fault}
    (h : (s.perform f).1 = .error fault) : (s.perform f).2 = f := by
  cases s with
  | element _ | attr _ _ | remove _ => cases h
  | set e name value =>
    simp only [perform, Forest.setAttr] at h ⊢
    split at h
    · rfl
    · split at h <;> cases h
  | erase e name =>
    simp only [perform, Forest.removeAttr] at h ⊢
    split at h
    · rfl
    · split at h <;> cases h
  | setNode e a =>
    simp only [perform, Forest.setAttrNode] at h ⊢
    split at h
    · rfl
    · split_ifs at h ⊢
      · rfl
      · split at h
        · split_ifs at h ⊢
          rfl
        · split at h <;> cases h
  | eraseNode e a =>
    simp only [perform, Forest.removeAttrNode] at h ⊢
    split_ifs at h ⊢
    · cases h
    · rfl
  | write a value =>
    simp only [perform, Forest.setValue, Forest.setData] at h ⊢
    split_ifs at h ⊢
    · split at h
      case h_4 => rfl
      all_goals cases h
    · rfl

end AttributeStep

/-! ### The same on maps -/

namespace Holdings

/-- What the operations do where an element is no more than a map. -/
def step (h : Holdings) : AttributeStep → Except Fault (Option NodeId) × Holdings
  | .element tag => (.ok (some h.size), h.new (.element tag.toLower) "")
  | .attr name value => (.ok (some h.size), h.new (.attr name.toLower) value)
  | .set e name value =>
    if (h.kind e).isElement then
      match (h.entries e).get? name.toLower with
      | some _ => (.ok none, h.put e name.toLower value)
      | none =>
        (.ok none, ((h.new (.attr name.toLower) value).put e name.toLower value).stand h.size
          (.entryOf e))
    else (.error (.wrongKind .element (h.kind e)), h)
  | .erase e name =>
    if (h.kind e).isElement then
      match h.holder e name.toLower with
      | some a => (.ok (some a), h.takeOut e a)
      | none => (.ok none, h)
    else (.error (.wrongKind .element (h.kind e)), h)
  | .setNode e a =>
    if !(h.kind e).isElement then (.error (.wrongKind .element (h.kind e)), h)
    else if !(h.kind a).isAttr then (.error (.wrongKind .attr (h.kind a)), h)
    else
      match h.standing a with
      | .entryOf o => if o = e then (.ok none, h) else (.error .attrInUse, h)
      | .alone value =>
        match h.holder e (h.nameOf a) with
        | some old =>
          (.ok (some old), ((h.release old).put e (h.nameOf a) value).stand a (.entryOf e))
        | none => (.ok none, (h.put e (h.nameOf a) value).stand a (.entryOf e))
  | .eraseNode e a =>
    if h.standing a = .entryOf e then (.ok none, h.takeOut e a)
    else (.error (.notOwned (h.nameOf a)), h)
  | .remove a =>
    match h.standing a with
    | .entryOf e => (.ok none, h.takeOut e a)
    | .alone _ => (.ok none, h)
  | .write a value =>
    if (h.kind a).isAttr then
      match h.standing a with
      | .entryOf e => (.ok none, h.put e (h.nameOf a) value)
      | .alone _ => (.ok none, h.stand a (.alone value))
    else (.error (.wrongKind .attr (h.kind a)), h)

end Holdings

namespace Forest.Sound

variable {f : Forest} (hf : f.Sound)

include hf

/-! ### One operation -/

theorem map_perform_set (e : NodeId) (name value : String) :
    ((AttributeStep.set e name value).perform f).map id holdings =
      f.holdings.step (.set e name value) := by
  simp only [AttributeStep.perform, Holdings.step, Forest.setAttr, requireElement]
  rw [kind_holdings]
  by_cases he : (f.kind e).isElement = true
  · rw [if_pos he, if_pos he, get?_entries, attrValue]
    cases hnode : f.attrNode e name with
    | none =>
      have hplant := hf.holdings_plantAttr (lt_size_of_isElement he)
        (ne_of_attrNode_eq_none hnode) value
      exact congrArg (Prod.mk _) hplant
    | some a =>
      obtain ⟨ha, hname⟩ := of_attrNode_eq_some hnode
      have hwrite := hf.holdings_writeData_owned (hf.mem_attributes_iff.1 ha) value
      rw [hname] at hwrite
      exact congrArg (Prod.mk _) hwrite
  · rw [if_neg he, if_neg he]
    rfl

theorem map_perform_erase (e : NodeId) (name : String) :
    ((AttributeStep.erase e name).perform f).map id holdings =
      f.holdings.step (.erase e name) := by
  simp only [AttributeStep.perform, Holdings.step, Forest.removeAttr, requireElement]
  rw [kind_holdings]
  by_cases he : (f.kind e).isElement = true
  · rw [if_pos he, if_pos he, hf.holder_holdings]
    cases hnode : f.attrNode e name with
    | none => rfl
    | some a =>
      have ha := (of_attrNode_eq_some hnode).1
      exact congrArg (Prod.mk _) (hf.holdings_remove (hf.mem_attributes_iff.1 ha))
  · rw [if_neg he, if_neg he]
    rfl

theorem map_perform_setNode (e a : NodeId) :
    ((AttributeStep.setNode e a).perform f).map id holdings =
      f.holdings.step (.setNode e a) := by
  simp only [AttributeStep.perform, Holdings.step, Forest.setAttrNode, requireElement]
  rw [kind_holdings]
  cases he : (f.kind e).isElement with
  | false => rfl
  | true =>
    cases ha : (f.kind a).isAttr with
    | false => rfl
    | true =>
      simp only [if_true, Bool.not_true, Bool.false_eq_true, if_false]
      cases ho : f.owner a with
      | some o =>
        rw [standing_holdings_iff.2 ho]
        simp only
        split_ifs <;> rfl
      | none =>
        have hsmall : (f.kind a).attrName.toLower = (f.kind a).attrName := hf.isSmall_attrName a
        have hholder : f.holdings.holder e (f.holdings.nameOf a) =
            f.attrNode e (f.kind a).attrName := by
          rw [← hf.holder_holdings, hsmall]
          rfl
        rw [standing_of_owner_eq_none ho]
        simp only
        rw [hholder]
        cases hnode : f.attrNode e (f.kind a).attrName with
        | none =>
          have hname := ne_of_attrNode_eq_none hnode
          rw [hsmall] at hname
          exact congrArg (Prod.mk _) (holdings_addAttrNode (lt_size_of_isElement he) ha hname)
        | some old =>
          obtain ⟨hold, hname⟩ := of_attrNode_eq_some hnode
          rw [hsmall] at hname
          exact congrArg (Prod.mk _)
            (hf.holdings_replaceAttrNode ha (hf.mem_attributes_iff.1 hold) hname)

theorem map_perform_eraseNode (e a : NodeId) :
    ((AttributeStep.eraseNode e a).perform f).map id holdings =
      f.holdings.step (.eraseNode e a) := by
  simp only [AttributeStep.perform, Holdings.step, Forest.removeAttrNode, standing_holdings_iff]
  by_cases ho : f.owner a = some e
  · rw [if_pos ho, if_pos ho]
    exact congrArg (Prod.mk _) (hf.holdings_remove ho)
  · rw [if_neg ho, if_neg ho]
    rfl

theorem map_perform_remove (a : NodeId) :
    ((AttributeStep.remove a).perform f).map id holdings = f.holdings.step (.remove a) := by
  simp only [AttributeStep.perform, Holdings.step]
  cases ho : f.owner a with
  | some e =>
    rw [standing_holdings_iff.2 ho]
    exact congrArg (Prod.mk _) (hf.holdings_remove ho)
  | none =>
    rw [standing_of_owner_eq_none ho]
    exact congrArg (Prod.mk _) (holdings_remove_alone ho)

theorem map_perform_write (a : NodeId) (value : String) :
    ((AttributeStep.write a value).perform f).map id holdings =
      f.holdings.step (.write a value) := by
  simp only [AttributeStep.perform, Holdings.step, Forest.setValue]
  rw [kind_holdings]
  by_cases ha : (f.kind a).isAttr = true
  swap
  · rw [if_neg ha, if_neg ha]
    rfl
  have hset : f.setData a value = (.ok (), f.writeData a fun _ => value) := by
    rw [Forest.setData]
    cases hk : f.kind a <;> simp_all [Kind.isAttr]
  rw [if_pos ha, if_pos ha, hset]
  cases ho : f.owner a with
  | some e =>
    rw [standing_holdings_iff.2 ho]
    exact congrArg (Prod.mk _) (hf.holdings_writeData_owned ho value)
  | none =>
    rw [standing_of_owner_eq_none ho]
    exact congrArg (Prod.mk _) (hf.holdings_writeData_alone (lt_size_of_isAttr ha) ho value)

/-- Every operation on attributes does to the maps what it does where there is nothing else, and
answers the same. -/
theorem map_perform (s : AttributeStep) :
    (s.perform f).map id holdings = f.holdings.step s := by
  cases s with
  | element tag => exact congrArg (Prod.mk _) (hf.holdings_create _ _)
  | attr name value => exact congrArg (Prod.mk _) (hf.holdings_create _ _)
  | set e name value => exact hf.map_perform_set e name value
  | erase e name => exact hf.map_perform_erase e name
  | setNode e a => exact hf.map_perform_setNode e a
  | eraseNode e a => exact hf.map_perform_eraseNode e a
  | remove a => exact hf.map_perform_remove a
  | write a value => exact hf.map_perform_write a value

theorem fst_perform (s : AttributeStep) : (s.perform f).1 = (f.holdings.step s).1 :=
  congrArg Prod.fst (hf.map_perform s)

theorem holdings_perform (s : AttributeStep) :
    (s.perform f).2.holdings = (f.holdings.step s).2 :=
  congrArg Prod.snd (hf.map_perform s)

theorem attributeStep (s : AttributeStep) : (s.perform f).2.Sound := by
  cases s with
  | element tag => exact hf.create _ _ isSmall_empty
  | attr name value => exact hf.create _ _ (isSmall_toLower name)
  | set e name value => exact hf.setAttr e name value
  | erase e name => exact hf.removeAttr e name
  | setNode e a => exact hf.setAttrNode e a
  | eraseNode e a => exact hf.removeAttrNode e a
  | remove a => exact hf.remove a
  | write a value => exact hf.setValue a value

end Forest.Sound

/-! ### Sequences of operations -/

/-- The forest after a sequence of operations on attributes. -/
def Forest.performSteps (f : Forest) (steps : List AttributeStep) : Forest :=
  steps.foldl (fun f s => (s.perform f).2) f

/-- The maps after a sequence of operations. -/
def Holdings.after (h : Holdings) (steps : List AttributeStep) : Holdings :=
  steps.foldl (fun h s => (h.step s).2) h

namespace Forest.Sound

variable {f : Forest}

theorem performSteps (hf : f.Sound) (steps : List AttributeStep) :
    (f.performSteps steps).Sound := by
  induction steps generalizing f with
  | nil => exact hf
  | cons s steps ih => exact ih (hf.attributeStep s)

theorem holdings_performSteps (hf : f.Sound) (steps : List AttributeStep) :
    (f.performSteps steps).holdings = f.holdings.after steps := by
  induction steps generalizing f with
  | nil => rfl
  | cons s steps ih =>
    have hrest := ih (hf.attributeStep s)
    rw [hf.holdings_perform] at hrest
    exact hrest

end Forest.Sound

/-! ### Attribute nodes that were given up -/

namespace Holdings

variable {h : Holdings} {a b e : NodeId}

theorem snd_step_setNode_of_error {fault : Fault}
    (hfault : (h.step (.setNode e a)).1 = .error fault) : (h.step (.setNode e a)).2 = h := by
  simp only [step] at hfault ⊢
  split_ifs at hfault ⊢
  · rfl
  · rfl
  · split at hfault
    · split_ifs at hfault ⊢
      rfl
    · split at hfault <;> cases hfault

theorem standing_of_holder_eq_some {name : String} (hb : h.holder e name = some b) :
    h.standing b = .entryOf e := by
  have hspec := List.find?_some hb
  exact (of_decide_eq_true hspec).1

/-- A node that is there and stands for no entry. -/
structure Free (h : Holdings) (a : NodeId) : Prop where
  lt_size : a < h.size
  ne_entryOf (e : NodeId) : h.standing a ≠ .entryOf e

namespace Free

theorem put (ha : h.Free a) (e : NodeId) (name value : String) : (h.put e name value).Free a :=
  ⟨ha.lt_size, ha.ne_entryOf⟩

theorem stand (ha : h.Free a) {s : Standing} (hb : a = b → ∀ e, s ≠ .entryOf e) :
    (h.stand b s).Free a := by
  refine ⟨ha.lt_size, fun e => ?_⟩
  rw [standing_stand]
  split_ifs with hab
  · exact hb hab e
  · exact ha.ne_entryOf e

theorem release (ha : h.Free a) (b : NodeId) : (h.release b).Free a :=
  ha.stand fun _ _ hs => by cases hs

theorem takeOut (ha : h.Free a) (e b : NodeId) : (h.takeOut e b).Free a :=
  ⟨(ha.release b).lt_size, (ha.release b).ne_entryOf⟩

theorem new (ha : h.Free a) (k : Kind) (value : String) : (h.new k value).Free a := by
  refine ⟨Nat.lt_succ_of_lt ha.lt_size, fun e => ?_⟩
  rw [standing_new, if_neg (Nat.ne_of_lt ha.lt_size)]
  exact ha.ne_entryOf e

/-- Only by being given to an element does a node come to stand for an entry. -/
theorem step (ha : h.Free a) {s : AttributeStep} (hs : ¬ s.Attaches a (h.step s).1) :
    (h.step s).2.Free a := by
  cases s with
  | element tag | attr name value => exact ha.new _ _
  | set e name value =>
    rw [Holdings.step]
    split_ifs
    · split
      · exact ha.put _ _ _
      · exact ((ha.new _ _).put _ _ _).stand fun hlast => absurd hlast (Nat.ne_of_lt ha.lt_size)
    · exact ha
  | erase e name =>
    rw [Holdings.step]
    split_ifs
    · split
      · exact ha.takeOut _ _
      · exact ha
    · exact ha
  | setNode e b =>
    by_cases hab : a = b
    · subst hab
      cases hanswer : (h.step (.setNode e a)).1 with
      | ok old => exact absurd ⟨rfl, old, hanswer⟩ hs
      | error fault =>
        rw [snd_step_setNode_of_error hanswer]
        exact ha
    · rw [Holdings.step]
      split_ifs
      · exact ha
      · exact ha
      · split
        · split_ifs <;> exact ha
        · split
          · exact ((ha.release _).put _ _ _).stand fun h => absurd h hab
          · exact (ha.put _ _ _).stand fun h => absurd h hab
  | eraseNode e b =>
    rw [Holdings.step]
    split_ifs
    · exact ha.takeOut _ _
    · exact ha
  | remove b =>
    rw [Holdings.step]
    split
    · exact ha.takeOut _ _
    · exact ha
  | write b value =>
    rw [Holdings.step]
    split_ifs
    · split
      · exact ha.put _ _ _
      · exact ha.stand fun _ _ hs => by cases hs
    · exact ha

theorem of_release (ha : a < h.size) : (h.release a).Free a := by
  refine ⟨ha, fun e hs => ?_⟩
  rw [Holdings.release, standing_stand, if_pos rfl] at hs
  cases hs

theorem of_takeOut (ha : a < h.size) (e : NodeId) : (h.takeOut e a).Free a :=
  ⟨ha, (of_release ha).ne_entryOf⟩

/-- What an element has given up stands for no entry. -/
theorem of_givesUp (ha : a < h.size) {s : AttributeStep} (hs : s.GivesUp a (h.step s).1) :
    (h.step s).2.Free a := by
  cases s with
  | element _ | attr _ _ | set _ _ _ | write _ _ => exact hs.elim
  | erase e name =>
    simp only [AttributeStep.GivesUp, Holdings.step] at hs ⊢
    split_ifs at hs ⊢
    split at hs
    · cases hs
      exact of_takeOut ha e
    · cases hs
  | setNode e b =>
    simp only [AttributeStep.GivesUp, Holdings.step] at hs ⊢
    split_ifs at hs ⊢
    split at hs
    · split_ifs at hs
      cases hs
    · next value halone =>
      split at hs
      · next old hold =>
        cases hs
        -- The node that is given back was an entry, the one that takes its place was not.
        have hab : a ≠ b := fun hab => by
          rw [← hab, standing_of_holder_eq_some hold] at halone
          cases halone
        exact ((of_release ha).put _ _ _).stand fun h => absurd h hab
      · cases hs
  | eraseNode e b =>
    obtain ⟨rfl, hanswer⟩ := hs
    simp only [Holdings.step] at hanswer ⊢
    split_ifs at hanswer ⊢
    exact of_takeOut ha e
  | remove b =>
    obtain rfl : b = a := hs
    rw [Holdings.step]
    split
    · exact of_takeOut ha _
    · next value halone => exact ⟨ha, fun e he => by rw [he] at halone; cases halone⟩

/-- Writes to a node that stands for no entry reach no map. -/
theorem entries_write (ha : h.Free a) (value : String) :
    (h.step (.write a value)).2.entries = h.entries := by
  rw [Holdings.step]
  split_ifs
  · split
    · next e hs => exact absurd hs (ha.ne_entryOf e)
    · rfl
  · rfl

end Free

end Holdings

/-- Whether a node is given to an element in the course of a sequence of operations. -/
def Forest.Attached (f : Forest) (a : NodeId) : List AttributeStep → Prop
  | [] => False
  | s :: steps => s.Attaches a (s.perform f).1 ∨ (s.perform f).2.Attached a steps

namespace Forest

variable {f : Forest} {a : NodeId}

theorem Sound.free_performSteps (hf : f.Sound) (ha : f.holdings.Free a) {steps : List AttributeStep}
    (hsteps : ¬ f.Attached a steps) : (f.performSteps steps).holdings.Free a := by
  induction steps generalizing f with
  | nil => exact ha
  | cons s steps ih =>
    obtain ⟨hs, hsteps⟩ := not_or.1 hsteps
    rw [hf.fst_perform] at hs
    refine ih (hf.attributeStep s) ?_ hsteps
    rw [hf.holdings_perform]
    exact ha.step hs

/-- Writes to an attribute node that an element has given up reach no element. -/
theorem Sound.attributes_write_of_givesUp (hf : f.Sound) (ha : (f.kind a).isAttr = true)
    {s : AttributeStep} (hs : s.GivesUp a (s.perform f).1) {steps : List AttributeStep}
    (hsteps : ¬ (s.perform f).2.Attached a steps) (value : String) :
    (((s.perform f).2.performSteps steps).setValue a value).2.holdings.entries =
      ((s.perform f).2.performSteps steps).holdings.entries := by
  rw [hf.fst_perform] at hs
  have hfree : (s.perform f).2.holdings.Free a := by
    rw [hf.holdings_perform]
    exact Holdings.Free.of_givesUp (lt_size_of_isAttr ha) hs
  have hlater := (hf.attributeStep s).free_performSteps hfree hsteps
  have hwrite := ((hf.attributeStep s).performSteps steps).holdings_perform (.write a value)
  exact (congrArg Holdings.entries hwrite).trans (hlater.entries_write value)

/-- The attributes of a forest, after a sequence of operations, are maps in the order of
insertion. -/
structure AttributesAreMaps (f : Forest) (steps : List AttributeStep) : Prop where
  /-- What can be read of an element is what a map would hold. -/
  entries (e : NodeId) : ((f.performSteps steps).attributes e).map (f.performSteps steps).attrAt =
    (f.holdings.after steps).entries e
  /-- No name is there twice, and all are in small letters. -/
  names (e : NodeId) : (((f.holdings.after steps).entries e).map Attribute.name).Nodup ∧
    ∀ entry ∈ (f.holdings.after steps).entries e, entry.name.toLower = entry.name
  /-- A value is found under its name in any case. -/
  value (e : NodeId) (name : String) : (f.performSteps steps).attrValue e name =
    ((f.holdings.after steps).entries e).get? name.toLower
  /-- An attribute node shows the entry that it stands for, or else its own value. -/
  node (a : NodeId) : (f.performSteps steps).data a = (f.holdings.after steps).valueOf a
  /-- The next operation answers what it answers on maps. -/
  answer (s : AttributeStep) : (s.perform (f.performSteps steps)).1 =
    ((f.holdings.after steps).step s).1
  /-- If it is refused, nothing changes. -/
  refused {s : AttributeStep} {fault : Fault} :
    (s.perform (f.performSteps steps)).1 = .error fault →
      (s.perform (f.performSteps steps)).2 = f.performSteps steps
  /-- If it takes an attribute node away from its element, then writes to the node reach no element,
  until it is given to one again. -/
  given_up {s : AttributeStep} {a : NodeId} {later : List AttributeStep} :
    let g := (s.perform (f.performSteps steps)).2
    ((f.performSteps steps).kind a).isAttr = true →
      s.GivesUp a (s.perform (f.performSteps steps)).1 → ¬ g.Attached a later →
      ∀ (value : String) (e : NodeId),
        ((((g.performSteps later).setValue a value).2).attributes e).map
          ((g.performSteps later).setValue a value).2.attrAt =
        ((g.performSteps later).attributes e).map (g.performSteps later).attrAt

/-- Whatever has happened to a forest, every sequence of operations on attributes leaves maps in the
order of insertion. -/
theorem attributesAreMaps {before : List Operation} (hbefore : Forest.empty.admits before = true)
    (steps : List AttributeStep) : (Forest.empty.performAll before).AttributesAreMaps steps := by
  have hf := Sound.empty.performAll hbefore
  have hg := hf.performSteps steps
  have hmaps := hf.holdings_performSteps steps
  refine ⟨fun e => ?_, fun e => ?_, fun e name => ?_, fun a => ?_, fun s => ?_,
    AttributeStep.snd_perform_of_error, fun ha hs hlater value e => ?_⟩
  · rw [← hmaps]
    rfl
  · rw [← hmaps]
    exact (hg.named_attrAt e).symm
  · rw [← hmaps, get?_entries]
  · rw [← hmaps, hg.valueOf_holdings]
  · rw [← hmaps, hg.fst_perform]
  · exact congrFun (hg.attributes_write_of_givesUp ha hs hlater value) e

/-- Two links. -/
def twoLinks : List Operation := [.element "a", .element "a"]

/-- A link gets an attribute, and another one of its name in its place; the first is written to in
vain, and the other link does not get the second. -/
def renewed : List AttributeStep :=
  [.set 0 "A" "x", .attr "a" "y", .setNode 0 3, .write 2 "z", .setNode 1 3]

theorem attributesAreMaps_renewed :
    Forest.empty.admits twoLinks = true ∧
      (Forest.empty.performAll twoLinks).AttributesAreMaps renewed ∧
      ((Forest.empty.performAll twoLinks).holdings.after renewed).entries 0 = [⟨"a", "y"⟩] := by
  have hbefore : Forest.empty.admits twoLinks = true := by decide +kernel
  refine ⟨hbefore, attributesAreMaps hbefore renewed, ?_⟩
  decide +kernel

end Forest

end LiveMarkup
