import LiveMarkup.Proofs.Forest.History

/-!
# What attribute nodes stand for

A `NameMap` keeps its entries in the order in which the names came in: writing a name that is there
changes its value in place, a new name goes last, and erasing a name takes out its entry.  A list of
things with a name and a value each is such a map if no two of the names are the same
(`NameMap.put_map`, `NameMap.erase_map`).

An attribute node of an element stands for the entry of its name in such a map, and any other one
for a value of its own.  Maps and standings together are the `Holdings` of a forest.  They change by
writes, erasures and nodes that come to stand for something else, and that is all that edits of
attribute nodes amount to: writing to one (`Sound.holdings_writeData_owned`), taking one away
(`Sound.holdings_remove`), adding one (`holdings_own`) and putting one in the place of another
(`Sound.holdings_replaceAttrNode`).
-/

namespace LiveMarkup

/-! ### Maps in the order of insertion -/

/-- Values under names, in the order in which the names came in. -/
abbrev NameMap := List Attribute

namespace NameMap

/-- Writes a value under a name: in place if the name is there, otherwise at the end. -/
def put (name value : String) : NameMap → NameMap
  | [] => [⟨name, value⟩]
  | entry :: m => if entry.name = name then ⟨name, value⟩ :: m else entry :: put name value m

/-- Takes out the entry of a name. -/
def erase (name : String) (m : NameMap) : NameMap := m.filter (·.name != name)

/-- The value under a name. -/
def get? (name : String) (m : NameMap) : Option String :=
  (m.find? (·.name == name)).map Attribute.value

/-- A new name goes last. -/
theorem put_of_ne {name : String} {m : NameMap} (hname : ∀ entry ∈ m, entry.name ≠ name)
    (value : String) : put name value m = m ++ [⟨name, value⟩] := by
  induction m with
  | nil => rfl
  | cons entry m ih =>
    rw [put, if_neg (hname entry List.mem_cons_self),
      ih fun other ho => hname other (List.mem_cons_of_mem _ ho)]
    rfl

section Map

variable {α : Type} [DecidableEq α] {l : List α} {a : α} (entry : α → Attribute)

/-- A name that is there keeps its place. -/
theorem put_map (hl : l.Nodup) (ha : a ∈ l)
    (hinj : ∀ b ∈ l, (entry b).name = (entry a).name → b = a) (value : String) :
    put (entry a).name value (l.map entry) =
      l.map fun b => if b = a then ⟨(entry a).name, value⟩ else entry b := by
  induction l with
  | nil => cases ha
  | cons b l ih =>
    obtain ⟨hb, hl⟩ := List.nodup_cons.1 hl
    rw [List.map_cons, List.map_cons, put]
    by_cases hba : b = a
    · subst hba
      rw [if_pos rfl, if_pos rfl]
      refine congrArg _ (List.map_congr_left fun c hc => ?_)
      rw [if_neg fun hcb : c = b => hb (hcb ▸ hc)]
    · have hne : (entry b).name ≠ (entry a).name := fun h => hba (hinj b List.mem_cons_self h)
      rw [if_neg hne, if_neg hba]
      have ha : a ∈ l := (List.mem_cons.1 ha).resolve_left (Ne.symm hba)
      exact congrArg _ (ih hl ha fun c hc => hinj c (List.mem_cons_of_mem _ hc))

theorem erase_map (hinj : ∀ b ∈ l, (entry b).name = (entry a).name → b = a) :
    erase (entry a).name (l.map entry) = (l.filter (· != a)).map entry := by
  rw [erase, List.filter_map]
  refine congrArg _ (List.filter_congr fun b hb => ?_)
  by_cases hba : b = a
  · simp [hba]
  · have hne : (entry b).name ≠ (entry a).name := fun h => hba (hinj b hb h)
    rw [Function.comp_apply, bne_iff_ne.2 hba, bne_iff_ne.2 hne]

omit [DecidableEq α] in
theorem get?_map (ha : a ∈ l) (hinj : ∀ b ∈ l, (entry b).name = (entry a).name → b = a) :
    get? (entry a).name (l.map entry) = some (entry a).value := by
  rw [get?, List.find?_map, Option.map_map]
  cases hfound : l.find? ((fun x : Attribute => x.name == (entry a).name) ∘ entry) with
  | none =>
    have hnot := List.find?_eq_none.1 hfound a ha
    simp at hnot
  | some b =>
    have hname := List.find?_some hfound
    rw [hinj b (List.mem_of_find?_eq_some hfound) (eq_of_beq hname)]
    rfl

end Map

end NameMap

/-! ### Maps beside nodes -/

/-- What an attribute node stands for: the entry of its name in the map of an element, or a value of
its own. -/
inductive Standing where
  | entryOf (e : NodeId)
  | alone (value : String)
  deriving DecidableEq

/-- The maps of elements, and what nodes stand for. -/
@[ext]
structure Holdings where
  /-- The number of the next node. -/
  size : ℕ
  kind : NodeId → Kind
  entries : NodeId → NameMap
  standing : NodeId → Standing

namespace Holdings

/-- The name of an attribute node. -/
def nameOf (h : Holdings) (a : NodeId) : String := (h.kind a).attrName

/-- The value that an attribute node shows. -/
def valueOf (h : Holdings) (a : NodeId) : String :=
  match h.standing a with
  | .entryOf e => ((h.entries e).get? (h.nameOf a)).getD ""
  | .alone value => value

/-- The attribute node that stands for an entry of an element. -/
def holder (h : Holdings) (e : NodeId) (name : String) : Option NodeId :=
  (List.range h.size).find? fun a => h.standing a = .entryOf e ∧ h.nameOf a = name

/-- Changes the map of an element. -/
def change (h : Holdings) (e : NodeId) (m : NameMap) : Holdings :=
  { h with entries := Function.update h.entries e m }

/-- Changes what a node stands for. -/
def stand (h : Holdings) (a : NodeId) (s : Standing) : Holdings :=
  { h with standing := Function.update h.standing a s }

theorem standing_stand (h : Holdings) (a b : NodeId) (s : Standing) :
    (h.stand a s).standing b = if b = a then s else h.standing b :=
  Function.update_apply h.standing a s b

/-- A new node, which stands for a value of its own. -/
def new (h : Holdings) (k : Kind) (value : String) : Holdings :=
  { h with
    size := h.size + 1
    kind := Function.update h.kind h.size k
    standing := Function.update h.standing h.size (.alone value) }

theorem standing_new (h : Holdings) (k : Kind) (value : String) (a : NodeId) :
    (h.new k value).standing a = if a = h.size then .alone value else h.standing a :=
  Function.update_apply h.standing h.size (.alone value) a

/-- A node keeps the value that it shows, and stands for no entry any more. -/
def release (h : Holdings) (a : NodeId) : Holdings := h.stand a (.alone (h.valueOf a))

/-- Writes a value into the map of an element. -/
def put (h : Holdings) (e : NodeId) (name value : String) : Holdings :=
  h.change e ((h.entries e).put name value)

/-- Takes the entry of an attribute node out of the map of an element. -/
def takeOut (h : Holdings) (e a : NodeId) : Holdings :=
  (h.release a).change e ((h.entries e).erase (h.nameOf a))

end Holdings

namespace Forest

variable {f : Forest} {a b e : NodeId}

/-- What the attributes of a forest amount to: for each element a map of names to values. -/
def holdings (f : Forest) : Holdings where
  size := f.size
  kind := f.kind
  entries e := (f.attributes e).map f.attrAt
  standing a :=
    match f.owner a with
    | some e => .entryOf e
    | none => .alone (f.data a)

theorem kind_holdings (f : Forest) : f.holdings.kind = f.kind := rfl

/-! ### Reading the maps -/

theorem standing_holdings_iff : f.holdings.standing a = .entryOf e ↔ f.owner a = some e := by
  cases ho : f.owner a <;> simp [holdings, ho]

theorem standing_of_owner_eq_none (ho : f.owner a = none) :
    f.holdings.standing a = .alone (f.data a) := by
  simp [holdings, ho]

/-- The value of an attribute is the one under its name in small letters. -/
theorem get?_entries (f : Forest) (e : NodeId) (name : String) :
    (f.holdings.entries e).get? name.toLower = f.attrValue e name := by
  rw [NameMap.get?, holdings, attrValue, attrNode, List.find?_map, Option.map_map]
  rfl

namespace Sound

variable (hf : f.Sound)

include hf

theorem eq_of_mem_attributes (ha : a ∈ f.attributes e) :
    ∀ b ∈ f.attributes e, (f.attrAt b).name = (f.attrAt a).name → b = a :=
  fun _ hb hname => hf.eq_of_attrName_eq (hf.mem_attributes_iff.1 hb) (hf.mem_attributes_iff.1 ha)
    hname

theorem valueOf_holdings (a : NodeId) : f.holdings.valueOf a = f.data a := by
  rw [Holdings.valueOf]
  cases ho : f.owner a with
  | none => rw [standing_of_owner_eq_none ho]
  | some e =>
    have ha : a ∈ f.attributes e := hf.mem_attributes_iff.2 ho
    rw [standing_holdings_iff.2 ho]
    exact congrArg (·.getD "") (NameMap.get?_map f.attrAt ha (hf.eq_of_mem_attributes ha))

theorem holder_holdings (e : NodeId) (name : String) :
    f.holdings.holder e name.toLower = f.attrNode e name := by
  have hspec : ∀ a, (f.holdings.standing a = .entryOf e ∧ f.holdings.nameOf a = name.toLower) ↔
      a ∈ f.attributes e ∧ (f.kind a).attrName = name.toLower := fun a => by
    rw [standing_holdings_iff, hf.mem_attributes_iff]
    rfl
  cases hnode : f.attrNode e name with
  | none =>
    refine List.find?_eq_none.2 fun a _ => ?_
    rw [decide_eq_true_iff, hspec]
    exact fun ⟨ha, hname⟩ => ne_of_attrNode_eq_none hnode a ha hname
  | some a =>
    obtain ⟨ha, hname⟩ := of_attrNode_eq_some hnode
    have hmem : a ∈ List.range f.size :=
      List.mem_range.2 (lt_size_of_owner (hf.mem_attributes_iff.1 ha))
    cases hfound : f.holdings.holder e name.toLower with
    | none =>
      have hnot := List.find?_eq_none.1 hfound a hmem
      rw [decide_eq_true_iff, hspec] at hnot
      exact absurd ⟨ha, hname⟩ hnot
    | some b =>
      have hb := List.find?_some hfound
      rw [decide_eq_true_iff, hspec] at hb
      rw [hf.eq_of_mem_attributes ha b hb.1 (hb.2.trans hname.symm)]

end Sound

/-! ### What the operations come to -/

/-- Where neither data nor kinds change, only the lists of attributes and the owners matter. -/
theorem holdings_of_links {g : Forest} {h : Holdings} (hs : g.size = f.size)
    (hk : ∀ m, g.kind m = f.kind m) (hd : ∀ m, g.data m = f.data m) (hsize : h.size = f.size)
    (hkind : h.kind = f.kind) (hentries : ∀ q, (g.attributes q).map f.attrAt = h.entries q)
    (hstanding : ∀ m, h.standing m = match g.owner m with
      | some e => .entryOf e
      | none => .alone (f.data m)) : g.holdings = h := by
  have hat : g.attrAt = f.attrAt := funext fun m => by rw [attrAt, attrAt, hk, hd]
  refine Holdings.ext (hs.trans hsize.symm) ((funext hk).trans hkind.symm)
    (funext fun q => ?_) (funext fun m => ?_)
  · rw [← hentries, ← hat]
    rfl
  · rw [hstanding, ← hd]
    rfl

theorem attrAt_writeData {value : String} (ha : a < f.size) :
    (f.writeData a fun _ => value).attrAt b =
      if b = a then ⟨(f.kind a).attrName, value⟩ else f.attrAt b := by
  simp only [attrAt, kind_writeData, data_writeData, ha, and_true]
  split_ifs with hb
  · rw [hb]
  · rfl

theorem standing_writeData {value : String} (ha : a < f.size) :
    (f.writeData a fun _ => value).holdings.standing b =
      if b = a ∧ f.owner a = none then .alone value else f.holdings.standing b := by
  have hown : (f.writeData a fun _ => value).owner b = f.owner b := owner_congr (by simp) (by simp)
  simp only [holdings, hown, data_writeData, ha, and_true]
  by_cases hb : b = a
  · subst hb
    cases f.owner b <;> simp
  · simp [hb]

namespace Sound

variable (hf : f.Sound)

include hf

/-- Writing to an attribute node writes to the map of its owner. -/
theorem holdings_writeData_owned (ho : f.owner a = some e) (value : String) :
    (f.writeData a fun _ => value).holdings = f.holdings.put e (f.kind a).attrName value := by
  have ha : a ∈ f.attributes e := hf.mem_attributes_iff.2 ho
  have hlt : a < f.size := lt_size_of_owner ho
  refine Holdings.ext (size_writeData f a _) (funext fun m => kind_writeData f m a _)
    (funext fun q => ?_) (funext fun b => ?_)
  · simp only [holdings, attributes_writeData, Holdings.put, Holdings.change]
    by_cases hq : q = e
    · subst hq
      rw [Function.update_self]
      refine Eq.trans (List.map_congr_left fun b _ => attrAt_writeData hlt) ?_
      exact (NameMap.put_map f.attrAt (hf.nodup_attributes q) ha
        (hf.eq_of_mem_attributes ha) value).symm
    · rw [Function.update_of_ne hq]
      refine List.map_congr_left fun b hb => ?_
      have hba : b ≠ a := fun hba => by
        rw [hba, hf.mem_attributes_iff, ho] at hb
        exact hq (Option.some.inj hb).symm
      rw [attrAt_writeData hlt, if_neg hba]
  · rw [standing_writeData hlt, ho, if_neg fun h => by cases h.2]
    rfl

/-- Writing to an attribute node without an owner reaches no map. -/
theorem holdings_writeData_alone (ha : a < f.size) (ho : f.owner a = none) (value : String) :
    (f.writeData a fun _ => value).holdings = f.holdings.stand a (.alone value) := by
  refine Holdings.ext (size_writeData f a _) (funext fun m => kind_writeData f m a _)
    (funext fun q => ?_) (funext fun b => ?_)
  · simp only [holdings, attributes_writeData, Holdings.stand]
    refine List.map_congr_left fun b hb => ?_
    rw [attrAt_writeData ha, if_neg fun hba : b = a => hf.not_mem_attributes ho q (hba ▸ hb)]
  · rw [standing_writeData ha]
    simp only [Holdings.stand, Function.update_apply, ho, and_true]

/-- Taking an attribute node away takes its entry out of the map of its owner. -/
theorem holdings_remove (ho : f.owner a = some e) :
    (f.remove a).holdings = f.holdings.takeOut e a := by
  have ha : a ∈ f.attributes e := hf.mem_attributes_iff.2 ho
  have hlt : e < f.size := lt_size_of_mem_attributes ha
  have hattr : (f.kind a).isAttr = true := isAttr_of_owner ho
  simp only [Forest.remove, ho]
  refine holdings_of_links (by simp) (by simp) (by simp) rfl rfl (fun q => ?_) (fun m => ?_)
  · simp only [attributes_setParent, attributes_setAttributes, hlt, and_true, Holdings.takeOut,
      Holdings.change, Holdings.release, Holdings.stand]
    by_cases hq : q = e
    · subst hq
      rw [if_pos rfl, Function.update_self]
      exact (NameMap.erase_map f.attrAt (hf.eq_of_mem_attributes ha)).symm
    · rw [if_neg hq, Function.update_of_ne hq]
      rfl
  · rw [owner_setParent_of_isAttr (by rwa [kind_setAttributes]), owner_setAttributes]
    simp only [Holdings.takeOut, Holdings.change, Holdings.release, Holdings.stand,
      hf.valueOf_holdings, Function.update_apply]
    split_ifs with hm
    · rw [hm]
    · rfl

omit hf in
theorem holdings_remove_alone (ho : f.owner a = none) : (f.remove a).holdings = f.holdings := by
  simp only [Forest.remove, ho]
  refine holdings_of_links (by simp) (by simp) (by simp) rfl rfl (fun q => ?_) (fun m => ?_)
  · rw [attributes_detach]
    rfl
  · rw [owner_detach]
    split_ifs with hm
    · rw [hm, standing_of_owner_eq_none ho]
    · rfl

/-- A new node is in no map. -/
theorem holdings_create (k : Kind) (s : String) :
    (f.create k s).2.holdings = f.holdings.new k s := by
  have hentries : ∀ q, (f.attributes q).map (f.create k s).2.attrAt =
      (f.attributes q).map f.attrAt := fun q => List.map_congr_left fun b hb => by
    have hb : b ≠ f.size := Nat.ne_of_lt (lt_size_of_owner (hf.mem_attributes_iff.1 hb))
    rw [attrAt, attrAt, kind_create, data_create, if_neg hb, if_neg hb]
  refine Holdings.ext (size_create f k s) (funext fun m => ?_) (funext fun q => ?_)
    (funext fun m => ?_)
  · simp only [holdings, kind_create, Holdings.new, Function.update_apply]
  · have hlist : (f.create k s).2.holdings.entries q =
        ((f.create k s).2.attributes q).map (f.create k s).2.attrAt := rfl
    rw [hlist, attributes_create]
    exact hentries q
  · have hown : f.owner f.size = none := by rw [owner_eq_link, link_of_size_le le_rfl, ite_self]
    simp only [holdings, owner_create, data_create, Holdings.new, Function.update_apply]
    split_ifs with hm
    · rw [hm, hown]
    · rfl

omit hf in
/-- An attribute node that goes last in an element goes last in its map. -/
theorem holdings_own {g : Forest}
    (hname : ∀ b ∈ f.attributes e, (f.kind b).attrName ≠ (f.kind a).attrName)
    (hs : g.size = f.size) (hk : ∀ m, g.kind m = f.kind m) (hd : ∀ m, g.data m = f.data m)
    (hown : ∀ m, g.owner m = if m = a then some e else f.owner m)
    (hattr : ∀ m, g.attributes m = if m = e then f.attributes e ++ [a] else f.attributes m) :
    g.holdings = (f.holdings.put e (f.kind a).attrName (f.data a)).stand a (.entryOf e) := by
  refine holdings_of_links hs hk hd rfl rfl (fun q => ?_) (fun m => ?_)
  · rw [hattr]
    simp only [Holdings.stand, Holdings.put, Holdings.change]
    by_cases hq : q = e
    · subst hq
      rw [if_pos rfl, Function.update_self, List.map_append]
      exact (NameMap.put_of_ne (List.forall_mem_map.2 hname) _).symm
    · rw [if_neg hq, Function.update_of_ne hq]
      rfl
  · rw [hown]
    simp only [Holdings.stand, Holdings.put, Holdings.change, Function.update_apply]
    split_ifs <;> rfl

/-- A new attribute node of an element goes last in its map. -/
theorem holdings_plantAttr (he : e < f.size) {name : String}
    (hname : ∀ b ∈ f.attributes e, (f.kind b).attrName ≠ name) (value : String) :
    (f.plantAttr e ⟨name, value⟩).holdings =
      ((f.holdings.new (.attr name) value).put e name value).stand f.size (.entryOf e) := by
  have hkind : (f.create (.attr name) value).2.kind f.size = .attr name := by
    rw [kind_create, if_pos rfl]
  have hdata : (f.create (.attr name) value).2.data f.size = value := by
    rw [data_create, if_pos rfl]
  have hak : ((f.create (.attr name) value).2.kind f.size).isAttr = true := by rw [hkind]; rfl
  rw [← hf.holdings_create]
  refine (holdings_own (f := (f.create (.attr name) value).2) (a := f.size) (e := e)
    (fun b hb => ?_) (by simp [Forest.plantAttr]) (by simp [Forest.plantAttr])
    (by simp [Forest.plantAttr]) (fun m => ?_) (fun m => ?_)).trans (by rw [hkind, hdata]; rfl)
  · rw [attributes_create] at hb
    have hb' : b ≠ f.size := Nat.ne_of_lt (lt_size_of_owner (hf.mem_attributes_iff.1 hb))
    rw [hkind, kind_create, if_neg hb']
    exact hname b hb
  · simp only [Forest.plantAttr, fst_create]
    rw [owner_setAttributes, owner_setParent_of_isAttr hak]
  · simp [Forest.plantAttr, attributes_setAttributes, Nat.lt_succ_of_lt he]

omit hf in
theorem holdings_addAttrNode (he : e < f.size) (ha : (f.kind a).isAttr = true)
    (hname : ∀ b ∈ f.attributes e, (f.kind b).attrName ≠ (f.kind a).attrName) :
    ((f.setAttributes e (· ++ [a])).setParent a (some e)).holdings =
      (f.holdings.put e (f.kind a).attrName (f.data a)).stand a (.entryOf e) :=
  holdings_own hname (by simp) (by simp) (by simp)
    (fun _ => by rw [owner_setParent_of_isAttr (by rwa [kind_setAttributes]), owner_setAttributes])
    (fun _ => by simp [attributes_setAttributes, he])

/-- An attribute node that takes the place of another of its name puts its value in the place of the
other value. -/
theorem holdings_replaceAttrNode {old : NodeId} (ha : (f.kind a).isAttr = true)
    (hold : f.owner old = some e) (hname : (f.kind old).attrName = (f.kind a).attrName) :
    (((f.setAttributes e fun as => as.map fun b => if b = old then a else b).setParent old
      none).setParent a (some e)).holdings =
      ((f.holdings.release old).put e (f.kind a).attrName (f.data a)).stand a (.entryOf e) := by
  have hmem : old ∈ f.attributes e := hf.mem_attributes_iff.2 hold
  have he : e < f.size := lt_size_of_mem_attributes hmem
  refine holdings_of_links (by simp) (by simp) (by simp) rfl rfl (fun q => ?_) (fun m => ?_)
  · simp only [attributes_setParent, attributes_setAttributes, he, and_true, Holdings.stand,
      Holdings.put, Holdings.change, Holdings.release]
    by_cases hq : q = e
    · subst hq
      rw [if_pos rfl, Function.update_self, List.map_map]
      have hput := NameMap.put_map f.attrAt (hf.nodup_attributes q) hmem
        (hf.eq_of_mem_attributes hmem) (f.data a)
      rw [show (f.attrAt old).name = (f.kind a).attrName from hname] at hput
      refine Eq.trans (List.map_congr_left fun b _ => ?_) hput.symm
      rw [Function.comp_apply]
      split_ifs <;> rfl
    · rw [if_neg hq, Function.update_of_ne hq]
      rfl
  · rw [owner_setParent_of_isAttr (by simpa using ha),
      owner_setParent_of_isAttr (by simpa using isAttr_of_owner hold), owner_setAttributes]
    simp only [Holdings.stand, Holdings.put, Holdings.change, Holdings.release,
      hf.valueOf_holdings, Function.update_apply]
    split_ifs with hm hm'
    · rfl
    · rw [hm']
    · rfl

end Sound

end Forest

end LiveMarkup
