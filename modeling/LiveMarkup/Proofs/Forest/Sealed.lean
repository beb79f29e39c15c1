import Mathlib.Data.List.InsertIdx
import Mathlib.Data.Set.Basic
import LiveMarkup.Forest.Path
import LiveMarkup.Forest.Selector
import LiveMarkup.Proofs.Forest.Cells
import LiveMarkup.Run.Release
import LiveMarkup.Screen.Placement

/-!
# Nodes that are sealed off

Some nodes are sealed off if no other node leads to them (`Forest.Sealed`).  No operation on other
nodes can break the seal: whether it succeeds or is refused half-way, the sealed nodes stay as they
are and stay sealed off (`Forest.Avoids`), because all it can get at are the nodes it is given, the
nodes that these lead to, and new ones.
-/

namespace LiveMarkup

/-- All links of a node lead to nodes with a property. -/
structure Cell.LinksTo (c : Cell) (P : NodeId → Prop) : Prop where
  parent {p : NodeId} : c.parent = some p → P p
  children {m : NodeId} : m ∈ c.children → P m
  attributes {a : NodeId} : a ∈ c.attributes → P a

theorem Cell.LinksTo.mono {c : Cell} {P Q : NodeId → Prop} (h : c.LinksTo P)
    (hPQ : ∀ n, P n → Q n) : c.LinksTo Q :=
  ⟨fun hp => hPQ _ (h.parent hp), fun hm => hPQ _ (h.children hm),
    fun ha => hPQ _ (h.attributes ha)⟩

theorem Cell.linksTo_detached (k : Kind) (s : String) (P : NodeId → Prop) :
    (Cell.detached k s).LinksTo P :=
  ⟨nofun, nofun, nofun⟩

namespace Forest

variable {S : Set NodeId} {f g h : Forest} {a m n p v : NodeId} {ms ns : List NodeId}

/-- A node that is there and not one of the sealed ones. -/
structure Open (f : Forest) (S : Set NodeId) (n : NodeId) : Prop where
  lt : n < f.size
  not_mem : n ∉ S

/-- The sealed nodes are there, and no other node is linked to one of them. -/
structure Sealed (f : Forest) (S : Set NodeId) : Prop where
  lt {n : NodeId} : n ∈ S → n < f.size
  links {n : NodeId} : n ∉ S → (f.cell n).LinksTo (f.Open S)

/-- A change that leaves the sealed nodes as they are, and sealed off. -/
structure Avoids (S : Set NodeId) (f g : Forest) : Prop where
  seals : g.Sealed S
  size_le : f.size ≤ g.size
  cell_eq {n : NodeId} : n ∈ S → g.cell n = f.cell n

theorem Open.mono (hn : f.Open S n) (hsize : f.size ≤ g.size) : g.Open S n :=
  ⟨hn.lt.trans_le hsize, hn.not_mem⟩

namespace Sealed

variable (hf : f.Sealed S)

include hf

theorem refl : Avoids S f f := ⟨hf, le_rfl, fun _ => rfl⟩

theorem link (hn : n ∉ S) (hp : f.link n = some p) : f.Open S p := (hf.links hn).parent hp

theorem parent (hn : n ∉ S) (hp : f.parent n = some p) : f.Open S p := by
  rw [parent_eq_link] at hp
  split_ifs at hp
  exact hf.link hn hp

theorem owner (hn : n ∉ S) (hp : f.owner n = some p) : f.Open S p := by
  rw [owner_eq_link] at hp
  split_ifs at hp
  exact hf.link hn hp

theorem child (hn : n ∉ S) (hm : m ∈ f.children n) : f.Open S m := (hf.links hn).children hm

theorem attr (hn : n ∉ S) (ha : a ∈ f.attributes n) : f.Open S a :=
  (hf.links hn).attributes ha

theorem attrNode {name : String} (hn : n ∉ S) (ha : f.attrNode n name = some a) : f.Open S a :=
  hf.attr hn (List.mem_of_find?_eq_some ha)

end Sealed

namespace Avoids

theorem trans (hfg : Avoids S f g) (hgh : Avoids S g h) : Avoids S f h :=
  ⟨hgh.seals, hfg.size_le.trans hgh.size_le, fun hn => (hgh.cell_eq hn).trans (hfg.cell_eq hn)⟩

theorem open_mono (hfg : Avoids S f g) (hn : f.Open S n) : g.Open S n := hn.mono hfg.size_le

theorem all_mono (hfg : Avoids S f g) (hns : ∀ n ∈ ns, f.Open S n) : ∀ n ∈ ns, g.Open S n :=
  fun n hn => hfg.open_mono (hns n hn)

/-- Changes that are made one after the other at the items of a list. -/
theorem foldl {α : Type} {step : Forest → α → Forest} {as : List α} (hf : f.Sealed S)
    (hstep : ∀ x ∈ as, ∀ g, Avoids S f g → Avoids S g (step g x)) :
    Avoids S f (as.foldl step f) := by
  induction as generalizing f with
  | nil => exact hf.refl
  | cons x as ih =>
    have hx := hstep x List.mem_cons_self f hf.refl
    exact hx.trans (ih hx.seals fun y hy g hg =>
      hstep y (List.mem_cons_of_mem x hy) g (hx.trans hg))

/-! ### Elementary changes -/

theorem modify {change : Cell → Cell} (hf : f.Sealed S) (hn : n ∉ S)
    (hc : (f.cell n).LinksTo (f.Open S) → (change (f.cell n)).LinksTo (f.Open S)) :
    Avoids S f (f.modify n change) := by
  have hmono : ∀ m, f.Open S m → (f.modify n change).Open S m := fun m hm =>
    hm.mono (size_modify f n change).ge
  refine ⟨⟨fun hm => by simpa using hf.lt hm, fun {m} hm => ?_⟩, by simp, fun {m} hm => ?_⟩
  · rw [cell_modify]
    split_ifs
    · exact (hc (hf.links hn)).mono hmono
    · exact (hf.links hm).mono hmono
  · rw [cell_modify, if_neg]
    rintro ⟨rfl, -⟩
    exact hn hm

theorem create (hf : f.Sealed S) (k : Kind) (s : String) : Avoids S f (f.create k s).2 := by
  have hmono : ∀ m, f.Open S m → (f.create k s).2.Open S m := fun m hm => hm.mono (by simp)
  refine ⟨⟨fun hm => ?_, fun {m} hm => ?_⟩, by simp, fun {m} hm => ?_⟩
  · simpa using (hf.lt hm).trans (Nat.lt_succ_self _)
  · rw [cell_create]
    split_ifs
    · exact Cell.linksTo_detached k s _
    · exact (hf.links hm).mono hmono
  · rw [cell_create, if_neg (hf.lt hm).ne]

variable (hf : f.Sealed S)

include hf

/-- A new node is not one of the sealed ones. -/
theorem open_create (k : Kind) (s : String) : (f.create k s).2.Open S f.size :=
  ⟨by simp, fun hin => (hf.lt hin).false⟩

theorem setParent {q : Option NodeId} (hn : n ∉ S) (hq : ∀ p, q = some p → f.Open S p) :
    Avoids S f (f.setParent n q) :=
  modify hf hn fun hc => ⟨hq _, hc.children, hc.attributes⟩

theorem setChildren (change : List NodeId → List NodeId) (hn : n ∉ S)
    (hc : ∀ m ∈ change (f.children n), f.Open S m) : Avoids S f (f.setChildren n change) :=
  modify hf hn fun h => ⟨h.parent, fun hm => hc _ hm, h.attributes⟩

theorem setAttributes (change : List NodeId → List NodeId) (hn : n ∉ S)
    (hc : ∀ a ∈ change (f.attributes n), f.Open S a) : Avoids S f (f.setAttributes n change) :=
  modify hf hn fun h => ⟨h.parent, h.children, fun ha => hc _ ha⟩

theorem writeData (hn : n ∉ S) (change : String → String) : Avoids S f (f.writeData n change) :=
  modify hf hn fun h => ⟨h.parent, h.children, h.attributes⟩

/-! ### Moving nodes -/

theorem clearParent (hn : n ∉ S) : Avoids S f (f.setParent n none) :=
  setParent hf hn (by simp)

theorem orphan (hns : ∀ n ∈ ns, f.Open S n) :
    Avoids S f (ns.foldl (fun f c => f.setParent c none) f) :=
  foldl hf fun n hn _ hg => clearParent hg.seals (hns n hn).not_mem

theorem detach (hn : n ∉ S) : Avoids S f (f.detach n) := by
  unfold Forest.detach
  split
  · next p hp =>
    have hout := setChildren hf (·.filter (· != n)) (hf.parent hn hp).not_mem
      fun m hm => hf.child (hf.parent hn hp).not_mem (List.mem_of_mem_filter hm)
    exact hout.trans (clearParent hout.seals hn)
  · exact clearParent hf hn

theorem takeChildren (hn : n ∉ S) : Avoids S f (f.takeChildren n).2 := by
  have hout := setChildren hf (fun _ => []) hn (by simp)
  exact hout.trans (orphan hout.seals fun m hm => hout.open_mono (hf.child hn hm))

theorem insertAt (hp : f.Open S p) (i : ℕ) (hn : f.Open S n) : Avoids S f (f.insertAt p i n) := by
  have hlink := setParent hf hn.not_mem (q := some p) fun q hq => Option.some.inj hq ▸ hp
  refine hlink.trans (setChildren hlink.seals _ hp.not_mem fun m hm => ?_)
  rw [children_setParent] at hm
  rcases List.eq_or_mem_of_mem_insertIdx hm with rfl | hm
  · exact hlink.open_mono hn
  · exact hlink.open_mono (hf.child hp.not_mem hm)

theorem insertAllAt (hp : f.Open S p) (i : ℕ) (hns : ∀ n ∈ ns, f.Open S n) :
    Avoids S f (f.insertAllAt p i ns) := by
  induction ns generalizing f i with
  | nil => exact hf.refl
  | cons n ns ih =>
    have hfirst := insertAt hf hp i (hns n List.mem_cons_self)
    exact hfirst.trans (ih hfirst.seals (hfirst.open_mono hp) (i + 1)
      (hfirst.all_mono fun m hm => hns m (List.mem_cons_of_mem n hm)))

theorem pickUp (hn : f.Open S n) :
    Avoids S f (f.pickUp n).2 ∧ ∀ m ∈ (f.pickUp n).1, f.Open S m := by
  unfold Forest.pickUp
  split_ifs
  · exact ⟨takeChildren hf hn.not_mem, fun m hm => hf.child hn.not_mem hm⟩
  · exact ⟨detach hf hn.not_mem, fun m hm => List.mem_singleton.1 hm ▸ hn⟩

theorem insertBefore (hp : f.Open S p) (hn : f.Open S n) (reference : Option NodeId) :
    Avoids S f (f.insertBefore p n reference).2 := by
  obtain ⟨hpick, hmoved⟩ := pickUp hf hn
  unfold Forest.insertBefore
  split
  · exact hf.refl
  · dsimp only
    split
    · exact hpick.trans (insertAllAt hpick.seals (hpick.open_mono hp) _ (hpick.all_mono hmoved))
    · exact hpick

theorem append (hp : f.Open S p) (hn : f.Open S n) : Avoids S f (f.append p n).2 :=
  insertBefore hf hp hn none

theorem removeChild (hn : n ∉ S) : Avoids S f (f.removeChild p n).2 := by
  unfold Forest.removeChild
  split_ifs
  · exact detach hf hn
  · exact hf.refl

theorem remove (hn : n ∉ S) : Avoids S f (f.remove n) := by
  unfold Forest.remove
  split
  · next o ho =>
    have hout := setAttributes hf (·.filter (· != n)) (hf.owner hn ho).not_mem
      fun a ha => hf.attr (hf.owner hn ho).not_mem (List.mem_of_mem_filter ha)
    exact hout.trans (clearParent hout.seals hn)
  · exact detach hf hn

theorem insertEach (hp : f.Open S p) (anchor : NodeId) (hns : ∀ n ∈ ns, f.Open S n) :
    Avoids S f (f.insertEach p anchor ns).2 := by
  induction ns generalizing f with
  | nil => exact hf.refl
  | cons n ns ih =>
    have hrest : ∀ m ∈ ns, f.Open S m := fun m hm => hns m (List.mem_cons_of_mem n hm)
    have hfirst := insertBefore hf hp (hns n List.mem_cons_self) (some anchor)
    rw [Forest.insertEach]
    split_ifs
    · exact ih hf hp hrest
    · split
      · next heq =>
        rw [heq] at hfirst
        exact hfirst.trans (ih hfirst.seals (hfirst.open_mono hp) (hfirst.all_mono hrest))
      · exact hfirst

theorem replaceWith (hn : n ∉ S) (hns : ∀ m ∈ ns, f.Open S m) :
    Avoids S f (f.replaceWith n ns).2 := by
  unfold Forest.replaceWith
  split
  · exact hf.refl
  · next p hp =>
    have hinsert := insertEach hf (hf.parent hn hp) n hns
    split
    · next heq =>
      rw [heq] at hinsert
      dsimp only
      split_ifs
      · exact hinsert
      · exact hinsert.trans (detach hinsert.seals hn)
    · exact hinsert

/-! ### Joining texts -/

theorem absorb (hn : n ∉ S) (hns : ∀ m ∈ ns, f.Open S m) :
    Avoids S f (f.absorb n ns).2 ∧ (f.absorb n ns).1 ⊆ ns := by
  induction ns generalizing f with
  | nil => exact ⟨hf.refl, List.Subset.refl _⟩
  | cons m ns ih =>
    obtain ⟨hm, hrest⟩ := List.forall_mem_cons.1 hns
    unfold Forest.absorb
    split_ifs
    · have hwrite := writeData hf hn (· ++ f.data m)
      have hstep := hwrite.trans (detach hwrite.seals hm.not_mem)
      obtain ⟨hjoin, hleft⟩ := ih hstep.seals (hstep.all_mono hrest)
      exact ⟨hstep.trans hjoin, List.subset_cons_of_subset m hleft⟩
    · exact ⟨hf.refl, List.Subset.refl _⟩

theorem joinSiblings {deeper : Forest → NodeId → Forest}
    (hdeeper : ∀ {g : Forest} {n : NodeId}, g.Sealed S → g.Open S n → Avoids S g (deeper g n))
    (hns : ∀ n ∈ ns, f.Open S n) : Avoids S f (joinSiblings deeper f ns) := by
  fun_induction Forest.joinSiblings deeper f ns with
  | case1 => exact hf.refl
  | case2 f n ns hkind joined ih =>
    obtain ⟨hn, hrest⟩ := List.forall_mem_cons.1 hns
    obtain ⟨hjoin, hsub⟩ := absorb hf hn.not_mem hrest
    have hleft : ∀ m ∈ joined.1, f.Open S m := fun m hm => hrest m (hsub hm)
    split_ifs at ih ⊢
    · have hstep := hjoin.trans (detach hjoin.seals hn.not_mem)
      exact hstep.trans (ih hstep.seals (hstep.all_mono hleft))
    · exact hjoin.trans (ih hjoin.seals (hjoin.all_mono hleft))
  | case3 f n ns hkind ih =>
    obtain ⟨hn, hrest⟩ := List.forall_mem_cons.1 hns
    have hstep := hdeeper hf hn
    exact hstep.trans (ih hstep.seals (hstep.all_mono hrest))

theorem normalizeTo (fuel : ℕ) (hn : f.Open S n) : Avoids S f (normalizeTo fuel f n) := by
  induction fuel generalizing f n with
  | zero => exact hf.refl
  | succ fuel ih => exact joinSiblings hf ih fun m hm => hf.child hn.not_mem hm

theorem normalize (hn : f.Open S n) : Avoids S f (f.normalize n) := normalizeTo hf _ hn

/-! ### Data and attributes -/

theorem setData (hn : n ∉ S) (s : String) : Avoids S f (f.setData n s).2 := by
  unfold Forest.setData
  split
  case h_4 => exact hf.refl
  all_goals exact writeData hf hn fun _ => s

theorem setValue (hn : n ∉ S) (s : String) : Avoids S f (f.setValue n s).2 := by
  unfold Forest.setValue
  split_ifs
  · exact setData hf hn s
  · exact hf.refl

/-- A new node joins the attribute nodes of an element. -/
theorem adopt (hn : f.Open S n) (ha : f.Open S a) :
    Avoids S f ((f.setParent a (some n)).setAttributes n (· ++ [a])) := by
  have hlink := setParent hf ha.not_mem (q := some n) fun p hp => Option.some.inj hp ▸ hn
  refine hlink.trans (setAttributes hlink.seals _ hn.not_mem fun b hb => ?_)
  rw [attributes_setParent, List.mem_append, List.mem_singleton] at hb
  rcases hb with hb | rfl
  · exact hlink.open_mono (hf.attr hn.not_mem hb)
  · exact hlink.open_mono ha

theorem setAttr (hn : f.Open S n) (name s : String) : Avoids S f (f.setAttr n name s).2 := by
  unfold Forest.setAttr
  split
  · exact hf.refl
  · split
    · next a ha => exact writeData hf (hf.attrNode hn.not_mem ha).not_mem fun _ => s
    · have hnew := create hf (.attr name.toLower) s
      exact hnew.trans (adopt hnew.seals (hnew.open_mono hn) (open_create hf _ s))

theorem removeAttr (hn : n ∉ S) (name : String) : Avoids S f (f.removeAttr n name).2 ∧
    ∀ a, (f.removeAttr n name).1 = .ok (some a) → f.Open S a := by
  unfold Forest.removeAttr
  split
  · exact ⟨hf.refl, by simp⟩
  · split
    · next a ha =>
      have hopen := hf.attrNode hn ha
      refine ⟨remove hf hopen.not_mem, fun b hb => ?_⟩
      obtain rfl : a = b := by simpa using hb
      exact hopen
    · exact ⟨hf.refl, by simp⟩

theorem setAttrNode (hn : f.Open S n) (ha : f.Open S a) : Avoids S f (f.setAttrNode n a).2 ∧
    ∀ b, (f.setAttrNode n a).1 = .ok (some b) → f.Open S b := by
  unfold Forest.setAttrNode
  split
  · exact ⟨hf.refl, by simp⟩
  split_ifs
  · exact ⟨hf.refl, by simp⟩
  split
  · split_ifs
    · exact ⟨hf.refl, by simp⟩
    · exact ⟨hf.refl, by simp⟩
  split
  · next old hold =>
    have hopen := hf.attrNode hn.not_mem hold
    have hswap := setAttributes hf (·.map fun b => if b = old then a else b) hn.not_mem
      fun b hb => by
        obtain ⟨c, hc, rfl⟩ := List.mem_map.1 hb
        split_ifs
        · exact ha
        · exact hf.attr hn.not_mem hc
    have hfree := hswap.trans (clearParent hswap.seals hopen.not_mem)
    refine ⟨hfree.trans (setParent hfree.seals ha.not_mem fun p hp =>
      Option.some.inj hp ▸ hfree.open_mono hn), fun b hb => ?_⟩
    obtain rfl : old = b := by simpa using hb
    exact hopen
  · have hadd := setAttributes hf (· ++ [a]) hn.not_mem fun b hb => by
      rcases List.mem_append.1 hb with hb | hb
      · exact hf.attr hn.not_mem hb
      · exact List.mem_singleton.1 hb ▸ ha
    exact ⟨hadd.trans (setParent hadd.seals ha.not_mem fun p hp =>
      Option.some.inj hp ▸ hadd.open_mono hn), by simp⟩

theorem removeAttrNode (ha : a ∉ S) : Avoids S f (f.removeAttrNode n a).2 := by
  unfold Forest.removeAttrNode
  split_ifs
  · exact remove hf ha
  · exact hf.refl

/-! ### New nodes -/

theorem linkChild (hp : f.Open S p) (hn : f.Open S n) : Avoids S f (f.linkChild p n) := by
  have hlink := setParent hf hn.not_mem (q := some p) fun q hq => Option.some.inj hq ▸ hp
  refine hlink.trans (setChildren hlink.seals _ hp.not_mem fun m hm => ?_)
  rw [children_setParent, List.mem_append, List.mem_singleton] at hm
  rcases hm with hm | rfl
  · exact hlink.open_mono (hf.child hp.not_mem hm)
  · exact hlink.open_mono hn

theorem plantAttr (hn : f.Open S n) (x : Attribute) : Avoids S f (f.plantAttr n x) := by
  have hnew := create hf (.attr x.name) x.value
  exact hnew.trans (adopt hnew.seals (hnew.open_mono hn) (open_create hf _ _))

end Avoids

namespace Avoids

theorem plantAttrs (hf : f.Sealed S) (hn : f.Open S n) (as : List Attribute) :
    Avoids S f (as.foldl (fun f a => f.plantAttr n a) f) :=
  foldl hf fun a _ _ hg => plantAttr hg.seals (hg.open_mono hn) a

mutual

theorem plant {f : Forest} (hf : f.Sealed S) (t : Tree) :
    Avoids S f (f.plant t).2 ∧ (f.plant t).2.Open S (f.plant t).1 := by
  cases t with
  | text s | comment s => exact ⟨create hf _ s, open_create hf _ s⟩
  | element tag as ts =>
    have hnew := create hf (.element tag) ""
    have hn := open_create hf (.element tag) ""
    have hattrs := plantAttrs hnew.seals hn as
    have hbelow := plantBelow hattrs.seals (hattrs.open_mono hn) ts
    exact ⟨hnew.trans (hattrs.trans hbelow), hbelow.open_mono (hattrs.open_mono hn)⟩

theorem plantBelow {f : Forest} {p : NodeId} (hf : f.Sealed S) (hp : f.Open S p)
    (ts : List Tree) :
    Avoids S f (f.plantBelow p ts) := by
  cases ts with
  | nil => exact hf.refl
  | cons t ts =>
    obtain ⟨hnew, hn⟩ := plant hf t
    have hlink := hnew.trans (linkChild hnew.seals (hnew.open_mono hp) hn)
    exact hlink.trans (plantBelow hlink.seals (hlink.open_mono hp) ts)

end

variable (hf : f.Sealed S)

include hf

theorem plantFragment (ts : List Tree) : Avoids S f (f.plantFragment ts).2 ∧
    (f.plantFragment ts).2.Open S (f.plantFragment ts).1 := by
  have hnew := create hf .fragment ""
  have hn := open_create hf .fragment ""
  have hbelow := plantBelow hnew.seals hn ts
  exact ⟨hnew.trans hbelow, hbelow.open_mono hn⟩

theorem plantSnapshot (s : Snapshot) : Avoids S f (f.plantSnapshot s).2 ∧
    (f.plantSnapshot s).2.Open S (f.plantSnapshot s).1 := by
  cases s with
  | tree t => exact plant hf t
  | attr a => exact ⟨create hf _ _, open_create hf _ _⟩
  | fragment ts => exact plantFragment hf ts

theorem copy (n : NodeId) (deep : Bool) : Avoids S f (f.copy n deep).2 ∧
    (f.copy n deep).2.Open S (f.copy n deep).1 := by
  unfold Forest.copy
  split_ifs
  · exact plantSnapshot hf _
  · split
    · exact plant hf _
    · exact plantFragment hf []
    · exact plantSnapshot hf _

/-! ### Placing values -/

omit hf in
theorem placed {α : Type} {e : Edit α} (he : Avoids S f e.2) : Avoids S f (placed e).2 := by
  rcases e with ⟨_ | _, g⟩ <;> exact he

theorem placeText (hn : n ∉ S) (kind s : String) : Avoids S f (f.placeText n kind s).2 := by
  unfold Forest.placeText
  split
  · have hnew := create hf .text s
    exact hnew.trans (placed (replaceWith hnew.seals hn fun m hm =>
      List.mem_singleton.1 hm ▸ open_create hf .text s))
  · exact placed (setValue hf hn s)
  · exact placed (setData hf hn s)
  · exact hf.refl

theorem placeNode (hn : f.Open S n) (hv : f.Open S v) : Avoids S f (f.placeNode n v).2 := by
  unfold Forest.placeNode
  split_ifs
  · exact placed (setAttrNode hf hn hv).1
  · exact hf.refl
  · split
    · exact placed (replaceWith hf hn.not_mem fun m hm => List.mem_singleton.1 hm ▸ hv)
    · exact placed (append hf hn hv)
    · exact hf.refl

theorem addSlot (hp : f.Open S p) (anchor : NodeId) : Avoids S f (f.addSlot p anchor).2.2 ∧
    (f.addSlot p anchor).2.2.Open S (f.addSlot p anchor).1 := by
  have hnew := create hf .comment ""
  have hslot := open_create hf .comment ""
  have hinsert := placed (insertBefore hnew.seals (hnew.open_mono hp) hslot (some anchor))
  exact ⟨hnew.trans hinsert, hinsert.open_mono hslot⟩

theorem placeAttr (hn : f.Open S n) (name s : String) : Avoids S f (f.placeAttr n name s).2 := by
  unfold Forest.placeAttr
  split_ifs
  · exact placed (setAttr hf hn name s)
  · exact hf.refl

theorem liveTarget (hn : f.Open S n) : Avoids S f (f.liveTarget n).2 ∧
    ∀ m, (f.liveTarget n).1 = .ok m → (f.liveTarget n).2.Open S m := by
  unfold Forest.liveTarget
  split
  · have hnew := create hf .text ""
    have ht := open_create hf .text ""
    have hreplace := replaceWith hnew.seals hn.not_mem (List.forall_mem_singleton.2 ht)
    dsimp only
    split
    · next heq =>
      simp only [fst_create] at heq
      rw [heq] at hreplace
      exact ⟨hnew.trans hreplace, fun m hm => Except.ok.inj hm ▸ hreplace.open_mono ht⟩
    · next heq =>
      simp only [fst_create] at heq
      rw [heq] at hreplace
      exact ⟨hnew.trans hreplace, by simp⟩
  · exact ⟨hf.refl, fun m hm => Except.ok.inj hm ▸ hn⟩
  · exact ⟨hf.refl, fun m hm => Except.ok.inj hm ▸ hn⟩
  · exact ⟨hf.refl, by simp⟩

/-! ### Releasing -/

theorem takeApart (hn : n ∉ S) : Avoids S f (f.takeApart n) := by
  have hbelow : ∀ m ∈ f.children n ++ f.attributes n, f.Open S m := fun m hm => by
    rcases List.mem_append.1 hm with hm | hm
    · exact hf.child hn hm
    · exact hf.attr hn hm
  have horphan := orphan hf hbelow
  exact horphan.trans (modify horphan.seals hn fun h => ⟨h.parent, by simp, by simp⟩)

end Avoids

/-! ### Looking around -/

namespace Sealed

theorem follow (hf : f.Sealed S) (hn : f.Open S n) {is : List ℕ} (hm : f.follow n is = some m) :
    f.Open S m := by
  induction is generalizing n with
  | nil => exact Option.some.inj hm ▸ hn
  | cons i is ih =>
    rw [Forest.follow] at hm
    split at hm
    · next c hc => exact ih (hf.child hn.not_mem (List.mem_of_getElem? hc)) hm
    · cases hm

theorem lineage (hf : f.Sealed S) (fuel : ℕ) (hn : f.Open S n) :
    ∀ m ∈ f.lineage fuel n, f.Open S m := by
  induction fuel generalizing n with
  | zero => exact List.forall_mem_nil _
  | succ fuel ih =>
    intro m hm
    rcases List.mem_cons.1 hm with rfl | hm
    · exact hn
    · split at hm
      · next p hp => exact ih (hf.parent hn.not_mem hp) m hm
      · cases hm

theorem below (hf : f.Sealed S) (fuel : ℕ) (hns : ∀ n ∈ ns, f.Open S n) :
    ∀ m ∈ f.below fuel ns, f.Open S m := by
  induction fuel generalizing ns with
  | zero => exact List.forall_mem_nil _
  | succ fuel ih =>
    intro m hm
    obtain ⟨n, hn, hm⟩ := List.mem_flatMap.1 hm
    rcases List.mem_cons.1 hm with rfl | hm
    · exact hns m hn
    · exact ih (fun c hc => hf.child (hns n hn).not_mem hc) m hm

theorem closest (hf : f.Sealed S) (hn : f.Open S n) {tag : String}
    (hm : f.closest n tag = some m) : f.Open S m :=
  hf.lineage _ hn m (List.mem_of_find?_eq_some hm)

theorem select? (hf : f.Sealed S) (hn : f.Open S n) {s : Selector} (hm : f.select? n s = some m) :
    f.Open S m :=
  hf.below _ (fun _ hk => List.mem_singleton.1 hk ▸ hn) m (List.mem_of_find?_eq_some hm)

theorem nextSibling (hf : f.Sealed S) (hn : f.Open S n) (hm : f.nextSibling n = some m) :
    f.Open S m := by
  unfold Forest.nextSibling at hm
  split at hm
  · next p i hp hi =>
    exact hf.child (hf.parent hn.not_mem hp).not_mem (List.mem_of_getElem? hm)
  · cases hm

theorem previousSibling (hf : f.Sealed S) (hn : f.Open S n) (hm : f.previousSibling n = some m) :
    f.Open S m := by
  unfold Forest.previousSibling at hm
  split at hm
  · next p i hp hi =>
    exact hf.child (hf.parent hn.not_mem hp).not_mem (List.mem_of_getElem? hm)
  · cases hm

mutual

/-- Paths from a node outside lead to nodes outside. -/
theorem descend {n : NodeId} {ns : List NodeId} (hf : f.Sealed S) (hn : f.Open S n) (path : Path)
    (h : f.descend n path = .ok ns) : ∀ m ∈ ns, f.Open S m := by
  match path with
  | [] =>
    rw [Forest.descend] at h
    obtain rfl := Except.ok.inj h
    exact fun m hm => List.mem_singleton.1 hm ▸ hn
  | .child i :: steps =>
    rw [Forest.descend] at h
    split at h
    · next c hc => exact descend hf (hf.child hn.not_mem (List.mem_of_getElem? hc)) steps h
    · cases h
  | .attr name :: steps =>
    rw [Forest.descend] at h
    split at h
    · next a ha =>
      obtain rfl := Except.ok.inj h
      exact fun m hm => List.mem_singleton.1 hm ▸ hf.attrNode hn.not_mem ha
    · cases h
  | .group paths :: steps =>
    rw [Forest.descend] at h
    exact descendAll hf hn paths h

theorem descendAll {n : NodeId} {ns : List NodeId} (hf : f.Sealed S) (hn : f.Open S n)
    (paths : List Path) (h : f.descendAll n paths = .ok ns) : ∀ m ∈ ns, f.Open S m := by
  match paths with
  | [] =>
    rw [Forest.descendAll] at h
    obtain rfl := Except.ok.inj h
    exact List.forall_mem_nil _
  | path :: paths =>
    rw [Forest.descendAll] at h
    split at h
    · cases h
    · next reached hreached =>
      split at h
      · cases h
      · next others hothers =>
        obtain rfl := Except.ok.inj h
        intro m hm
        rcases List.mem_append.1 hm with hm | hm
        · exact descend hf hn path hreached m hm
        · exact descendAll hf hn paths hothers m hm

end

end Sealed

/-! ### What a node leads to -/

/-- `m` can be got at from `n` by going from node to node along links of any kind. -/
def LeadsTo (f : Forest) : NodeId → NodeId → Prop :=
  Relation.ReflTransGen fun n m => m ∈ f.children n ∨ m ∈ f.attributes n ∨ f.link n = some m

/-- No node outside leads to a sealed one, however far one goes. -/
theorem Sealed.open_of_leadsTo (hf : f.Sealed S) (hn : f.Open S n) (h : f.LeadsTo n m) :
    f.Open S m := by
  induction h with
  | refl => exact hn
  | tail _ hstep ih =>
    rcases hstep with hchild | hattr | hlink
    · exact hf.child ih.not_mem hchild
    · exact hf.attr ih.not_mem hattr
    · exact hf.link ih.not_mem hlink

end Forest

end LiveMarkup
