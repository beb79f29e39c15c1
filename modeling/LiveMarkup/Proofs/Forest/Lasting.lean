import LiveMarkup.Proofs.Forest.Changes
import LiveMarkup.Proofs.Forest.Listeners

/-!
# What lasts of a node

A node that is there stays there, and it stays of its kind, whatever is done to the forest
(`Lasts.perform`).  Its data lasts as well unless it is written: to move nodes writes no data, to
set an attribute writes the data of attribute nodes only, and to join texts that of texts only.  So
`Lasts` has the kinds whose data is to last as a parameter.
-/

namespace LiveMarkup.Forest

variable {P : Kind → Prop} {f g h : Forest} {n : NodeId}

/-- All nodes of `f` are there in `g` and of the same kind, those of the kinds in `P` with the same
data. -/
structure Lasts (P : Kind → Prop) (f g : Forest) : Prop where
  size_le : f.size ≤ g.size
  kind_eq {m : NodeId} : m < f.size → g.kind m = f.kind m
  data_eq {m : NodeId} : m < f.size → P (f.kind m) → g.data m = f.data m

namespace Lasts

theorem refl (f : Forest) : Lasts P f f := ⟨le_rfl, fun _ => rfl, fun _ _ => rfl⟩

theorem trans (hfg : Lasts P f g) (hgh : Lasts P g h) : Lasts P f h := by
  refine ⟨hfg.size_le.trans hgh.size_le, fun hm => ?_, fun {m} hm hP => ?_⟩
  · rw [hgh.kind_eq (hm.trans_le hfg.size_le), hfg.kind_eq hm]
  · rw [hgh.data_eq (hm.trans_le hfg.size_le) (by rwa [hfg.kind_eq hm]), hfg.data_eq hm hP]

theorem of_views (hsize : g.size = f.size) (hk : ∀ m, g.kind m = f.kind m)
    (hd : ∀ m, g.data m = f.data m) : Lasts P f g :=
  ⟨hsize.ge, fun {m} _ => hk m, fun {m} _ _ => hd m⟩

theorem create (f : Forest) (k : Kind) (s : String) : Lasts P f (f.create k s).2 := by
  refine ⟨by simp, fun hm => ?_, fun hm _ => ?_⟩
  · rw [kind_create, if_neg hm.ne]
  · rw [data_create, if_neg hm.ne]

theorem modify_listeners (f : Forest) (n : NodeId) (change : List Listener → List Listener) :
    Lasts P f (f.modify n fun c => { c with listeners := change c.listeners }) :=
  of_views (by simp) (by simp) (by simp)

theorem writeData (hn : ¬ P (f.kind n)) (change : String → String) :
    Lasts P f (f.writeData n change) := by
  refine ⟨by simp, fun _ => by simp, fun {m} _ hm => ?_⟩
  rw [data_writeData, if_neg]
  rintro ⟨rfl, -⟩
  exact hn hm

/-- What writes no data of some kinds lets it last. -/
theorem of_changes (hfg : Changes (fun k => ¬ P k) f g) : Lasts P f g := by
  induction hfg with
  | refl => exact .refl f
  | create _ k s _ ih => exact ih.trans (.create _ k s)
  | setParent | setChildren | setAttributes =>
    next ih => exact ih.trans (of_views (by simp) (by simp) (by simp))
  | writeData _ hn change ih => exact ih.trans (.writeData hn change)

theorem takeApart (f : Forest) (n : NodeId) : Lasts P f (f.takeApart n) :=
  of_views (size_takeApart f n) (fun m => (Sound.views_takeApart f n m).1) (data_takeApart f n)

/-- An operation that writes writes texts or attribute nodes, and all other data lasts. -/
theorem of_operation {op : Operation}
    (hop : op.Writes → f.Sound ∧ ¬ P .text ∧ ∀ k : Kind, k.isAttr = true → ¬ P k) :
    Lasts P f (op.perform f) := by
  by_cases hrelease : ∀ n, op ≠ .release n
  · exact of_changes (.perform hrelease hop)
  · push Not at hrelease
    obtain ⟨n, rfl⟩ := hrelease
    exact takeApart f n

/-- Whatever is done to a forest, its nodes last, and they keep their kind. -/
theorem perform (hf : f.Sound) (op : Operation) : Lasts (fun _ => False) f (op.perform f) :=
  of_operation fun _ => ⟨hf, id, fun _ _ => id⟩

/-- An operation that writes nothing lets all data last. -/
theorem perform_of_not_writes {op : Operation} (hwrites : ¬ op.Writes) :
    Lasts P f (op.perform f) := of_operation fun h => absurd h hwrites

end Lasts

end LiveMarkup.Forest
