import Mathlib.Data.List.Forall2
import LiveMarkup.Proofs.Forest.Subtrees
import LiveMarkup.Proofs.Markup.RoundTrip

/-!
# Nodes that look alike

What a node of a sound forest looks like says what its children, its attribute nodes and the nodes
below it look like: two nodes that look alike have as many children, and the children at one place
look alike (`Sound.exists_child_alike`), so the same child indices lead on from both
(`Sound.exists_follow_alike`).  A deep copy looks like what it is a copy of (`snapshot_copy`).
-/

namespace LiveMarkup

namespace Snapshot

/-- The trees right below a node that looks like this. -/
def below : Snapshot → List Tree
  | tree (.element _ _ children) => children
  | fragment children => children
  | tree (.text _) | tree (.comment _) | attr _ => []

/-- The attributes of a node that looks like this. -/
def attributes : Snapshot → List Attribute
  | tree (.element _ as _) => as
  | tree (.text _) | tree (.comment _) | fragment _ | attr _ => []

/-- The tag of a node that looks like this. -/
def tag : Snapshot → String
  | tree (.element tag _ _) => tag
  | tree (.text _) | tree (.comment _) | fragment _ | attr _ => ""

end Snapshot

namespace Forest

variable {f g : Forest} {a c m n : NodeId}

/-! ### Reading a snapshot -/

theorem tag_snapshot (f : Forest) (n : NodeId) : (f.snapshot n).tag = (f.kind n).tag := by
  unfold Forest.snapshot
  cases f.kind n <;> rfl

namespace Sound

variable (hf : f.Sound)

include hf

theorem below_snapshot (n : NodeId) : (f.snapshot n).below = f.trees (f.children n) := by
  unfold Forest.snapshot
  cases hk : f.kind n with
  | element tag | fragment => rfl
  | text | comment | attr name =>
    rw [hf.children_eq_nil (n := n) (by rw [hk]; rfl)]
    rfl

theorem attributes_snapshot (n : NodeId) :
    (f.snapshot n).attributes = (f.attributes n).map f.attrAt := by
  unfold Forest.snapshot
  cases hk : f.kind n with
  | element tag => rfl
  | text | comment | attr name | fragment =>
    rw [hf.attributes_eq_nil (n := n) (by rw [hk]; rfl)]
    rfl

/-- The trees below a node are what its children look like, one by one. -/
theorem forall₂_children (n : NodeId) :
    List.Forall₂ (fun c t => f.snapshot c = .tree t) (f.children n) (f.trees (f.children n)) := by
  obtain ⟨Ls, hLs⟩ := hf.exists_subtrees_below n
  have hbelow := hf.holdsBelow_of_subtrees hLs
  have hnodup : ((Labelled.labelsAll Ls).map id).Nodup := by
    rw [List.map_id]
    exact hLs.nodup
  have hlen := (hbelow.holds.length_le_size hnodup).trans (Nat.le_succ _)
  have htrees : f.trees (f.children n) = Ls.map Labelled.tree := by
    rw [Forest.trees, hbelow.children_eq, hbelow.holds.treesAt hlen, Labelled.trees_eq_map]
  rw [htrees, hbelow.children_eq, List.forall₂_map_left_iff, List.forall₂_map_right_iff,
    List.forall₂_same]
  intro L hL
  refine Holds.snapshot (hLs.holds L hL) ?_
  rw [List.map_id]
  refine hLs.nodup.sublist ?_
  rw [Labelled.labelsAll_eq_flatMap]
  exact List.sublist_flatten_of_mem (List.mem_map_of_mem hL)

end Sound

/-! ### The same way down -/

namespace Sound

variable (hf : f.Sound) (hg : g.Sound)

include hf hg

/-- The children at one place of nodes that look alike look alike. -/
theorem exists_child_alike (h : g.snapshot m = f.snapshot n) {i : ℕ}
    (hc : (f.children n)[i]? = some c) :
    ∃ d, (g.children m)[i]? = some d ∧ g.snapshot d = f.snapshot c := by
  have htrees : g.trees (g.children m) = f.trees (f.children n) := by
    rw [← hg.below_snapshot, h, hf.below_snapshot]
  have hds := hg.forall₂_children m
  rw [htrees] at hds
  obtain ⟨hlen, hcs⟩ := List.forall₂_iff_get.1 (hf.forall₂_children n)
  obtain ⟨hlen', hds⟩ := List.forall₂_iff_get.1 hds
  obtain ⟨hi, rfl⟩ := List.getElem?_eq_some_iff.1 hc
  have hi' : i < (g.children m).length := hlen' ▸ hlen ▸ hi
  refine ⟨(g.children m)[i], List.getElem?_eq_getElem hi', ?_⟩
  exact (hds i hi' (hlen ▸ hi)).trans (hcs i hi (hlen ▸ hi)).symm

/-- The same child indices lead on from nodes that look alike, to nodes that look alike. -/
theorem exists_follow_alike (h : g.snapshot m = f.snapshot n) {is : List ℕ}
    (hc : f.follow n is = some c) : ∃ d, g.follow m is = some d ∧ g.snapshot d = f.snapshot c := by
  induction is generalizing n m with
  | nil =>
    obtain rfl : n = c := Option.some.inj hc
    exact ⟨m, rfl, h⟩
  | cons i is ih =>
    rw [follow] at hc
    cases hi : (f.children n)[i]? with
    | none =>
      rw [hi] at hc
      cases hc
    | some k =>
      rw [hi] at hc
      obtain ⟨d, hd, halike⟩ := hf.exists_child_alike hg h hi
      rw [follow, hd]
      exact ih halike hc

/-- The attribute nodes of one name of nodes that look alike look alike. -/
theorem map_attrNode_alike (h : g.snapshot m = f.snapshot n) (name : String) :
    (g.attrNode m name).map g.attrAt = (f.attrNode n name).map f.attrAt := by
  have hattributes : (g.attributes m).map g.attrAt = (f.attributes n).map f.attrAt := by
    rw [← hg.attributes_snapshot, h, hf.attributes_snapshot]
  have hfind : ∀ (f : Forest) (n : NodeId), (f.attrNode n name).map f.attrAt =
      ((f.attributes n).map f.attrAt).find? (fun a => a.name == name.toLower) := fun f n => by
    rw [List.find?_map]
    rfl
  rw [hfind, hfind, hattributes]

end Sound

/-! ### Copies -/

theorem fst_plantSnapshot (f : Forest) (s : Snapshot) : (f.plantSnapshot s).1 = f.size := by
  cases s with
  | tree t => exact (grows_plant f t).1
  | attr a => rfl
  | fragment ts => rfl

theorem grows_plantSnapshot (f : Forest) (s : Snapshot) : Grows f (f.plantSnapshot s).2 := by
  cases s with
  | tree t => exact (grows_plant f t).2.2
  | attr a => exact Grows.create f _ _
  | fragment ts =>
    obtain ⟨Ls, rfl⟩ := exists_trees_eq ts
    exact (f.holdsBelow_plantFragment Ls).2.2.1

/-- What is planted looks like what it is planted from. -/
theorem snapshot_plantSnapshot (f : Forest) (s : Snapshot) :
    (f.plantSnapshot s).2.snapshot (f.plantSnapshot s).1 = s := by
  cases s with
  | fragment ts => exact snapshot_plantFragment f ts
  | attr a => simp [plantSnapshot, Forest.snapshot, kind_create, data_create]
  | tree t =>
    obtain ⟨L, rfl⟩ := exists_tree_eq t
    obtain ⟨-, hholds⟩ := holds_plant f L
    have hnodup : ((L.numbered f.size).labels.map Prod.fst).Nodup := by
      rw [Labelled.fst_labels_numbered]
      exact List.nodup_range'
    have hsnapshot := hholds.snapshot hnodup
    rw [label_numbered, ← Labelled.tree_map Prod.snd, Labelled.map_snd_numbered] at hsnapshot
    rwa [fst_plantSnapshot]

/-- A deep copy looks like the node it is a copy of. -/
theorem snapshot_copy (f : Forest) (n : NodeId) :
    (f.copy n true).2.snapshot (f.copy n true).1 = f.snapshot n :=
  snapshot_plantSnapshot f (f.snapshot n)

theorem fst_copy (f : Forest) (n : NodeId) : (f.copy n true).1 = f.size :=
  fst_plantSnapshot f (f.snapshot n)

theorem grows_copy (f : Forest) (n : NodeId) : Grows f (f.copy n true).2 :=
  grows_plantSnapshot f (f.snapshot n)

end Forest

end LiveMarkup
