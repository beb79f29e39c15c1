import LiveMarkup.Proofs.Forest.Changes

/-!
# Listeners of a node

No operation on nodes registers a listener or takes one away: every node keeps its listeners
wherever it is moved and whatever is written to it (`Forest.listeners_of_changes`), and a new node
has none, a copy included (`Forest.listeners_copy`).  A node loses its listeners all at once when it
is taken apart (`Forest.listeners_takeApart`).
-/

namespace LiveMarkup.Forest

/-- The listeners of a node, in the order in which they were registered. -/
def listeners (f : Forest) (n : NodeId) : List Listener := (f.cell n).listeners

variable (f : Forest) {m n : NodeId}

theorem listeners_of_size_le {f : Forest} (h : f.size ≤ n) : f.listeners n = [] := by
  rw [listeners, cell_of_size_le h]
  rfl

/-! ### Elementary changes -/

/-- A change of a node that is no change of its listeners. -/
theorem listeners_modify {change : Cell → Cell}
    (h : (change (f.cell n)).listeners = (f.cell n).listeners) :
    (f.modify n change).listeners m = f.listeners m := by
  rw [listeners, cell_modify]
  split_ifs with hm
  · rw [h, hm.1]
    rfl
  · rfl

/-- A change of the listeners of a node. -/
theorem listeners_modify_listeners (change : List Listener → List Listener) (hn : n < f.size) :
    (f.modify n fun c => { c with listeners := change c.listeners }).listeners m =
      if m = n then change (f.listeners n) else f.listeners m := by
  rw [listeners, cell_modify]
  by_cases hm : m = n
  · rw [if_pos ⟨hm, hn⟩, if_pos hm]
    rfl
  · rw [if_neg fun h => hm h.1, if_neg hm]
    rfl

/-- Taking some of its listeners from a node, be its number in use or not. -/
theorem listeners_filter_listeners (keep : Listener → Bool) :
    (f.modify n fun c => { c with listeners := c.listeners.filter keep }).listeners m =
      if m = n then (f.listeners n).filter keep else f.listeners m := by
  by_cases hn : n < f.size
  · exact f.listeners_modify_listeners (List.filter keep) hn
  · rw [listeners, cell_modify, if_neg fun h => hn h.2, ← listeners]
    split_ifs with hm
    · rw [hm, listeners_of_size_le (Nat.le_of_not_lt hn), List.filter_nil]
    · rfl

section ModifyListeners

variable (change : List Listener → List Listener)

@[simp] theorem kind_modify_listeners :
    (f.modify n fun c => { c with listeners := change c.listeners }).kind m = f.kind m := by
  rw [kind, cell_modify]
  split_ifs with hm
  · exact congrArg f.kind hm.1.symm
  · rfl

@[simp] theorem data_modify_listeners :
    (f.modify n fun c => { c with listeners := change c.listeners }).data m = f.data m := by
  rw [data, cell_modify]
  split_ifs with hm
  · exact congrArg f.data hm.1.symm
  · rfl

@[simp] theorem link_modify_listeners :
    (f.modify n fun c => { c with listeners := change c.listeners }).link m = f.link m := by
  rw [link, cell_modify]
  split_ifs with hm
  · exact congrArg f.link hm.1.symm
  · rfl

theorem parent_modify_listeners :
    (f.modify n fun c => { c with listeners := change c.listeners }).parent m = f.parent m := by
  simp [parent_eq_link]

@[simp] theorem children_modify_listeners :
    (f.modify n fun c => { c with listeners := change c.listeners }).children m =
      f.children m := by
  rw [children, cell_modify]
  split_ifs with hm
  · exact congrArg f.children hm.1.symm
  · rfl

@[simp] theorem attributes_modify_listeners :
    (f.modify n fun c => { c with listeners := change c.listeners }).attributes m =
      f.attributes m := by
  rw [attributes, cell_modify]
  split_ifs with hm
  · exact congrArg f.attributes hm.1.symm
  · rfl

/-- Listeners have nothing to do with the shape of a forest. -/
theorem Sound.modify_listeners {f : Forest} (hf : f.Sound) (n : NodeId) :
    (f.modify n fun c => { c with listeners := change c.listeners }).Sound where
  toSoundChildren := hf.toSoundChildren.congr (by simp)
    (fun _ => parent_congr (by simp) (by simp)) (by simp)
  toSoundAttributes := hf.toSoundAttributes.of_moves (by simp)
    (fun _ => owner_congr (by simp) (by simp)) (by simp)

end ModifyListeners

@[simp] theorem listeners_setParent (q : Option NodeId) :
    (f.setParent n q).listeners m = f.listeners m := listeners_modify f rfl

@[simp] theorem listeners_setChildren (change : List NodeId → List NodeId) :
    (f.setChildren n change).listeners m = f.listeners m := listeners_modify f rfl

@[simp] theorem listeners_setAttributes (change : List NodeId → List NodeId) :
    (f.setAttributes n change).listeners m = f.listeners m := listeners_modify f rfl

@[simp] theorem listeners_writeData (change : String → String) :
    (f.writeData n change).listeners m = f.listeners m := listeners_modify f rfl

@[simp] theorem listeners_create (k : Kind) (s : String) :
    (f.create k s).2.listeners m = f.listeners m := by
  rw [listeners, cell_create]
  split_ifs with hm
  · rw [hm, listeners_of_size_le (Nat.le_refl _)]
    rfl
  · rfl

/-! ### Operations -/

/-- No operation on nodes registers a listener or takes one away. -/
theorem listeners_of_changes {f g : Forest} (h : Changes (fun _ => True) f g) (m : NodeId) :
    g.listeners m = f.listeners m := by
  induction h with
  | refl => rfl
  | create _ k s _ ih => exact (listeners_create _ k s).trans ih
  | setParent _ n q ih => exact (listeners_setParent _ q).trans ih
  | setChildren _ n change ih => exact (listeners_setChildren _ change).trans ih
  | setAttributes _ n change ih => exact (listeners_setAttributes _ change).trans ih
  | writeData _ _ change ih => exact (listeners_writeData _ change).trans ih

theorem listeners_copy (n m : NodeId) (deep : Bool) :
    (f.copy n deep).2.listeners m = f.listeners m := listeners_of_changes (.copy .refl n deep) m

/-- Taking nodes apart takes their listeners, and no others. -/
theorem listeners_takeApart :
    (f.takeApart n).listeners m = if m = n then [] else f.listeners m := by
  unfold takeApart
  dsimp only
  generalize hg : (f.children n ++ f.attributes n).foldl (fun f c => f.setParent c none) f = g
  have hkept : g.listeners m = f.listeners m := hg ▸ listeners_of_changes (.orphan .refl _) m
  rw [listeners, cell_modify]
  by_cases hm : m = n
  · rw [if_pos hm]
    split_ifs with hin
    · rfl
    · exact hm ▸ listeners_of_size_le (Nat.le_of_not_lt fun hlt => hin ⟨hm, hlt⟩)
  · rw [if_neg fun h => hm h.1, if_neg hm]
    exact hkept

theorem listeners_foldl_takeApart (ns : List NodeId) :
    (ns.foldl takeApart f).listeners m = if m ∈ ns then [] else f.listeners m := by
  induction ns generalizing f with
  | nil => simp
  | cons n ns ih =>
    rw [List.foldl_cons, ih, listeners_takeApart]
    by_cases hm : m = n
    · simp [hm]
    · simp [hm]

end LiveMarkup.Forest
