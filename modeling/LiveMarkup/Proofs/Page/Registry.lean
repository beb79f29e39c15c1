import Mathlib.Data.List.Nodup
import Mathlib.Data.List.Perm.Subperm
import Mathlib.Order.Nat
import LiveMarkup.Forest.Cell

/-!
# Listeners and the events that come to them

What happens to listeners happens one thing after the other: a node gets a listener or loses one, an
event comes to a node and collects its listeners, they are invoked in turn, and handlers make other
things happen in between.  A `Registry` keeps what matters of all that has happened: the listeners
that are registered, and those that have been collected and not been invoked yet.

Two laws hold whatever happens.  No listener that runs once is invoked twice
(`Registry.nodup_invoked_once`): it leaves the registry when it is collected.  And what still
invokes a listener that has been removed are the events that had collected it before, each for every
time that it had (`Registry.Gone.after`).
-/

namespace LiveMarkup

/-- What happens to listeners. -/
inductive Occurrence where
  | listen (n : NodeId) (l : Listener)
  /-- A listener is removed, if the node has it. -/
  | unlisten (n : NodeId) (id : Nat) (found : Bool)
  /-- Nodes are released, and their listeners with them. -/
  | release (ns : List NodeId)
  /-- An event comes to a node and collects its listeners. -/
  | reach (n : NodeId) (event : String) (ls : List Listener)
  /-- The next of the listeners collected by the innermost event is invoked. -/
  | invoke (l : Listener)
  /-- The innermost event is done with the listeners it has collected. -/
  | leave
  deriving DecidableEq

namespace Occurrence

/-- The listener that is invoked. -/
def invoked? : Occurrence → Option Listener
  | .invoke l => some l
  | _ => none

end Occurrence

/-- The listeners that are invoked, in order. -/
def invoked (hs : List Occurrence) : List Listener := hs.filterMap Occurrence.invoked?

@[simp] theorem invoked_cons (h : Occurrence) (hs : List Occurrence) :
    invoked (h :: hs) = h.invoked?.toList ++ invoked hs := by
  cases h <;> rfl

@[simp] theorem invoked_append (hs hs' : List Occurrence) :
    invoked (hs ++ hs') = invoked hs ++ invoked hs' :=
  List.filterMap_append

/-- The numbers of those listeners that run only once. -/
def onceIds (ls : List Listener) : List Nat := (ls.filter (·.once)).map (·.id)

@[simp] theorem onceIds_append (ls ls' : List Listener) :
    onceIds (ls ++ ls') = onceIds ls ++ onceIds ls' := by
  simp [onceIds]

/-- The listeners that are registered, and those that are still to be invoked. -/
structure Registry where
  /-- The listeners of all nodes, in the order of registration. -/
  entries : List (NodeId × Listener)
  /-- A number that no listener has had so far, and none below it will have again. -/
  next : Nat
  /-- What each event that is being handled has collected last and not invoked yet, the innermost
  event first. -/
  pending : List (List Listener)

namespace Registry

variable {r : Registry} {h : Occurrence} {hs hs' : List Occurrence} {id : Nat} {seen : List Nat}

/-- Nothing has happened yet. -/
def empty : Registry := ⟨[], 0, []⟩

/-- The listeners of a node, in the order of registration. -/
def listeners (r : Registry) (n : NodeId) : List Listener :=
  (r.entries.filter fun e => e.1 == n).map Prod.snd

/-- The listeners that are to be invoked because an event has collected them. -/
def collected (r : Registry) : List Listener := r.pending.flatten

/-- What something leads to. -/
def follow (r : Registry) : Occurrence → Registry
  | .listen n l => { r with entries := r.entries ++ [(n, l)], next := l.id + 1 }
  | .unlisten n id _ =>
    { r with entries := r.entries.filter fun e => !(e.1 == n && e.2.id == id) }
  | .release ns => { r with entries := r.entries.filter fun e => !ns.contains e.1 }
  | .reach n event ls =>
    { r with
      entries := r.entries.filter fun e => !(e.1 == n && (e.2.once && e.2.event == event))
      pending := ls :: r.pending }
  | .invoke _ => { r with pending := r.pending.modifyHead List.tail }
  | .leave => { r with pending := r.pending.tail }

/-- What can happen: new listeners have new numbers, an event collects the listeners of its type
that are registered at the node, and all that were collected are invoked in order. -/
def Permits (r : Registry) : Occurrence → Prop
  | .listen _ l => r.next ≤ l.id
  | .unlisten n id found => found = (r.listeners n).any (·.id == id)
  | .release _ => True
  | .reach n event ls => ls = (r.listeners n).filter (·.event == event)
  | .invoke l => ∃ ls rest, r.pending = (l :: ls) :: rest
  | .leave => ∃ rest, r.pending = [] :: rest

/-- What several things lead to, one after the other. -/
def after (r : Registry) (hs : List Occurrence) : Registry := hs.foldl follow r

/-- Whether several things can happen one after the other. -/
def Allows (r : Registry) : List Occurrence → Prop
  | [] => True
  | h :: hs => r.Permits h ∧ (r.follow h).Allows hs

@[simp] theorem after_append : r.after (hs ++ hs') = (r.after hs).after hs' := List.foldl_append

theorem allows_append : r.Allows (hs ++ hs') ↔ r.Allows hs ∧ (r.after hs).Allows hs' := by
  induction hs generalizing r with
  | nil => exact (and_iff_right trivial).symm
  | cons h hs ih => exact (and_congr_right fun _ => ih).trans and_assoc.symm

theorem mem_of_mem_listeners {n : NodeId} {l : Listener} (hl : l ∈ r.listeners n) :
    (n, l) ∈ r.entries := by
  obtain ⟨⟨m, k⟩, he, rfl⟩ := List.mem_map.1 hl
  obtain ⟨he, hm⟩ := List.mem_filter.1 he
  exact beq_iff_eq.1 hm ▸ he

/-- The listeners that a node has when one has been added to the registry. -/
theorem listeners_listen (r : Registry) (n m : NodeId) (l : Listener) :
    (r.follow (.listen n l)).listeners m =
      if m = n then r.listeners n ++ [l] else r.listeners m := by
  rw [listeners, follow, List.filter_append, List.map_append, ← listeners]
  by_cases hm : m = n
  · simp [hm]
  · simp [beq_false_of_ne (Ne.symm hm), hm]

/-- The listeners that a node has when some have been taken out of the registry. -/
theorem listeners_filter (r : Registry) (keep : NodeId × Listener → Bool) (n : NodeId) :
    Registry.listeners { r with entries := r.entries.filter keep } n =
      (r.listeners n).filter fun l => keep (n, l) := by
  simp only [listeners, List.filter_map, List.filter_filter]
  congr 1
  refine List.filter_congr fun e _ => ?_
  by_cases he : e.1 = n
  · simp [← he]
  · simp [beq_false_of_ne he]

/-! ### Numbers of listeners -/

/-- No two registered listeners have the same number, and all numbers are old. -/
structure Numbered (r : Registry) : Prop where
  nodup : (r.entries.map (·.2.id)).Nodup
  entries_lt {e : NodeId × Listener} : e ∈ r.entries → e.2.id < r.next

theorem numbered_empty : empty.Numbered := ⟨List.nodup_nil, nofun⟩

/-- Fewer entries. -/
theorem Numbered.of_sublist (hr : r.Numbered) {s : Registry}
    (hentries : s.entries.Sublist r.entries) (hnext : s.next = r.next) : s.Numbered :=
  ⟨hr.nodup.sublist (hentries.map _), fun he => hnext ▸ hr.entries_lt (hentries.subset he)⟩

theorem Numbered.follow (hr : r.Numbered) (hh : r.Permits h) : (r.follow h).Numbered := by
  cases h with
  | listen n l =>
    have hl : r.next ≤ l.id := hh
    have hlt : ∀ e ∈ r.entries, e.2.id < l.id := fun e he => (hr.entries_lt he).trans_le hl
    refine ⟨?_, fun {e} he => ?_⟩
    · rw [Registry.follow, List.map_append]
      refine hr.nodup.append (List.nodup_singleton _) fun id hid hid' => ?_
      obtain ⟨e, he, rfl⟩ := List.mem_map.1 hid
      exact (hlt e he).ne (List.mem_singleton.1 hid')
    · rcases List.mem_append.1 he with he | he
      · exact (hlt e he).trans (Nat.lt_succ_self _)
      · rw [List.mem_singleton.1 he]
        exact Nat.lt_succ_self _
  | unlisten | release | reach => exact hr.of_sublist List.filter_sublist rfl
  | invoke | leave => exact hr.of_sublist (List.Sublist.refl _) rfl

theorem Numbered.after (hr : r.Numbered) (hhs : r.Allows hs) : (r.after hs).Numbered := by
  induction hs generalizing r with
  | nil => exact hr
  | cons h hs ih => exact ih (hr.follow hhs.1) hhs.2

/-! ### Listeners that run once -/

/-- The numbers of the listeners that run only once and may still be invoked. -/
def onceDue (r : Registry) : List Nat := onceIds (r.collected ++ r.entries.map Prod.snd)

/-- The listeners that run only once and have been invoked are different from one another and from
those that may still be invoked. -/
structure Once (seen : List Nat) (r : Registry) : Prop where
  nodup : (seen ++ r.onceDue).Nodup
  lt_next {id : Nat} : id ∈ seen ++ r.onceDue → id < r.next

theorem once_empty : Once [] empty := ⟨List.nodup_nil, nofun⟩

theorem Once.of_subperm (hr : Once seen r) {seen' : List Nat} {s : Registry}
    (hdue : (seen' ++ s.onceDue).Subperm (seen ++ r.onceDue)) (hnext : s.next = r.next) :
    Once seen' s := by
  refine ⟨?_, fun hid => hnext ▸ hr.lt_next (hdue.subset hid)⟩
  obtain ⟨ids, hperm, hsublist⟩ := hdue
  exact hperm.nodup_iff.1 (hr.nodup.sublist hsublist)

/-- Collecting the listeners of a node moves those that run only once from the registered ones to
those that are to be invoked. -/
theorem onceDue_reach_perm (r : Registry) (n : NodeId) (event : String) :
    (r.follow (.reach n event ((r.listeners n).filter (·.event == event)))).onceDue.Perm
      r.onceDue := by
  let leaves (e : NodeId × Listener) : Bool := e.1 == n && (e.2.once && e.2.event == event)
  have hcollect : onceIds ((r.listeners n).filter (·.event == event)) =
      onceIds ((r.entries.filter leaves).map Prod.snd) := by
    simp only [onceIds, listeners, List.filter_map, List.filter_filter, leaves]
    congr 3
    funext e
    simp only [Function.comp_apply]
    ac_rfl
  have hentries : (onceIds ((r.entries.filter leaves).map Prod.snd) ++
      onceIds ((r.entries.filter fun e => !leaves e).map Prod.snd)).Perm
        (onceIds (r.entries.map Prod.snd)) := by
    rw [← onceIds_append, ← List.map_append]
    exact (((List.filter_append_perm leaves r.entries).map _).filter _).map _
  have hfollow : (r.follow (.reach n event ((r.listeners n).filter (·.event == event)))).onceDue =
      onceIds ((r.listeners n).filter (·.event == event)) ++ (onceIds r.collected ++
        onceIds ((r.entries.filter fun e => !leaves e).map Prod.snd)) := by
    simp [onceDue, Registry.follow, collected, leaves]
  rw [hfollow, hcollect, onceDue, onceIds_append]
  exact (List.perm_append_comm_assoc _ _ _).trans (hentries.append_left _)

theorem Once.follow (hr : Once seen r) (hh : r.Permits h) :
    Once (seen ++ onceIds h.invoked?.toList) (r.follow h) := by
  cases h with
  | listen n l =>
    have hl : r.next ≤ l.id := hh
    have hdue : seen ++ onceIds [] ++ (r.follow (.listen n l)).onceDue =
        (seen ++ r.onceDue) ++ onceIds [l] := by
      simp [onceDue, Registry.follow, collected, onceIds]
    have hnew : ∀ id ∈ onceIds [l], id = l.id := by
      intro id hid
      obtain ⟨k, hk, rfl⟩ := List.mem_map.1 hid
      rw [List.mem_singleton.1 (List.mem_filter.1 hk).1]
    refine ⟨?_, fun {id} hid => ?_⟩
    · refine hdue ▸ List.Nodup.append hr.nodup ?_ fun id hid hid' => ?_
      · exact ((List.nodup_singleton l).filter _).map_on (by simp)
      · exact absurd (hr.lt_next hid) (by rw [hnew id hid']; omega)
    · rcases List.mem_append.1 (hdue ▸ hid) with hid | hid
      · exact (hr.lt_next hid).trans_le (hl.trans (Nat.le_succ _))
      · exact hnew id hid ▸ Nat.lt_succ_self _
  | unlisten | release =>
    refine hr.of_subperm (List.Sublist.subperm ?_) rfl
    change (seen ++ [] ++ _).Sublist _
    rw [List.append_nil]
    refine (List.Sublist.refl seen).append ((List.Sublist.filter _ ?_).map _)
    exact (List.Sublist.refl _).append (List.filter_sublist.map _)
  | reach n event ls =>
    obtain rfl : ls = _ := hh
    refine hr.of_subperm (List.Perm.subperm ?_) rfl
    change (seen ++ [] ++ _).Perm _
    rw [List.append_nil]
    exact (r.onceDue_reach_perm n event).append_left seen
  | invoke l =>
    obtain ⟨ls, rest, hp⟩ := hh
    have hdue : r.onceDue = onceIds [l] ++ (r.follow (.invoke l)).onceDue := by
      rw [onceDue, onceDue, ← onceIds_append]
      simp [collected, Registry.follow, hp]
    refine hr.of_subperm (List.Perm.subperm (.of_eq ?_)) rfl
    rw [hdue, ← List.append_assoc]
    rfl
  | leave =>
    obtain ⟨rest, hp⟩ := hh
    refine hr.of_subperm (List.Perm.subperm (.of_eq ?_)) rfl
    simp [onceDue, Registry.follow, collected, hp, Occurrence.invoked?, onceIds]

theorem Once.after (hr : Once seen r) (hhs : r.Allows hs) :
    Once (seen ++ onceIds (invoked hs)) (r.after hs) := by
  induction hs generalizing r seen with
  | nil => exact (List.append_nil seen).symm ▸ hr
  | cons h hs ih =>
    have hrest := ih (hr.follow hhs.1) hhs.2
    rwa [invoked_cons, onceIds_append, ← List.append_assoc]

/-- No listener that runs once is invoked twice. -/
theorem nodup_invoked_once (hhs : empty.Allows hs) : (onceIds (invoked hs)).Nodup :=
  (once_empty.after hhs).nodup.of_append_left

/-! ### Listeners that have been removed -/

/-- How often a listener is to be invoked because it has been collected. -/
def due (r : Registry) (id : Nat) : Nat := r.collected.countP (·.id == id)

/-- A listener that had been registered and is not registered any more. -/
structure Gone (r : Registry) (id : Nat) : Prop where
  lt_next : id < r.next
  not_registered {e : NodeId × Listener} : e ∈ r.entries → e.2.id ≠ id

/-- A listener that a node had is gone when it has been removed. -/
theorem Numbered.gone (hr : r.Numbered) {n : NodeId} (hh : r.Permits (.unlisten n id true)) :
    (r.follow (.unlisten n id true)).Gone id := by
  obtain ⟨l, hl, hid⟩ := List.any_eq_true.1 (show (r.listeners n).any (·.id == id) = true from
    hh.symm)
  obtain rfl : l.id = id := beq_iff_eq.1 hid
  have hmem := mem_of_mem_listeners hl
  refine ⟨hr.entries_lt hmem, fun {e} he heq => ?_⟩
  obtain ⟨he, hother⟩ := List.mem_filter.1 he
  obtain rfl : e = (n, l) := List.inj_on_of_nodup_map hr.nodup he hmem heq
  simp at hother

/-- Whatever happens to a listener that is gone: it stays gone, no event collects it, and if it is
invoked then because it had been collected before. -/
theorem Gone.follow (hr : r.Gone id) (hh : r.Permits h) :
    (r.follow h).Gone id ∧ h.invoked?.toList.countP (·.id == id) + (r.follow h).due id =
      r.due id := by
  cases h with
  | listen n l =>
    have hl : r.next ≤ l.id := hh
    have hid := hr.lt_next
    refine ⟨⟨by simp only [Registry.follow]; omega, fun {e} he => ?_⟩, Nat.zero_add _⟩
    rcases List.mem_append.1 he with he | he
    · exact hr.not_registered he
    · rw [List.mem_singleton.1 he]
      simp only
      omega
  | unlisten | release =>
    exact ⟨⟨hr.lt_next, fun he => hr.not_registered (List.mem_of_mem_filter he)⟩, Nat.zero_add _⟩
  | reach n event ls =>
    obtain rfl : ls = _ := hh
    refine ⟨⟨hr.lt_next, fun he => hr.not_registered (List.mem_of_mem_filter he)⟩, ?_⟩
    have hnone : ((r.listeners n).filter (·.event == event)).countP (·.id == id) = 0 :=
      List.countP_eq_zero.2 fun l hl heq => hr.not_registered
        (mem_of_mem_listeners (List.mem_filter.1 hl).1) (beq_iff_eq.1 heq)
    simp [due, collected, Registry.follow, Occurrence.invoked?, List.countP_append, hnone]
  | invoke l =>
    obtain ⟨ls, rest, hp⟩ := hh
    refine ⟨⟨hr.lt_next, hr.not_registered⟩, ?_⟩
    have hdue : r.due id = [l].countP (·.id == id) + (r.follow (.invoke l)).due id := by
      rw [due, due, ← List.countP_append]
      simp [collected, Registry.follow, hp]
    exact hdue.symm
  | leave =>
    obtain ⟨rest, hp⟩ := hh
    refine ⟨⟨hr.lt_next, hr.not_registered⟩, ?_⟩
    simp [due, collected, Registry.follow, Occurrence.invoked?, hp]

theorem Gone.after (hr : r.Gone id) (hhs : r.Allows hs) :
    (r.after hs).Gone id ∧ (invoked hs).countP (·.id == id) + (r.after hs).due id = r.due id := by
  induction hs generalizing r with
  | nil => exact ⟨hr, Nat.zero_add _⟩
  | cons h hs ih =>
    obtain ⟨hfirst, hcount⟩ := hr.follow hhs.1
    obtain ⟨hrest, hcounts⟩ := ih hfirst hhs.2
    refine ⟨hrest, ?_⟩
    rw [invoked_cons, List.countP_append]
    simp only [after, List.foldl_cons] at hcounts ⊢
    omega

/-- No event collects a listener that is gone. -/
theorem Gone.not_collected (hr : r.Gone id) (hhs : r.Allows hs) {n : NodeId} {event : String}
    {ls : List Listener} (hmem : .reach n event ls ∈ hs) {l : Listener} (hl : l ∈ ls) :
    l.id ≠ id := by
  obtain ⟨a, b, rfl⟩ := List.append_of_mem hmem
  obtain ⟨ha, hb⟩ := allows_append.1 hhs
  obtain rfl : ls = _ := hb.1
  exact (hr.after ha).1.not_registered (mem_of_mem_listeners (List.mem_filter.1 hl).1)

end Registry

end LiveMarkup
