import LiveMarkup.Proofs.Forest.Paths

/-!
# Groups in paths

A group in a path stands for its paths, each behind the steps before the group.  So a path expands
to flat ones (`Path.flat`), which have child indices only and at the end perhaps the name of an
attribute, and each of which leads to one node (`reach`).

Following a path is following its expansion: it succeeds exactly if all flat paths lead to nodes
and the way to each group can be walked, and then it gives the nodes of the flat paths in order
(`groups_transparent`).  The way to a group counts on its own because an empty group has no flat
paths.
-/

namespace LiveMarkup

/-- A path without groups. -/
structure FlatPath where
  indices : List ℕ
  attr : Option String
  deriving DecidableEq

namespace FlatPath

/-- The flat path that begins with the child at place `i`. -/
def below (i : ℕ) (p : FlatPath) : FlatPath := ⟨i :: p.indices, p.attr⟩

/-- The steps of a flat path. -/
def path (p : FlatPath) : Path := p.indices.map .child ++ p.attr.toList.map .attr

end FlatPath

namespace Path

mutual

/-- The flat paths that a path stands for, in order.  What follows an attribute or a group counts
for nothing. -/
def flat : Path → List FlatPath
  | [] => [⟨[], none⟩]
  | .child i :: steps => (flat steps).map (.below i)
  | .attr name :: _ => [⟨[], some name⟩]
  | .group paths :: _ => flatAll paths

/-- The flat paths that several paths stand for. -/
def flatAll : List Path → List FlatPath
  | [] => []
  | path :: paths => flat path ++ flatAll paths

end

mutual

/-- The child indices that lead to each group of a path. -/
def groups : Path → List (List ℕ)
  | [] => []
  | .child i :: steps => (groups steps).map (i :: ·)
  | .attr _ :: _ => []
  | .group paths :: _ => [] :: groupsAll paths

/-- The child indices that lead to each group of several paths. -/
def groupsAll : List Path → List (List ℕ)
  | [] => []
  | path :: paths => groups path ++ groupsAll paths

end

end Path

namespace Forest

variable {f : Forest} {n : NodeId}

/-- The node that a flat path leads to: the one at its indices, or the attribute node of that. -/
def reach (f : Forest) (n : NodeId) (p : FlatPath) : Option NodeId :=
  (f.follow n p.indices).bind fun m =>
    match p.attr with
    | some name => f.attrNode m name
    | none => some m

/-- Child indices can be walked from a node. -/
def Walkable (f : Forest) (n : NodeId) (js : List ℕ) : Prop := ∃ m, f.follow n js = some m

/-! ### The first step -/

theorem follow_cons (f : Forest) (n : NodeId) (i : ℕ) (js : List ℕ) :
    f.follow n (i :: js) = ((f.children n)[i]?).bind fun c => f.follow c js := by
  rw [follow]
  cases (f.children n)[i]? <;> rfl

theorem reach_below (f : Forest) (n : NodeId) (i : ℕ) (p : FlatPath) :
    f.reach n (.below i p) = ((f.children n)[i]?).bind fun c => f.reach c p := by
  rw [reach, FlatPath.below, follow_cons, Option.bind_assoc]
  rfl

theorem map_reach_below {i : ℕ} {c : NodeId} (hc : (f.children n)[i]? = some c)
    (ps : List FlatPath) : (ps.map (.below i)).map (f.reach n) = ps.map (f.reach c) := by
  rw [List.map_map]
  refine List.map_congr_left fun p _ => ?_
  rw [Function.comp_apply, reach_below, hc, Option.bind_some]

theorem walkable_cons_iff {i : ℕ} {c : NodeId} (hc : (f.children n)[i]? = some c) (js : List ℕ) :
    f.Walkable n (i :: js) ↔ f.Walkable c js := by
  rw [Walkable, follow_cons, hc, Option.bind_some, Walkable]

/-- A path that stands for no flat path has a group. -/
theorem exists_mem_groups_of_flat_eq_nil {path : Path} (h : path.flat = []) :
    ∃ js, js ∈ path.groups := by
  induction path with
  | nil => simp [Path.flat] at h
  | cons step steps ih =>
    cases step with
    | child i =>
      rw [Path.flat, List.map_eq_nil_iff] at h
      obtain ⟨js, hjs⟩ := ih h
      rw [Path.groups]
      exact ⟨i :: js, List.mem_map_of_mem hjs⟩
    | attr name => simp [Path.flat] at h
    | group paths =>
      rw [Path.groups]
      exact ⟨[], List.mem_cons_self⟩

/-! ### Following a path -/

/-- The way to each group can be walked, and the flat paths lead to the nodes, in order. -/
def Reaches (f : Forest) (n : NodeId) (groups : List (List ℕ)) (flat : List FlatPath)
    (ns : List NodeId) : Prop :=
  (∀ js ∈ groups, f.Walkable n js) ∧ flat.map (f.reach n) = ns.map some

theorem reaches_child_iff {i : ℕ} {c : NodeId} (hc : (f.children n)[i]? = some c) {steps : Path}
    {ns : List NodeId} :
    f.Reaches n (Path.groups (.child i :: steps)) (Path.flat (.child i :: steps)) ns ↔
      f.Reaches c steps.groups steps.flat ns := by
  rw [Reaches, Path.groups, Path.flat, List.forall_mem_map, map_reach_below hc]
  exact and_congr_left fun _ => forall₂_congr fun js _ => walkable_cons_iff hc js

/-- Where a child is missing, a path that begins with it cannot be followed: it has a flat path, or
else a group. -/
theorem not_reaches_child {i : ℕ} (hc : (f.children n)[i]? = none) {steps : Path}
    {ns : List NodeId} :
    ¬ f.Reaches n (Path.groups (.child i :: steps)) (Path.flat (.child i :: steps)) ns := by
  rintro ⟨hgroups, hflat⟩
  rw [Path.groups, List.forall_mem_map] at hgroups
  have hempty : steps.flat = [] := by
    by_contra hne
    obtain ⟨p, ps, hps⟩ := List.exists_cons_of_ne_nil hne
    rw [Path.flat, hps, List.map_cons, List.map_cons, reach_below, hc, Option.bind_none] at hflat
    cases ns <;> cases hflat
  obtain ⟨js, hjs⟩ := exists_mem_groups_of_flat_eq_nil hempty
  obtain ⟨m, hm⟩ := hgroups js hjs
  rw [follow_cons, hc] at hm
  cases hm

theorem reaches_append_iff {gs gs' : List (List ℕ)} {ps ps' : List FlatPath} {ns : List NodeId} :
    f.Reaches n (gs ++ gs') (ps ++ ps') ns ↔
      ∃ ms ms', f.Reaches n gs ps ms ∧ f.Reaches n gs' ps' ms' ∧ ms ++ ms' = ns := by
  rw [Reaches, List.forall_mem_append, List.map_append, List.append_eq_map_iff]
  constructor
  · rintro ⟨⟨hg, hg'⟩, ms, ms', rfl, hms, hms'⟩
    exact ⟨ms, ms', ⟨hg, hms.symm⟩, ⟨hg', hms'.symm⟩, rfl⟩
  · rintro ⟨ms, ms', ⟨hg, hms⟩, ⟨hg', hms'⟩, rfl⟩
    exact ⟨⟨hg, hg'⟩, ms, ms', rfl, hms.symm, hms'.symm⟩

/-- What a list of paths gives is what its first path gives, followed by what the others give. -/
theorem descendAll_cons_eq_ok_iff {path : Path} {paths : List Path} {ns : List NodeId} :
    f.descendAll n (path :: paths) = .ok ns ↔
      ∃ ms ms', f.descend n path = .ok ms ∧ f.descendAll n paths = .ok ms' ∧ ms ++ ms' = ns := by
  rw [descendAll]
  cases f.descend n path with
  | error fault => simp
  | ok ms => cases f.descendAll n paths <;> simp

mutual

/-- Following a path is following the flat paths that it stands for. -/
theorem descend_eq_ok_iff (f : Forest) (n : NodeId) : ∀ (path : Path) (ns : List NodeId),
    f.descend n path = .ok ns ↔ f.Reaches n path.groups path.flat ns
  | [], ns => by
    cases ns <;> simp [descend, Reaches, Path.groups, Path.flat, reach, follow]
  | .child i :: steps, ns => by
    rw [descend]
    cases hc : (f.children n)[i]? with
    | none => simpa using not_reaches_child hc
    | some c => exact (descend_eq_ok_iff f c steps ns).trans (reaches_child_iff hc).symm
  | .attr name :: steps, ns => by
    rw [descend]
    cases ha : f.attrNode n name <;> cases ns <;>
      simp [Reaches, Path.groups, Path.flat, reach, follow, ha]
  | .group paths :: steps, ns => by
    rw [descend, descendAll_eq_ok_iff f n paths ns]
    simp [Reaches, Path.groups, Path.flat, Walkable, follow]

/-- Following several paths is following the flat paths that they stand for. -/
theorem descendAll_eq_ok_iff (f : Forest) (n : NodeId) : ∀ (paths : List Path) (ns : List NodeId),
    f.descendAll n paths = .ok ns ↔ f.Reaches n (Path.groupsAll paths) (Path.flatAll paths) ns
  | [], ns => by
    cases ns <;> simp [descendAll, Reaches, Path.groupsAll, Path.flatAll]
  | path :: paths, ns => by
    rw [descendAll_cons_eq_ok_iff, Path.groupsAll, Path.flatAll, reaches_append_iff]
    exact exists₂_congr fun ms ms' => and_congr (descend_eq_ok_iff f n path ms)
      (and_congr_left' (descendAll_eq_ok_iff f n paths ms'))

end

/-! ### Flat paths and lists of paths -/

/-- A flat path stands for itself, and has no groups. -/
theorem flat_path (p : FlatPath) : p.path.flat = [p] ∧ p.path.groups = [] := by
  obtain ⟨js, attr⟩ := p
  induction js with
  | nil => cases attr <;> simp [FlatPath.path, Path.flat, Path.groups]
  | cons j js ih =>
    have hpath : FlatPath.path ⟨j :: js, attr⟩ = .child j :: FlatPath.path ⟨js, attr⟩ := rfl
    rw [hpath, Path.flat, Path.groups, ih.1, ih.2]
    exact ⟨rfl, rfl⟩

/-- One path on its own is followed as it is. -/
theorem descendAll_singleton_eq (f : Forest) (n : NodeId) (path : Path) :
    f.descendAll n [path] = f.descend n path := by
  cases h : f.descend n path with
  | ok ns => exact descendAll_singleton h
  | error fault => exact descendAll_singleton_error h

theorem descendAll_path_eq_ok_iff {p : FlatPath} {m : NodeId} :
    f.descendAll n [p.path] = .ok [m] ↔ f.reach n p = some m := by
  rw [descendAll_singleton_eq, descend_eq_ok_iff, (flat_path p).1, (flat_path p).2]
  simp [Reaches]

/-- Several paths give one after the other what each of them gives, up to the first that leads
nowhere. -/
theorem descendAll_eq_flatten (f : Forest) (n : NodeId) (paths : List Path) :
    f.descendAll n paths = List.flatten <$> paths.mapM fun path => f.descendAll n [path] := by
  simp only [descendAll_singleton_eq]
  induction paths with
  | nil =>
    rw [descendAll]
    rfl
  | cons path paths ih =>
    rw [descendAll, ih, List.mapM_cons]
    cases f.descend n path with
    | error fault => rfl
    | ok ms => cases paths.mapM (f.descend n) <;> rfl

/-- All of several things lead to nodes exactly if there is a list of these nodes. -/
theorem exists_map_eq_map_some_iff {α β : Type} {g : α → Option β} {as : List α} :
    (∃ bs : List β, as.map g = bs.map some) ↔ ∀ a ∈ as, ∃ b, g a = some b := by
  induction as with
  | nil => exact ⟨fun _ => by simp, fun _ => ⟨[], rfl⟩⟩
  | cons a as ih =>
    rw [List.forall_mem_cons, ← ih]
    constructor
    · rintro ⟨_ | ⟨b, bs⟩, h⟩
      · cases h
      · obtain ⟨hb, hbs⟩ := List.cons.inj h
        exact ⟨⟨b, hb⟩, bs, hbs⟩
    · rintro ⟨⟨b, hb⟩, bs, hbs⟩
      exact ⟨b :: bs, by rw [List.map_cons, List.map_cons, hb, hbs]⟩

/-! ### Groups are transparent -/

/-- A path can be followed exactly if the way to each group in it can be walked and each flat path
that it stands for leads to a node; then it gives these nodes in order.  A flat path on its own
gives the one node that it leads to, and several paths give, one after the other, what each of them
gives. -/
theorem groups_transparent (f : Forest) (root : NodeId) :
    (∀ path : Path, (∃ ns, f.descendAll root [path] = .ok ns) ↔
      (∀ js ∈ path.groups, f.Walkable root js) ∧ ∀ p ∈ path.flat, ∃ m, f.reach root p = some m) ∧
    (∀ (path : Path) (ns : List NodeId), f.descendAll root [path] = .ok ns ↔
      (∀ js ∈ path.groups, f.Walkable root js) ∧ path.flat.map (f.reach root) = ns.map some) ∧
    (∀ (p : FlatPath) (m : NodeId), f.descendAll root [p.path] = .ok [m] ↔
      f.reach root p = some m) ∧
    ∀ paths : List Path, f.descendAll root paths =
      List.flatten <$> paths.mapM fun path => f.descendAll root [path] := by
  have hexact : ∀ (path : Path) (ns : List NodeId), f.descendAll root [path] = .ok ns ↔
      (∀ js ∈ path.groups, f.Walkable root js) ∧ path.flat.map (f.reach root) = ns.map some := by
    intro path ns
    rw [descendAll_singleton_eq, descend_eq_ok_iff, Reaches]
  refine ⟨fun path => ?_, hexact, fun p m => descendAll_path_eq_ok_iff,
    descendAll_eq_flatten f root⟩
  simp only [hexact, exists_and_left, exists_map_eq_map_some_iff]

/-- A group inside a group, with an empty group beside it, at the items of a small list. -/
def nestedGroups : Path :=
  [.child 0, .group [[.child 1, .group [[.attr "class"], [.child 0, .child 0]], .child 7],
    [.child 0, .group []]]]

theorem groups_transparent_smallList :
    let f := (Forest.empty.plantFragment smallList).2
    nestedGroups.groups = [[0], [0, 1], [0, 0]] ∧
      nestedGroups.flat = [⟨[0, 1], some "class"⟩, ⟨[0, 1, 0, 0], none⟩] ∧
      f.descendAll 0 [nestedGroups] = .ok [5, 7] ∧
      ¬ ∃ ns, f.descendAll 0 [[.child 5, .group []]] = .ok ns := by
  intro f
  obtain ⟨hexists, hexact, -⟩ := groups_transparent f 0
  have hgroups : nestedGroups.groups = [[0], [0, 1], [0, 0]] := by decide +kernel
  have hflat : nestedGroups.flat = [⟨[0, 1], some "class"⟩, ⟨[0, 1, 0, 0], none⟩] := by
    decide +kernel
  have hwalk : ∀ js ∈ nestedGroups.groups, (f.follow 0 js).isSome = true := by decide +kernel
  refine ⟨hgroups, hflat, (hexact _ _).2 ⟨fun js hjs => Option.isSome_iff_exists.1 (hwalk js hjs),
    by decide +kernel⟩, ?_⟩
  rw [hexists]
  rintro ⟨hwalk, -⟩
  obtain ⟨m, hm⟩ := hwalk [5] (by decide +kernel)
  have hmissing : f.follow 0 [5] = none := by decide +kernel
  rw [hmissing] at hm
  cases hm

end Forest

end LiveMarkup
