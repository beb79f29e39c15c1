import LiveMarkup.Forest.Path
import LiveMarkup.Proofs.Forest.Alike
import LiveMarkup.Proofs.Forest.History
import LiveMarkup.Proofs.Forest.Splicing

/-!
# Paths and places

A path is found by walking up from a node and looking up each place among the children of the
parent; it is followed by walking down by places.  In a sound forest the two are inverse to each
other (`Sound.indicesTo_eq_some_iff`): a node below `root` has exactly one path from there, and no
other node has it.

A path leads from every node that looks like `root`, such as a deep copy of it, to a node that
looks like the target and has the same path; one with the name of an attribute leads to the
attribute node of that name, or nowhere if there is none (`path_spec`).
-/

namespace LiveMarkup.Forest

variable {f g : Forest} {c m n p root : NodeId} {js ks : List ℕ}

/-! ### Walking down -/

theorem follow_append (f : Forest) (n : NodeId) (is js : List ℕ) :
    f.follow n (is ++ js) = (f.follow n is).bind fun m => f.follow m js := by
  induction is generalizing n with
  | nil => rfl
  | cons i is ih =>
    rw [List.cons_append, follow, follow]
    cases (f.children n)[i]? with
    | none => rfl
    | some c => exact ih c

/-- A walk down whose last step is to the child at place `i`. -/
theorem follow_concat {i : ℕ} (h : f.follow root (js ++ [i]) = some n) :
    ∃ p, f.follow root js = some p ∧ (f.children p)[i]? = some n := by
  rw [follow_append] at h
  obtain ⟨p, hp, hn⟩ := Option.bind_eq_some_iff.1 h
  refine ⟨p, hp, ?_⟩
  rw [follow] at hn
  cases hc : (f.children p)[i]? with
  | none =>
    rw [hc] at hn
    cases hn
  | some c =>
    rw [hc] at hn
    exact congrArg some (Option.some.inj hn)

/-- Child indices at the beginning of a path are walked first. -/
theorem descend_map_child (h : f.follow root js = some n) (rest : Path) :
    f.descend root (js.map .child ++ rest) = f.descend n rest := by
  induction js generalizing root with
  | nil =>
    obtain rfl : root = n := Option.some.inj h
    rfl
  | cons j js ih =>
    rw [follow] at h
    cases hj : (f.children root)[j]? with
    | none =>
      rw [hj] at h
      cases h
    | some k =>
      rw [hj] at h
      simp only [List.map_cons, List.cons_append, descend, hj]
      exact ih h

theorem descendAll_singleton {path : Path} {ns : List NodeId} (h : f.descend root path = .ok ns) :
    f.descendAll root [path] = .ok ns := by
  simp [descendAll, h]

theorem descendAll_singleton_error {path : Path} {fault : RenderFault}
    (h : f.descend root path = .error fault) : f.descendAll root [path] = .error fault := by
  simp [descendAll, h]

namespace Sound

variable (hf : f.Sound)

include hf

/-- What is reached by walking down lies below. -/
theorem above_of_follow (h : f.follow root js = some n) : f.Above root n := by
  induction js using List.reverseRecOn generalizing n with
  | nil =>
    obtain rfl : root = n := Option.some.inj h
    exact Above.refl root
  | append_singleton js i ih =>
    obtain ⟨p, hp, hn⟩ := follow_concat h
    exact (ih hp).trans (Above.of_parent (hf.mem_children_iff.1 (List.mem_of_getElem? hn)))

/-- The place of a child is the one at which it is found. -/
theorem indexInParent_of_getElem? {i : ℕ} (h : (f.children p)[i]? = some n) :
    f.parent n = some p ∧ f.indexInParent n = some i := by
  have hmem := List.mem_of_getElem? h
  have hp := hf.mem_children_iff.1 hmem
  refine ⟨hp, ?_⟩
  rw [indexInParent_eq hp hmem, ← (List.getElem?_eq_some_iff.1 h).choose_spec]
  exact congrArg some ((hf.nodup_children p).idxOf_getElem i _)

/-- Only one walk down leads to a node. -/
theorem follow_injective (hj : f.follow root js = some n) (hk : f.follow root ks = some n) :
    js = ks := by
  have hloop : ∀ {i : ℕ} {is : List ℕ}, f.follow root (is ++ [i]) ≠ some root := fun h => by
    obtain ⟨p, hp, hn⟩ := follow_concat h
    exact hf.not_above_of_parent (hf.indexInParent_of_getElem? hn).1 (hf.above_of_follow hp)
  induction js using List.reverseRecOn generalizing n ks with
  | nil =>
    obtain rfl : root = n := Option.some.inj hj
    rcases List.eq_nil_or_concat ks with rfl | ⟨is, i, rfl⟩
    · rfl
    · exact absurd (by simpa using hk) hloop
  | append_singleton js j ih =>
    rcases List.eq_nil_or_concat ks with rfl | ⟨is, i, rfl⟩
    · obtain rfl : root = n := Option.some.inj hk
      exact absurd hj hloop
    · rw [List.concat_eq_append] at hk ⊢
      obtain ⟨p, hp, hn⟩ := follow_concat hj
      obtain ⟨q, hq, hm⟩ := follow_concat hk
      obtain ⟨hparent, hindex⟩ := hf.indexInParent_of_getElem? hn
      obtain ⟨hparent', hindex'⟩ := hf.indexInParent_of_getElem? hm
      obtain rfl : p = q := Option.some.inj (hparent.symm.trans hparent')
      obtain rfl : j = i := Option.some.inj (hindex.symm.trans hindex')
      rw [ih hp hq]

/-! ### Walking up -/

omit hf in
/-- The places found on the way up are the way down. -/
theorem follow_of_indicesTo {fuel : ℕ} {rest is : List ℕ}
    (h : f.indicesTo root fuel n rest = some is) :
    ∃ js, is = js ++ rest ∧ f.follow root js = some n := by
  induction fuel generalizing n rest with
  | zero => cases h
  | succ fuel ih =>
    rw [indicesTo] at h
    split_ifs at h with hn
    · exact ⟨[], (Option.some.inj h).symm, congrArg some hn.symm⟩
    · cases hp : f.parent n with
      | none =>
        rw [hp] at h
        cases h
      | some p =>
        cases hi : f.indexInParent n with
        | none =>
          rw [hp, hi] at h
          cases h
        | some i =>
          rw [hp, hi] at h
          obtain ⟨js, rfl, hjs⟩ := ih h
          refine ⟨js ++ [i], by simp, ?_⟩
          rw [indexInParent, hp] at hi
          obtain ⟨hlt, hget, -⟩ := List.idxOf?_eq_some_iff.1 hi
          rw [follow_append, hjs, Option.bind_some, follow, List.getElem?_eq_getElem hlt, hget]
          rfl

/-- A walk up that passes `root` stops there. -/
theorem isSome_indicesTo {fuel : ℕ} (h : root ∈ f.lineage fuel n) (rest : List ℕ) :
    (f.indicesTo root fuel n rest).isSome = true := by
  induction fuel generalizing n rest with
  | zero => cases h
  | succ fuel ih =>
    rw [indicesTo]
    split_ifs with hn
    · rfl
    · rw [lineage] at h
      rcases List.mem_cons.1 h with rfl | h
      · exact absurd rfl hn
      · cases hp : f.parent n with
        | none =>
          rw [hp] at h
          cases h
        | some p =>
          rw [hp] at h
          rw [indexInParent_eq hp (hf.mem_children_iff.2 hp)]
          exact ih h _

/-- Walking up finds the indices by which walking down comes back. -/
theorem indicesTo_eq_some_iff :
    f.indicesTo root (f.size + 1) n [] = some js ↔ f.follow root js = some n := by
  constructor
  · intro h
    obtain ⟨is, rfl, his⟩ := follow_of_indicesTo h
    rwa [List.append_nil]
  · intro h
    have hlineage := hf.mem_ancestors_iff.2 (hf.above_of_follow h)
    obtain ⟨ks, hks⟩ := Option.isSome_iff_exists.1 (hf.isSome_indicesTo hlineage [])
    obtain ⟨is, rfl, his⟩ := follow_of_indicesTo hks
    rw [hks, List.append_nil, hf.follow_injective h his]

/-- A node has a path from `root` exactly if it lies below; the path is the way down, with the name
of an attribute after it if one is given. -/
theorem pathTo_eq_ok_iff {attr : Option String} {path : Path} :
    f.pathTo n root attr = .ok path ↔
      ∃ js, f.follow root js = some n ∧ path = js.map .child ++ attr.toList.map .attr := by
  rw [pathTo]
  constructor
  · intro h
    split at h
    · next js hjs => exact ⟨js, hf.indicesTo_eq_some_iff.1 hjs, (Except.ok.inj h).symm⟩
    · cases h
  · rintro ⟨js, hjs, rfl⟩
    rw [hf.indicesTo_eq_some_iff.2 hjs]

theorem exists_follow_iff : (∃ js, f.follow root js = some n) ↔ f.contains root n = true := by
  rw [hf.contains_iff]
  refine ⟨fun ⟨js, hjs⟩ => hf.above_of_follow hjs, fun h => ?_⟩
  obtain ⟨js, hjs⟩ :=
    Option.isSome_iff_exists.1 (hf.isSome_indicesTo (hf.mem_ancestors_iff.2 h) [])
  exact ⟨js, hf.indicesTo_eq_some_iff.1 hjs⟩

theorem pathTo_none_iff {path : Path} : f.pathTo n root none = .ok path ↔
    ∃ js, f.follow root js = some n ∧ path = js.map .child := by
  simp only [hf.pathTo_eq_ok_iff, Option.toList_none, List.map_nil, List.append_nil]

theorem exists_pathTo_iff :
    (∃ path, f.pathTo n root none = .ok path) ↔ f.contains root n = true := by
  rw [← hf.exists_follow_iff]
  constructor
  · rintro ⟨path, hpath⟩
    obtain ⟨js, hjs, -⟩ := hf.pathTo_none_iff.1 hpath
    exact ⟨js, hjs⟩
  · rintro ⟨js, hjs⟩
    exact ⟨_, hf.pathTo_none_iff.2 ⟨js, hjs, rfl⟩⟩

/-- No two nodes have the same path. -/
theorem pathTo_injective {path : Path} (hm : f.pathTo m root none = .ok path)
    (hn : f.pathTo n root none = .ok path) : m = n := by
  obtain ⟨js, hjs, rfl⟩ := hf.pathTo_none_iff.1 hm
  obtain ⟨ks, hks, heq⟩ := hf.pathTo_none_iff.1 hn
  obtain rfl : js = ks := List.map_injective_iff.2 (fun _ _ => PathStep.child.inj) heq
  exact Option.some.inj (hjs.symm.trans hks)

/-! ### Attribute nodes -/

/-- The attribute node of a name is the one that the element owns under it. -/
theorem attrNode_eq_some_iff {name : String} {a : NodeId} :
    f.attrNode n name = some a ↔ f.owner a = some n ∧ (f.kind a).attrName = name.toLower := by
  constructor
  · intro h
    obtain ⟨hmem, hname⟩ := of_attrNode_eq_some h
    exact ⟨hf.mem_attributes_iff.1 hmem, hname⟩
  · rintro ⟨howner, hname⟩
    cases hb : f.attrNode n name with
    | none => exact absurd hname (ne_of_attrNode_eq_none hb a (hf.mem_attributes_iff.2 howner))
    | some b =>
      obtain ⟨hmem, hname'⟩ := of_attrNode_eq_some hb
      have howner' := hf.mem_attributes_iff.1 hmem
      rw [hf.eq_of_attrName_eq howner' howner (hname'.trans hname.symm)]

theorem attrNode_eq_none_iff {name : String} :
    f.attrNode n name = none ↔
      ∀ a, f.owner a = some n → (f.kind a).attrName ≠ name.toLower := by
  constructor
  · exact fun h a howner => ne_of_attrNode_eq_none h a (hf.mem_attributes_iff.2 howner)
  · intro h
    cases ha : f.attrNode n name with
    | none => rfl
    | some a =>
      obtain ⟨howner, hname⟩ := hf.attrNode_eq_some_iff.1 ha
      exact absurd hname (h a howner)

end Sound

/-! ### Copies -/

/-- A deep copy of a node is new, and looks like the node. -/
structure DeepCopy (f : Forest) (root : NodeId) (g : Forest) (c : NodeId) : Prop where
  sound : g.Sound
  alike : g.snapshot c = f.snapshot root
  grows : Grows f g
  apart {m : NodeId} : g.contains c m = true → f.size ≤ m

theorem Sound.deepCopy (hf : f.Sound) (root : NodeId) :
    DeepCopy f root (f.copy root true).2 (f.copy root true).1 := by
  have hg := hf.copy root true
  refine ⟨hg, f.snapshot_copy root, f.grows_copy root, fun {m} hm => ?_⟩
  rw [fst_copy, hg.contains_iff] at hm
  by_contra hlt
  exact absurd (lt_size_of_above hf (f.grows_copy root) (Nat.lt_of_not_le hlt) hm)
    (Nat.lt_irrefl _)

/-! ### Following a path -/

/-- A path of child indices only leads to the node that the walk down leads to. -/
theorem descendAll_of_follow (h : f.follow root js = some n) :
    f.descendAll root [js.map .child] = .ok [n] := by
  have hdescend := descend_map_child h []
  rw [List.append_nil, descend] at hdescend
  exact descendAll_singleton hdescend

section Attributes

variable {a : NodeId} {name : String}

/-- The name of an attribute after a path leads to the attribute node of that name. -/
theorem descendAll_attr (h : f.follow root js = some n) (ha : f.attrNode n name = some a) :
    f.descendAll root [js.map .child ++ [.attr name]] = .ok [a] := by
  have hdescend := descend_map_child h [.attr name]
  rw [descend, ha] at hdescend
  exact descendAll_singleton hdescend

/-- The name of an attribute that is not there leads nowhere. -/
theorem descendAll_attr_error (h : f.follow root js = some n) (ha : f.attrNode n name = none) :
    f.descendAll root [js.map .child ++ [.attr name]] = .error (.unresolvable
      ("<" ++ (f.kind n).tag ++ "> has no attribute " ++ Text.quoted name)) := by
  have hdescend := descend_map_child h [.attr name]
  rw [descend, ha] at hdescend
  exact descendAll_singleton_error hdescend

variable (hf : f.Sound) (hg : g.Sound) (hn : f.follow root js = some n)
  (hm : g.follow c js = some m) (halike : g.snapshot m = f.snapshot n)

include hf hg hn hm halike

/-- Where two nodes look alike, the name of an attribute leads to attributes that read the same. -/
theorem descendAll_attr_alike (howner : f.owner a = some n)
    (hname : (f.kind a).attrName = name.toLower) :
    f.descendAll root [js.map .child ++ [.attr name]] = .ok [a] ∧
      ∃ b, g.owner b = some m ∧ g.attrAt b = f.attrAt a ∧
        g.descendAll c [js.map .child ++ [.attr name]] = .ok [b] := by
  have ha := hf.attrNode_eq_some_iff.2 ⟨howner, hname⟩
  have hmap := hf.map_attrNode_alike hg halike name
  rw [ha] at hmap
  obtain ⟨b, hb, hread⟩ := Option.map_eq_some_iff.1 hmap
  exact ⟨descendAll_attr hn ha, b, (hg.attrNode_eq_some_iff.1 hb).1, hread, descendAll_attr hm hb⟩

/-- Where two nodes look alike and have no attribute of a name, it leads nowhere from either. -/
theorem descendAll_attr_error_alike
    (hnone : ∀ a, f.owner a = some n → (f.kind a).attrName ≠ name.toLower) :
    ∃ fault, f.descendAll root [js.map .child ++ [.attr name]] = .error fault ∧
      g.descendAll c [js.map .child ++ [.attr name]] = .error fault := by
  have ha := hf.attrNode_eq_none_iff.2 hnone
  have hb := hf.map_attrNode_alike hg halike name
  rw [ha, Option.map_none, Option.map_eq_none_iff] at hb
  have htag : (g.kind m).tag = (f.kind n).tag := by
    rw [← tag_snapshot, halike, tag_snapshot]
  exact ⟨_, descendAll_attr_error hn ha, htag ▸ descendAll_attr_error hm hb⟩

end Attributes

/-- A node has a path from `root` exactly if it lies in it.  The path has child indices only, leads
to this node, and no other node has it.  From every deep copy of `root` it leads to a node inside
the copy that looks like the node and has the same path.  With the name of an attribute after it, it
leads to the attribute node that the node owns under this name, and from the copy to the copy of
that; if there is none, it leads nowhere from either. -/
theorem path_spec (hf : f.Sound) (root target : NodeId) :
    ((∃ path, f.pathTo target root none = .ok path) ↔ f.contains root target = true) ∧
      DeepCopy f root (f.copy root true).2 (f.copy root true).1 ∧
      ∀ path, f.pathTo target root none = .ok path →
        (∃ js : List ℕ, path = js.map .child) ∧
        f.descendAll root [path] = .ok [target] ∧
        (∀ other, f.pathTo other root none = .ok path → other = target) ∧
        ∀ g c, DeepCopy f root g c →
          ∃ m, f.size ≤ m ∧ g.descendAll c [path] = .ok [m] ∧ g.pathTo m c none = .ok path ∧
            g.snapshot m = f.snapshot target ∧
            ∀ name : String,
              f.pathTo target root (some name) = .ok (path ++ [.attr name]) ∧
              (∀ a, f.owner a = some target → (f.kind a).attrName = name.toLower →
                f.descendAll root [path ++ [.attr name]] = .ok [a] ∧
                ∃ b, g.owner b = some m ∧ g.attrAt b = f.attrAt a ∧
                  g.descendAll c [path ++ [.attr name]] = .ok [b]) ∧
              ((∀ a, f.owner a = some target → (f.kind a).attrName ≠ name.toLower) →
                ∃ fault, f.descendAll root [path ++ [.attr name]] = .error fault ∧
                  g.descendAll c [path ++ [.attr name]] = .error fault) := by
  refine ⟨hf.exists_pathTo_iff, hf.deepCopy root, fun path hpath => ?_⟩
  obtain ⟨js, hjs, rfl⟩ := hf.pathTo_none_iff.1 hpath
  refine ⟨⟨js, rfl⟩, descendAll_of_follow hjs, fun other hother => hf.pathTo_injective hother hpath,
    fun g c hcopy => ?_⟩
  have hg := hcopy.sound
  obtain ⟨m, hm, halike⟩ := hf.exists_follow_alike hg hcopy.alike hjs
  refine ⟨m, hcopy.apart (hg.exists_follow_iff.1 ⟨js, hm⟩), descendAll_of_follow hm,
    hg.pathTo_none_iff.2 ⟨js, hm, rfl⟩, halike, fun name => ⟨?_, fun a => ?_, ?_⟩⟩
  · exact hf.pathTo_eq_ok_iff.2 ⟨js, hjs, rfl⟩
  · exact descendAll_attr_alike hf hg hjs hm halike
  · exact descendAll_attr_error_alike hf hg hjs hm halike

/-- A list with an attribute and an element in its second item. -/
def smallList : List Tree :=
  [.element "ul" [] [.element "li" [] [.text "One"],
    .element "li" [⟨"class", "x"⟩] [.element "b" [] [.text "Two"]]]]

/-- The second item of a list has a path, in the list and in a copy of it. -/
theorem path_spec_smallList :
    let f := (Forest.empty.plantFragment smallList).2
    f.Sound ∧ f.pathTo 4 0 none = .ok [.child 0, .child 1] ∧
      f.descendAll 0 [[.child 0, .child 1]] = .ok [4] ∧
      ∃ m, f.size ≤ m ∧
        (f.copy 0 true).2.descendAll (f.copy 0 true).1 [[.child 0, .child 1]] = .ok [m] := by
  intro f
  have hnamed : Tree.NamedAll smallList := by
    simp only [smallList, Tree.NamedAll, Tree.Named, IsSmall]
    decide +kernel
  have hsound : f.Sound := Sound.empty.plantFragment hnamed
  have hpath : f.pathTo 4 0 none = .ok [.child 0, .child 1] :=
    hsound.pathTo_eq_ok_iff.2 ⟨[0, 1], by decide +kernel, rfl⟩
  obtain ⟨-, hcopy, hspec⟩ := path_spec hsound 0 4
  obtain ⟨-, hdown, -, hcopies⟩ := hspec _ hpath
  obtain ⟨m, hm, hdown', -⟩ := hcopies _ _ hcopy
  exact ⟨hsound, hpath, hdown, m, hm, hdown'⟩

end LiveMarkup.Forest
