import LiveMarkup.Proofs.Forest.Insertion

/-!
# The order of replacements

A replacement puts the listed nodes before the node that is replaced, one after the other, and takes
that node away at the end unless it is listed itself.  Siblings that are listed leave their old
places, and a fragment brings its children along (`Sound.children_insertEach`).

A node that is listed among its own replacements is passed over and stays behind all the others,
those that are listed after it included.  So the order is that of the list exactly if nothing that
is listed after the node brings anything along (`Sound.replaceWith_order`).
-/

namespace LiveMarkup.Forest

variable {f g h : Forest} {m n p v w : NodeId} {as bs cs ns : List NodeId}

/-! ### Lists without some nodes -/

theorem filter_notMem_cons :
    (cs.filter (· != v)).filter (· ∉ ns) = cs.filter (· ∉ v :: ns) := by
  rw [List.filter_filter]
  refine List.filter_congr fun c _ => ?_
  by_cases hc : c = v <;> simp [hc]

theorem filter_notMem_cons_of_notMem (hv : v ∉ cs) :
    cs.filter (· ∉ v :: ns) = cs.filter (· ∉ ns) := by
  refine List.filter_congr fun c hc => ?_
  have hne : c ≠ v := by
    rintro rfl
    exact hv hc
  simp [hne]

/-- A node stands before and after a list that it is not in only if the list is empty. -/
theorem append_singleton_eq_cons_iff (hn : n ∉ cs) : cs ++ [n] = n :: cs ↔ cs = [] := by
  constructor
  · intro heq
    cases cs with
    | nil => rfl
    | cons c cs =>
      rw [List.cons_append, List.cons.injEq] at heq
      exact absurd (heq.1 ▸ List.mem_cons_self) hn
  · rintro rfl
    rfl

/-- The children `as` and `bs` around a node in whose place `ns` have been put in their order. -/
def inOrder (f : Forest) (as ns bs : List NodeId) : List NodeId :=
  as.filter (· ∉ ns) ++ ns.flatMap f.brings ++ bs.filter (· ∉ ns)

/-! ### Insertion one after the other -/

/-- No listed node is in a fragment that is listed. -/
def Unnested (f : Forest) (ns : List NodeId) : Prop :=
  ∀ v ∈ ns, f.kind v = .fragment → ∀ c ∈ f.children v, c ∉ ns

theorem Unnested.notMem_brings (hout : f.Unnested (v :: ns)) (hd : (v :: ns).Nodup)
    (hm : m ∈ f.brings v) : m ∉ ns := by
  unfold brings at hm
  split_ifs at hm with hv
  · exact fun hin => hout v List.mem_cons_self hv m hm (List.mem_cons_of_mem _ hin)
  · exact List.mem_singleton.1 hm ▸ (List.nodup_cons.1 hd).1

namespace Sound

variable (hf : f.Sound)

include hf

/-- A fragment that is listed later keeps its children while `v` is inserted. -/
theorem children_eq_of_inserts (hout : f.Unnested (v :: ns)) (hd : (v :: ns).Nodup)
    (hp : p ∉ v :: ns) (hg : Inserts f g p v as bs) (hw : w ∈ ns) (hfr : f.kind w = .fragment) :
    g.children w = f.children w := by
  have hin : w ∈ v :: ns := List.mem_cons_of_mem _ hw
  have hwp : w ≠ p := by
    rintro rfl
    exact hp hin
  have hwv : w ≠ v := by
    rintro rfl
    exact (List.nodup_cons.1 hd).1 hw
  refine hg.children_other hwp (fun hparent => ?_) fun _ => hwv
  exact hout w hin hfr v (hf.mem_children_iff.2 hparent) List.mem_cons_self

theorem brings_eq_of_inserts (hout : f.Unnested (v :: ns)) (hd : (v :: ns).Nodup)
    (hp : p ∉ v :: ns) (hg : Inserts f g p v as bs) (hkind : ∀ m, g.kind m = f.kind m)
    (hw : w ∈ ns) : g.brings w = f.brings w := by
  unfold brings
  rw [hkind]
  split_ifs with hfr
  · exact hf.children_eq_of_inserts hout hd hp hg hw hfr
  · rfl

theorem unnested_of_inserts (hout : f.Unnested (v :: ns)) (hd : (v :: ns).Nodup)
    (hp : p ∉ v :: ns) (hg : Inserts f g p v as bs) (hkind : ∀ m, g.kind m = f.kind m) :
    g.Unnested ns := by
  intro w hw hfr c hc hin
  rw [hkind] at hfr
  rw [hf.children_eq_of_inserts hout hd hp hg hw hfr] at hc
  exact hout w (List.mem_cons_of_mem _ hw) hfr c hc (List.mem_cons_of_mem _ hin)

/-- What was not refused did its work before the anchor. -/
theorem inserts_of_ok (hv : v < f.size) (hvn : v ≠ n) (hc : f.children p = as ++ n :: bs)
    (h : f.insertBefore p v (some n) = (.ok (), g)) : Inserts f g p v as (n :: bs) := by
  have hnot : ¬ f.Refuses p v (some n) := by
    intro hrefuses
    obtain ⟨fault, -, hfault⟩ := hf.insertBefore_of_refuses hrefuses
    rw [hfault] at h
    cases (Prod.mk.inj h).1
  obtain ⟨g', hg', hinserts⟩ := hf.inserts_of_cut hv hnot hc (.before hvn.symm as bs)
  rw [h] at hg'
  exact (Prod.mk.inj hg').2 ▸ hinserts

/-- Nodes cannot all be inserted into `p` if `p` is one of them. -/
theorem notMem_of_insertEach (hlt : ∀ v ∈ ns, v < f.size) (hpn : p ≠ n)
    (h : f.insertEach p n ns = (.ok (), g)) : p ∉ ns := by
  induction ns generalizing f with
  | nil => exact List.not_mem_nil
  | cons v ns ih =>
    obtain ⟨hv, hrest⟩ := List.forall_mem_cons.1 hlt
    rw [Forest.insertEach] at h
    split_ifs at h with hvn
    · have hpv : p ≠ v := hvn ▸ hpn
      exact List.not_mem_cons_of_ne_of_not_mem hpv (ih hf hrest h)
    · have hs := hf.insertBefore hv p (some n)
      have hsize := (insertBefore_frame (f := f) p v (some n)).1
      split at h
      · next f' heq =>
        rw [heq] at hs hsize
        have hpv : p ≠ v := by
          rintro rfl
          have hself : f.Refuses p p (some n) := Or.inr (Or.inr (Or.inl (Above.refl p)))
          obtain ⟨fault, -, hfault⟩ := hf.insertBefore_of_refuses hself
          rw [heq] at hfault
          cases (Prod.mk.inj hfault).1
        refine List.not_mem_cons_of_ne_of_not_mem hpv (ih hs (fun w hw => ?_) h)
        exact (hrest w hw).trans_eq hsize.symm
      · next hrefused => exact absurd h (hrefused g)

/-- Inserting the listed nodes before `n` puts what they bring along before `n`, in the order of the
list, and takes them out of the rest of the children. -/
theorem children_insertEach (hd : ns.Nodup) (hlt : ∀ v ∈ ns, v < f.size) (hout : f.Unnested ns)
    (hp : p ∉ ns) (hc : f.children p = as ++ n :: bs) (h : f.insertEach p n ns = (.ok (), g)) :
    g.children p =
      as.filter (· ∉ ns) ++ (ns.filter (· != n)).flatMap f.brings ++ n :: bs.filter (· ∉ ns) := by
  -- What stands before the anchor grows at its end, so it is part of the induction.
  induction ns generalizing f as bs with
  | nil =>
    obtain rfl : f = g := (Prod.mk.inj h).2
    simpa using hc
  | cons v ns ih =>
    obtain ⟨hv, hrest⟩ := List.forall_mem_cons.1 hlt
    have hd' : ns.Nodup := (List.nodup_cons.1 hd).2
    have hp' : p ∉ ns := fun hin => hp (List.mem_cons_of_mem _ hin)
    rw [Forest.insertEach] at h
    split_ifs at h with hvn
    · subst hvn
      obtain ⟨has, hbs⟩ := hf.notMem_of_children_eq hc
      have hout' : f.Unnested ns := fun w hw hfr c hcw hin =>
        hout w (List.mem_cons_of_mem _ hw) hfr c hcw (List.mem_cons_of_mem _ hin)
      rw [ih hf hd' hrest hout' hp' hc h, filter_notMem_cons_of_notMem has,
        filter_notMem_cons_of_notMem hbs, List.filter_cons_of_neg (by simp)]
    · have hs := hf.insertBefore hv p (some n)
      obtain ⟨hsize, hkind⟩ := insertBefore_frame (f := f) p v (some n)
      split at h
      · next f' heq =>
        rw [heq] at hs hsize hkind
        have hins : Inserts f f' p v as (n :: bs) := hf.inserts_of_ok hv hvn hc heq
        have hc' : f'.children p =
            (as.filter (· != v) ++ f.brings v) ++ n :: bs.filter (· != v) := by
          rw [hins.children_eq, List.filter_cons_of_pos (by simpa using Ne.symm hvn)]
        have hbrought : (f.brings v).filter (· ∉ ns) = f.brings v :=
          List.filter_eq_self.2 fun m hm => by simpa using hout.notMem_brings hd hm
        have hlater : (ns.filter (· != n)).flatMap f'.brings =
            (ns.filter (· != n)).flatMap f.brings :=
          List.flatMap_congr fun w hw =>
            hf.brings_eq_of_inserts hout hd hp hins hkind (List.mem_filter.1 hw).1
        rw [ih hs hd' (fun w hw => (hrest w hw).trans_eq hsize.symm)
          (hf.unnested_of_inserts hout hd hp hins hkind) hp' hc' h, hlater, List.filter_append,
          filter_notMem_cons, filter_notMem_cons, hbrought,
          List.filter_cons_of_pos (by simpa using hvn), List.flatMap_cons]
        simp only [List.append_assoc]
      · next hrefused => exact absurd h (hrefused g)

/-! ### Replacement -/

theorem children_replaceWith (hn : f.parent n = some p) (hd : ns.Nodup)
    (hlt : ∀ v ∈ ns, v < f.size) (hout : f.Unnested ns) (hc : f.children p = as ++ n :: bs)
    (h : f.replaceWith n ns = (.ok (), g)) :
    g.children p = as.filter (· ∉ ns) ++ (ns.filter (· != n)).flatMap f.brings ++
        (if n ∈ ns then [n] else []) ++ bs.filter (· ∉ ns) ∧
      (g.parent n = none ↔ n ∉ ns) := by
  have hpn : p ≠ n := by
    rintro rfl
    exact hf.not_above_of_parent hn (Above.refl p)
  simp only [Forest.replaceWith, hn] at h
  split at h
  · next f' heq =>
    have hp : p ∉ ns := hf.notMem_of_insertEach hlt hpn heq
    have hs : f'.Sound := by
      have hsound := hf.insertEach p n hlt
      rwa [heq] at hsound
    have hchildren := hf.children_insertEach hd hlt hout hp hc heq
    have hg := (Prod.mk.inj h).2
    by_cases hself : n ∈ ns
    · rw [if_pos (List.contains_iff_mem.2 hself)] at hg
      subst hg
      have hparent : f'.parent n = some p := hs.mem_children_iff.1 (hchildren ▸ by simp)
      refine ⟨?_, by simp [hparent, hself]⟩
      rw [hchildren, if_pos hself, List.append_assoc _ [n], List.singleton_append]
    · rw [if_neg (by simpa using hself)] at hg
      subst hg
      obtain ⟨hleft, hright⟩ := hs.notMem_of_children_eq hchildren
      refine ⟨?_, by simp [parent_detach, hself]⟩
      rw [hs.children_detach_eq, hchildren, if_neg hself, filter_eq_replaced,
        replaced_append_cons hleft hright]
  · next hrefused => exact absurd h (hrefused g)

/-- A node that is listed is not in what the other listed nodes bring along. -/
theorem notMem_flatMap_brings {ys : List NodeId} (hout : f.Unnested ns) (hn : n ∈ ns)
    (hys : ys ⊆ ns) (hny : n ∉ ys) : n ∉ ys.flatMap f.brings := by
  intro hin
  obtain ⟨w, hw, hnw⟩ := List.mem_flatMap.1 hin
  rcases hf.parent_of_mem_brings hnw with ⟨rfl, -⟩ | ⟨hparent, hfr⟩
  · exact hny hw
  · exact hout w (hys hw) hfr n (hf.mem_children_iff.2 hparent) hn

/-- A replacement that succeeds puts what the listed nodes bring along in the place of `n`, in the
order of the list, but `n` itself, if it is listed, after all the others; `n` loses its parent
exactly if it is not listed.  So the children are in the order of the list if `n` is not listed, and
otherwise exactly if nothing that is listed after `n` brings anything along. -/
theorem replaceWith_order (hn : f.parent n = some p) (hd : ns.Nodup) (hlt : ∀ v ∈ ns, v < f.size)
    (hout : f.Unnested ns) (hc : f.children p = as ++ n :: bs)
    (h : f.replaceWith n ns = (.ok (), g)) :
    g.children p = as.filter (· ∉ ns) ++ (ns.filter (· != n)).flatMap f.brings ++
        (if n ∈ ns then [n] else []) ++ bs.filter (· ∉ ns) ∧
      (g.parent n = none ↔ n ∉ ns) ∧
      (n ∉ ns → g.children p = f.inOrder as ns bs) ∧
      (∀ xs ys, ns = xs ++ n :: ys →
        (g.children p = f.inOrder as ns bs ↔ ys.flatMap f.brings = [])) := by
  obtain ⟨hchildren, hparent⟩ := hf.children_replaceWith hn hd hlt hout hc h
  refine ⟨hchildren, hparent, fun hself => ?_, ?_⟩
  · have hall : ns.filter (· != n) = ns := by
      rw [filter_eq_replaced, replaced_of_not_mem hself]
    rw [hchildren, hall, if_neg hself, List.append_nil, inOrder]
  · rintro xs ys rfl
    have hself : n ∈ xs ++ n :: ys := by simp
    obtain ⟨-, hright, hdisjoint⟩ := List.nodup_append.1 hd
    have hnx : n ∉ xs := fun hin => hdisjoint n hin n List.mem_cons_self rfl
    have hny : n ∉ ys := (List.nodup_cons.1 hright).1
    have hself' : f.brings n = [n] := if_neg (hf.ne_fragment_of_parent hn)
    have hothers : (xs ++ n :: ys).filter (· != n) = xs ++ ys := by
      rw [filter_eq_replaced, replaced_append_cons hnx hny, List.append_nil]
    have hbrought : n ∉ ys.flatMap f.brings :=
      hf.notMem_flatMap_brings hout hself (fun w hw => by simp [hw]) hny
    -- Both orders have the same nodes around `n` and what is listed after it.
    rw [← append_singleton_eq_cons_iff hbrought, hchildren, inOrder, hothers, if_pos hself,
      List.flatMap_append, List.flatMap_append, List.flatMap_cons, hself']
    simp only [List.append_assoc, List.append_cancel_left_eq]
    rw [← List.append_assoc, ← List.append_assoc [n], List.append_cancel_right_eq,
      List.singleton_append]

end Sound

/-- Two texts in a paragraph. -/
def twoTexts : List Operation :=
  [.element "p", .text "a", .text "b", .append 0 1, .append 0 2]

theorem replaceWith_order_new :
    ∃ f g : Forest, f.Sound ∧ f.parent 1 = some 0 ∧ f.Unnested [2, 3] ∧
      f.children 0 = [] ++ 1 :: [2] ∧ f.replaceWith 1 [2, 3] = (.ok (), g) ∧
      g.children 0 = [2, 3] ∧ g.parent 1 = none := by
  have hf : (Forest.empty.performAll (twoTexts ++ [.text "c"])).Sound :=
    Sound.empty.performAll (by decide +kernel)
  have hn : (Forest.empty.performAll (twoTexts ++ [.text "c"])).parent 1 = some 0 := by
    decide +kernel
  have hout : (Forest.empty.performAll (twoTexts ++ [.text "c"])).Unnested [2, 3] := by
    unfold Unnested
    decide +kernel
  have hc : (Forest.empty.performAll (twoTexts ++ [.text "c"])).children 0 = [] ++ 1 :: [2] := by
    decide +kernel
  have hok : ((Forest.empty.performAll (twoTexts ++ [.text "c"])).replaceWith 1 [2, 3]).1 =
      .ok () := by
    decide +kernel
  have h := Prod.ext hok rfl
  obtain ⟨-, hparent, horder, -⟩ :=
    hf.replaceWith_order hn (by decide) (by decide +kernel) hout hc h
  have hbrings : (Forest.empty.performAll (twoTexts ++ [.text "c"])).inOrder [] [2, 3] [2] =
      [2, 3] := by
    decide +kernel
  exact ⟨_, _, hf, hn, hout, hc, h, (horder (by decide)).trans hbrings, hparent.2 (by decide)⟩

/-- A text that is replaced by itself and the text that follows it ends up behind that text. -/
theorem replaceWith_self_first :
    ∃ f g : Forest, f.Sound ∧ f.parent 1 = some 0 ∧ f.Unnested [1, 2] ∧
      f.children 0 = [] ++ 1 :: [2] ∧ f.replaceWith 1 [1, 2] = (.ok (), g) ∧
      f.inOrder [] [1, 2] [2] = [1, 2] ∧ g.children 0 = [2, 1] := by
  have hf : (Forest.empty.performAll twoTexts).Sound := Sound.empty.performAll (by decide +kernel)
  have hout : (Forest.empty.performAll twoTexts).Unnested [1, 2] := by
    unfold Unnested
    decide +kernel
  have hok : ((Forest.empty.performAll twoTexts).replaceWith 1 [1, 2]).1 = .ok () := by
    decide +kernel
  exact ⟨_, _, hf, by decide +kernel, hout, by decide +kernel, Prod.ext hok rfl,
    by decide +kernel, by decide +kernel⟩

end LiveMarkup.Forest
