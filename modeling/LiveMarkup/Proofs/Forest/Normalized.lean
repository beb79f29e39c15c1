import Mathlib.Data.List.SplitBy
import Mathlib.Data.List.TakeWhile
import LiveMarkup.Proofs.Forest.History
import LiveMarkup.Proofs.Forest.Joining
import LiveMarkup.Proofs.Forest.Subtrees
import LiveMarkup.Proofs.Markup.Outline
import LiveMarkup.Proofs.Markup.Shapes

/-!
# Normalized forests

Joining the texts below a node takes each run of texts (`Forest.runs`) together in its first node,
or takes it out altogether if it has no characters, and leaves every other node as it was
(`Forest.Sound.textsJoined_normalize`).

Two descriptions of the joining meet here.  `Forest.TextEdits` is what each of its steps keeps,
whatever the forest looks like; the layout of the joined trees (`HoldsBelow.normalize`), taken to
every node below (`Sound.exists_joined`), says what the lists of children have become.  A forest in
which no text is empty or next to another (`Forest.Separated`) stays as it is
(`Sound.normalize_eq_self`).
-/

namespace LiveMarkup.Forest

variable {f g k : Forest} {m n p : NodeId}

/-! ### What joining texts keeps -/

/-- From `f` to `g` texts have been written to and taken out, and nothing else has happened. -/
structure TextEdits (f g : Forest) : Prop where
  kind_eq (m : NodeId) : g.kind m = f.kind m
  cell_eq {m : NodeId} : f.kind m ≠ .text → g.cell m = { f.cell m with children := g.children m }
  children_sublist (p : NodeId) : (g.children p).Sublist (f.children p)
  others_eq (p : NodeId) :
    (g.children p).filter (f.kind · ≠ .text) = (f.children p).filter (f.kind · ≠ .text)

namespace TextEdits

theorem refl (f : Forest) : TextEdits f f :=
  ⟨fun _ => rfl, fun _ => rfl, fun _ => List.Sublist.refl _, fun _ => rfl⟩

theorem trans (hfg : TextEdits f g) (hgk : TextEdits g k) : TextEdits f k where
  kind_eq m := (hgk.kind_eq m).trans (hfg.kind_eq m)
  cell_eq hm := by rw [hgk.cell_eq (by rwa [hfg.kind_eq]), hfg.cell_eq hm]
  children_sublist p := (hgk.children_sublist p).trans (hfg.children_sublist p)
  others_eq p := by
    have hlast := hgk.others_eq p
    simp only [hfg.kind_eq] at hlast
    exact hlast.trans (hfg.others_eq p)

theorem writeData (hn : f.kind n = .text) (change : String → String) :
    TextEdits f (f.writeData n change) where
  kind_eq m := kind_writeData f m n change
  cell_eq {m} hm := by
    have hne : ¬ (m = n ∧ n < f.size) := fun h => hm (h.1 ▸ hn)
    rw [children_writeData, cell_writeData, if_neg hne]
    rfl
  children_sublist p := by rw [children_writeData]
  others_eq p := by rw [children_writeData]

theorem detach (hn : f.kind n = .text) : TextEdits f (f.detach n) where
  kind_eq m := by rw [kind_detach]
  cell_eq {m} hm := by
    have hne : m ≠ n := fun h => hm (h ▸ hn)
    have hparent : ∀ g : Forest, (g.setParent n none).cell m = g.cell m := fun g => by
      rw [cell_setParent, if_neg fun h => hne h.1]
    rw [children, Forest.detach]
    split
    · rw [hparent, cell_setChildren]
      split_ifs with h
      · rw [h.1]
      · rfl
    · rw [hparent]
  children_sublist p := by
    rw [children_detach]
    split_ifs
    · exact List.filter_sublist
    · exact List.Sublist.refl _
  others_eq p := by
    rw [children_detach]
    split_ifs
    · rw [List.filter_filter]
      refine List.filter_congr fun m _ => ?_
      by_cases hm : m = n
      · simp [hm, hn]
      · simp [hm]
    · rfl

/-- Texts that follow a text are joined to it. -/
theorem absorb (hn : f.kind n = .text) (rest : List NodeId) :
    TextEdits f (f.absorb n rest).2 := by
  induction rest generalizing f with
  | nil => exact refl f
  | cons m rest ih =>
    rw [Forest.absorb]
    split_ifs with hm
    · have hwrite := TextEdits.writeData hn (· ++ f.data m)
      have hdetach : TextEdits (f.writeData n (· ++ f.data m)) _ :=
        TextEdits.detach (n := m) (by rw [kind_writeData, hm])
      exact (hwrite.trans hdetach).trans (ih (by rw [kind_detach, kind_writeData, hn]))
    · exact refl f

theorem joinSiblings {deeper : Forest → NodeId → Forest}
    (hdeeper : ∀ f n, TextEdits f (deeper f n)) (ns : List NodeId) :
    TextEdits f (Forest.joinSiblings deeper f ns) := by
  induction hlen : ns.length using Nat.strong_induction_on generalizing f ns with
  | _ len ih =>
    cases ns with
    | nil =>
      rw [Forest.joinSiblings]
      exact refl f
    | cons n ns =>
      rw [Forest.joinSiblings]
      split_ifs with hn
      · have habsorb := TextEdits.absorb hn ns
        have hshort : (f.absorb n ns).1.length < len :=
          hlen ▸ Nat.lt_succ_of_le (length_absorb_le f n ns)
        refine TextEdits.trans ?_ (ih _ hshort _ rfl)
        split_ifs
        · exact habsorb.trans (.detach ((habsorb.kind_eq n).trans hn))
        · exact habsorb
      · exact (hdeeper f n).trans (ih ns.length (by simp [← hlen]) ns rfl)

theorem normalize (f : Forest) (n : NodeId) : TextEdits f (f.normalize n) := by
  unfold Forest.normalize
  generalize f.size + 1 = fuel
  induction fuel generalizing f n with
  | zero => exact refl f
  | succ fuel ih => exact joinSiblings ih (f.children n)

variable (hfg : TextEdits f g)

include hfg

theorem parent_of_parent (hf : f.Sound) (hg : g.Sound) (hp : g.parent m = some p) :
    f.parent m = some p :=
  hf.mem_children_iff.1 ((hfg.children_sublist p).subset (hg.mem_children_iff.2 hp))

theorem parent_eq (hm : f.kind m ≠ .text) : g.parent m = f.parent m := by
  rw [parent, parent, hfg.kind_eq, hfg.cell_eq hm]

theorem above (hf : f.Sound) (hg : g.Sound) (hm : g.Above n m) : f.Above n m :=
  Relation.ReflTransGen.mono (fun _ _ hp => hfg.parent_of_parent hf hg hp) _ _ hm

/-- What is no text lies below the same nodes. -/
theorem above_iff (hf : f.Sound) (hg : g.Sound) (hm : f.kind m ≠ .text) :
    g.Above n m ↔ f.Above n m := by
  refine ⟨hfg.above hf hg, fun h => ?_⟩
  induction h with
  | refl => exact Above.refl n
  | @tail p m hnp hp ih =>
    have hholds := hf.holdsChildren_of_parent hp
    have hptext : f.kind p ≠ .text := fun e => by simp [e, Kind.holdsChildren] at hholds
    exact (ih hptext).trans (Above.of_parent ((hfg.parent_eq hm).trans hp))

end TextEdits

/-! ### Separated texts -/

/-- No text below `n` is empty or next to another text. -/
structure Separated (f : Forest) (n : NodeId) : Prop where
  data_ne {p m : NodeId} : f.Above n p → m ∈ f.children p → f.kind m = .text → f.data m ≠ ""
  apart {p : NodeId} : f.Above n p →
    (f.children p).IsChain fun a b => f.kind a = .text → f.kind b ≠ .text

theorem absorb_eq_self {rest : List NodeId} (h : ∀ m ∈ rest.head?, f.kind m ≠ .text) :
    f.absorb n rest = (rest, f) := by
  cases rest with
  | nil => rfl
  | cons m rest => rw [absorb, if_neg (h m rfl)]

/-- Siblings whose texts are apart and not empty stay as they are. -/
theorem joinSiblings_eq_self {deeper : Forest → NodeId → Forest} {ns : List NodeId}
    (hdeeper : ∀ m ∈ ns, deeper f m = f) (hdata : ∀ m ∈ ns, f.kind m = .text → f.data m ≠ "")
    (hapart : ns.IsChain fun a b => f.kind a = .text → f.kind b ≠ .text) :
    joinSiblings deeper f ns = f := by
  induction ns with
  | nil => rw [joinSiblings]
  | cons n ns ih =>
    obtain ⟨hn, hns⟩ := List.forall_mem_cons.1 hdeeper
    obtain ⟨hdn, hdns⟩ := List.forall_mem_cons.1 hdata
    obtain ⟨hnext, hrest⟩ := List.isChain_cons.1 hapart
    rw [joinSiblings]
    split_ifs with htext
    · simp only [absorb_eq_self fun m hm => hnext m hm htext]
      rw [if_neg (by simpa using hdn htext)]
      exact ih hns hdns hrest
    · rw [hn]
      exact ih hns hdns hrest

/-- Where texts are apart and not empty there is nothing to join. -/
theorem Sound.normalize_eq_self (hf : f.Sound) (hn : f.Separated n) : f.normalize n = f := by
  unfold Forest.normalize
  generalize f.size + 1 = fuel
  induction fuel generalizing n with
  | zero => rfl
  | succ fuel ih =>
    rw [normalizeTo]
    refine joinSiblings_eq_self (fun m hm => ih ?_) (fun m hm => hn.data_ne (Above.refl n) hm)
      (hn.apart (Above.refl n))
    have hnm := Above.of_parent (hf.mem_children_iff.1 hm)
    exact ⟨fun hp => hn.data_ne (hnm.trans hp), fun hp => hn.apart (hnm.trans hp)⟩

/-! ### Runs of texts -/

/-- Whether two nodes are texts. -/
def bothTexts (f : Forest) (m n : NodeId) : Bool := f.kind m == .text && f.kind n == .text

/-- The children of a node, with the texts that stand side by side taken together. -/
def runs (f : Forest) (p : NodeId) : List (List NodeId) := (f.children p).splitBy f.bothTexts

/-- The characters of a run. -/
def runText (f : Forest) (run : List NodeId) : String := String.join (run.map f.data)

/-- The node that is left of a run when texts are joined: the first one, and none of texts that
have no characters. -/
def leader? (f : Forest) : List NodeId → Option NodeId
  | [] => none
  | m :: ms => if f.kind m = .text ∧ f.runText (m :: ms) = "" then none else some m

/-- The trees `Ls` stand for the runs of the siblings `ns`: one for each run that has a leader, and
a text with the characters of its run. -/
structure StandsFor (f : Forest) (Ls : List (Labelled NodeId)) (ns : List NodeId) : Prop where
  labels_eq : Ls.map (·.label) = (ns.splitBy f.bothTexts).filterMap f.leader?
  text_mem {run : List NodeId} : run ∈ ns.splitBy f.bothTexts → ∀ {m}, f.leader? run = some m →
    f.kind m = .text → .text m (f.runText run) ∈ Ls

namespace StandsFor

variable {Ls : List (Labelled NodeId)} {ns ms : List NodeId}

theorem nil (f : Forest) : StandsFor f [] [] := ⟨rfl, fun h => by cases h⟩

theorem other (h : StandsFor f Ls ns) {L : Labelled NodeId} (hL : f.kind L.label ≠ .text) :
    StandsFor f (L :: Ls) (L.label :: ns) := by
  have hruns : (L.label :: ns).splitBy f.bothTexts = [L.label] :: ns.splitBy f.bothTexts := by
    rw [← List.singleton_append, List.splitBy_append (by simp [bothTexts, hL]),
      List.splitBy_of_isChain (by simp) (List.isChain_singleton _), List.singleton_append]
  have hleader : f.leader? [L.label] = some L.label := by simp [leader?, hL]
  refine ⟨?_, fun hrun m hm hmtext => ?_⟩
  · rw [hruns, List.filterMap_cons, hleader, List.map_cons, h.labels_eq]
  · rw [hruns] at hrun
    rcases List.mem_cons.1 hrun with rfl | hrun
    · rw [hleader] at hm
      exact absurd (Option.some.inj hm ▸ hmtext) hL
    · exact List.mem_cons_of_mem _ (h.text_mem hrun hm hmtext)

/-- Texts in front of what begins with none are a run. -/
theorem texts (h : StandsFor f Ls ns) (htexts : ∀ k ∈ m :: ms, f.kind k = .text)
    (hns : ∀ k ∈ ns.head?, f.kind k ≠ .text) :
    StandsFor f (if f.runText (m :: ms) = "" then Ls else .text m (f.runText (m :: ms)) :: Ls)
      (m :: ms ++ ns) := by
  have hchain : (m :: ms).IsChain fun a b => f.bothTexts a b := by
    refine List.Pairwise.isChain (List.pairwise_of_forall_mem_list fun a ha b hb => ?_)
    simp [bothTexts, htexts a ha, htexts b hb]
  have hruns : (m :: ms ++ ns).splitBy f.bothTexts = (m :: ms) :: ns.splitBy f.bothTexts := by
    rw [List.splitBy_append fun a _ b hb => by simp [bothTexts, hns b hb],
      List.splitBy_of_isChain (by simp) hchain, List.singleton_append]
  have hleader : f.leader? (m :: ms) = if f.runText (m :: ms) = "" then none else some m := by
    simp [leader?, htexts m List.mem_cons_self]
  refine ⟨?_, fun hrun k hk hktext => ?_⟩
  · rw [hruns, List.filterMap_cons, hleader]
    split_ifs
    · exact h.labels_eq
    · rw [List.map_cons, h.labels_eq]
      rfl
  · rw [hruns] at hrun
    rcases List.mem_cons.1 hrun with rfl | hrun
    · rw [hleader] at hk
      split_ifs at hk ⊢
      obtain rfl := Option.some.inj hk
      exact List.mem_cons_self
    · split_ifs
      · exact h.text_mem hrun hk hktext
      · exact List.mem_cons_of_mem _ (h.text_mem hrun hk hktext)

end StandsFor

section Layout

variable {q : Option NodeId} {Ls : List (Labelled NodeId)}

/-- Texts that are laid out have the characters of the run that they are. -/
theorem HoldsAll.runText_eq (h : HoldsAll f id q Ls) (hLs : ∀ L ∈ Ls, L.isText = true) :
    f.runText (Ls.map (·.label)) = Tree.innerTexts (Labelled.trees Ls) := by
  induction Ls with
  | nil => rfl
  | cons L Ls ih =>
    obtain ⟨hL, hrest⟩ := List.forall_mem_cons.1 hLs
    cases L with
    | element | comment => cases hL
    | text l s =>
      have hdata : f.data l = s := HoldsLeaf.data_eq h.1
      rw [Labelled.trees, Tree.innerTexts, ← ih h.2 hrest, runText, List.map_cons,
        List.map_cons, String.join_cons]
      exact congrArg (· ++ _) hdata

theorem exists_texts_append (Ls : List (Labelled NodeId)) :
    ∃ Ms Ns, Ls = Ms ++ Ns ∧ (∀ M ∈ Ms, M.isText = true) ∧
      ∀ N ∈ Ns.head?, N.isText = false := by
  refine ⟨Ls.takeWhile Labelled.isText, Ls.dropWhile Labelled.isText,
    List.takeWhile_append_dropWhile.symm, fun M hM => List.mem_takeWhile_imp hM, fun N hN => ?_⟩
  have hnot := List.head?_dropWhile_not Labelled.isText Ls
  rwa [Option.mem_def.1 hN] at hnot

theorem HoldsAll.kind_eq_text_iff (h : HoldsAll f id q Ls) {L : Labelled NodeId} (hL : L ∈ Ls) :
    f.kind L.label = .text ↔ L.isText = true :=
  (holdsAll_iff.1 h L hL).kind_eq_text_iff

/-- Joined trees stand for the runs of the siblings. -/
theorem HoldsAll.standsFor (h : HoldsAll f id q Ls) :
    StandsFor f (Labelled.joinedAll Ls) (Ls.map (·.label)) := by
  induction hlen : Ls.length using Nat.strong_induction_on generalizing Ls with
  | _ len ih =>
    cases Ls with
    | nil => exact .nil f
    | cons L Ls =>
      by_cases htext : L.isText = true
      · cases L with
        | element | comment => cases htext
        | text l s =>
          -- The run goes as far as the texts do.
          obtain ⟨Ms, Ns, rfl, hMs, hNs⟩ := exists_texts_append Ls
          have hrun : ∀ M ∈ .text l s :: Ms, M.isText = true :=
            List.forall_mem_cons.2 ⟨rfl, hMs⟩
          rw [← List.cons_append] at h
          obtain ⟨hheld, hafter⟩ := holdsAll_append.1 h
          have hlt : Ns.length < len := by
            rw [← hlen, List.length_cons, List.length_append]
            omega
          have hrest := ih Ns.length hlt hafter rfl
          rw [Labelled.joinedAll_texts l s hMs hNs, ← List.cons_append, List.map_append,
            ← show _ = s ++ _ from hheld.runText_eq hrun]
          refine hrest.texts (fun k hk => ?_) fun k hk => ?_
          · obtain ⟨M, hM, rfl⟩ := List.mem_map.1 (List.map_cons ▸ hk)
            exact (hheld.kind_eq_text_iff hM).2 (hrun M hM)
          · rw [List.head?_map] at hk
            obtain ⟨N, hN, rfl⟩ := Option.map_eq_some_iff.1 hk
            rw [Ne, hafter.kind_eq_text_iff (List.mem_of_head? hN), hNs N hN]
            exact Bool.false_ne_true
      · have hkind : f.kind L.joined.label ≠ .text := by
          rw [label_joined, Ne, h.kind_eq_text_iff List.mem_cons_self]
          exact htext
        rw [Labelled.joinedAll, Labelled.joinText_of_not_isText (by
          rw [Labelled.isText_joined]; simpa using htext), List.map_cons, ← label_joined L]
        exact (ih Ls.length (by simp [← hlen]) h.2 rfl).other hkind

end Layout

/-! ### Joining below a node -/

theorem not_isAttr_of_holdsChildren (hn : (f.kind n).holdsChildren = true) :
    ¬ (f.kind n).isAttr = true := by
  cases hk : f.kind n <;> simp [hk, Kind.isAttr, Kind.holdsChildren] at hn ⊢

section Joining

variable (hf : f.Sound) (hn : (f.kind n).holdsChildren = true)

include hf hn

theorem Sound.editsBelow_normalize :
    ∃ Ls : List (Labelled NodeId), (f.normalize n).HoldsBelow id n (Labelled.joinedAll Ls) ∧
      f.HoldsBelow id n Ls ∧ (n :: Labelled.labelsAll Ls).Nodup ∧
      EditsBelow f (f.normalize n) n (Labelled.labelsAll Ls) ∧
      ∀ l ∈ Labelled.labelsAll Ls, f.Inside n l := by
  obtain ⟨Ls, hbelow, hnodup, hinside⟩ := hf.exists_below (not_isAttr_of_holdsChildren hn)
  obtain ⟨hjoined, hedits⟩ := hbelow.normalize (by rwa [List.map_id])
  exact ⟨Ls, hjoined, hbelow, hnodup, by rwa [List.map_id] at hedits, hinside⟩

/-- What lies below any node that is below `n` is joined. -/
theorem Sound.exists_joined (hp : f.Above n p) :
    ∃ Ls : List (Labelled NodeId), f.HoldsBelow id p Ls ∧
      (f.normalize n).HoldsBelow id p (Labelled.joinedAll Ls) := by
  induction hp with
  | refl =>
    obtain ⟨Ls, hjoined, hbelow, -⟩ := hf.editsBelow_normalize hn
    exact ⟨Ls, hbelow, hjoined⟩
  | @tail p c _ hc ih =>
    obtain ⟨Ls, hbelow, hjoined⟩ := ih
    have hchild := hf.mem_children_iff.2 hc
    rw [hbelow.children_eq] at hchild
    obtain ⟨L, hL, rfl⟩ := List.mem_map.1 hchild
    have hheld := holdsAll_iff.1 hbelow.holds L hL
    cases L with
    | text l s | comment l s =>
      have hnone : f.children l = [] := HoldsLeaf.children_eq hheld
      have hsublist := (TextEdits.normalize f n).children_sublist l
      rw [hnone, List.sublist_nil] at hsublist
      exact ⟨[], ⟨hnone, trivial⟩, ⟨hsublist, trivial⟩⟩
    | element l tag as cs =>
      have hheld' := holdsAll_iff.1 hjoined.holds _ (Labelled.joined_mem_joinedAll hL rfl)
      exact ⟨cs, ⟨hheld.1.children_eq, hheld.2.2⟩, ⟨hheld'.1.children_eq, hheld'.2.2⟩⟩

/-- Below `n` a node stands for every run of texts, the texts with the characters of their runs. -/
theorem Sound.standsFor_normalize (hp : f.Above n p) :
    (f.normalize n).children p = (f.runs p).filterMap f.leader? ∧
      ∀ run ∈ f.runs p, ∀ m, f.leader? run = some m → f.kind m = .text →
        (f.normalize n).data m = f.runText run := by
  obtain ⟨Ls, hbelow, hjoined⟩ := hf.exists_joined hn hp
  have hstands := hbelow.holds.standsFor
  have hruns : f.runs p = (Ls.map (·.label)).splitBy f.bothTexts := by
    rw [runs, hbelow.children_eq]
    rfl
  rw [hruns]
  refine ⟨hjoined.children_eq.trans hstands.labels_eq, fun run hrun m hm hmtext => ?_⟩
  exact HoldsLeaf.data_eq (holdsAll_iff.1 hjoined.holds _ (hstands.text_mem hrun hm hmtext))

end Joining

/-! ### The outcome -/

/-- Separate trees are laid out at siblings whose texts are apart and not empty. -/
theorem HoldsAll.separated {q : Option NodeId} {Ls : List (Labelled NodeId)}
    (h : HoldsAll f id q Ls) (hLs : Tree.SeparateAll (Labelled.trees Ls)) :
    (∀ m ∈ Ls.map (·.label), f.kind m = .text → f.data m ≠ "") ∧
      (Ls.map (·.label)).IsChain fun a b => f.kind a = .text → f.kind b ≠ .text := by
  induction Ls with
  | nil => exact ⟨by simp, List.isChain_nil⟩
  | cons L Ls ih =>
    obtain ⟨hL, hnext, hrest⟩ := hLs
    obtain ⟨hdata, hchain⟩ := ih h.2 hrest
    have htext : f.kind L.label = .text ↔ L.isText = true := h.kind_eq_text_iff List.mem_cons_self
    refine ⟨List.forall_mem_cons.2 ⟨fun hk => ?_, hdata⟩,
      List.isChain_cons.2 ⟨fun b hb hk => ?_, hchain⟩⟩
    · cases L with
      | element | comment => cases htext.1 hk
      | text l s => exact fun e => hL ((HoldsLeaf.data_eq h.1).symm.trans e)
    · rw [List.head?_map] at hb
      obtain ⟨M, hM, rfl⟩ := Option.map_eq_some_iff.1 hb
      rw [Ne, HoldsAll.kind_eq_text_iff h.2 (List.mem_of_head? hM)]
      have hhead : M.tree ∈ (Labelled.trees Ls).head? := by
        rw [Labelled.trees_eq_map, List.head?_map, Option.mem_def.1 hM]
        rfl
      have hnot := hnext (by rw [← htext.1 hk]; cases L <;> rfl) M.tree hhead
      cases M with
      | element | comment => exact Bool.false_ne_true
      | text => cases hnot

/-- What the texts below a node have become in `g`. -/
structure TextsJoined (f : Forest) (n : NodeId) (g : Forest) : Prop where
  /-- No text below the node is empty or next to another. -/
  separated : g.Separated n
  /-- What is no text is the same but for its list of children. -/
  cell_eq {m : NodeId} : f.kind m ≠ .text → g.cell m = { f.cell m with children := g.children m }
  /-- What is no text lies below the node if it did before. -/
  above_iff {m : NodeId} : f.kind m ≠ .text → (g.Above n m ↔ f.Above n m)
  /-- What is no text has its place among the others. -/
  others_eq (p : NodeId) :
    (g.children p).filter (f.kind · ≠ .text) = (f.children p).filter (f.kind · ≠ .text)
  /-- Nothing outside the node has changed. -/
  outside {m : NodeId} : ¬ f.Inside n m → g.cell m = f.cell m
  /-- The first node of each run is left, unless the run has no characters. -/
  children_eq {p : NodeId} : f.Above n p → g.children p = (f.runs p).filterMap f.leader?
  /-- The first node of a run of texts has the characters of the run. -/
  data_eq {p m : NodeId} {run : List NodeId} : f.Above n p → run ∈ f.runs p →
    f.leader? run = some m → f.kind m = .text → g.data m = f.runText run
  /-- The other nodes of a run have no parent any more. -/
  gone {p m : NodeId} : f.Above n p → m ∈ f.children p → m ∉ g.children p → g.parent m = none
  text_eq : (g.snapshot n).text = (f.snapshot n).text
  inner_eq : (g.snapshot n).inner = (f.snapshot n).inner
  /-- There is nothing left to join. -/
  again : g.normalize n = g

theorem snapshot_of_holdsChildren (hn : (f.kind n).holdsChildren = true) :
    (f.snapshot n).text = Tree.innerTexts (f.trees (f.children n)) ∧
      (f.snapshot n).inner =
        Tree.writtenAll (isRawTag (f.kind n).tag) (f.trees (f.children n)) := by
  unfold Forest.snapshot
  cases hk : f.kind n with
  | element tag => exact ⟨rfl, rfl⟩
  | fragment => exact ⟨rfl, rfl⟩
  | attr | text | comment => simp [hk, Kind.holdsChildren] at hn

theorem HoldsBelow.trees_children {Ls : List (Labelled NodeId)} (h : f.HoldsBelow id p Ls)
    (hd : (Labelled.labelsAll Ls).Nodup) : f.trees (f.children p) = Labelled.trees Ls := by
  have hlen := h.holds.length_le_size (by rwa [List.map_id])
  rw [Forest.trees, h.children_eq, h.holds.treesAt (hlen.trans (Nat.le_succ _))]

section Outcome

variable (hf : f.Sound) (hn : (f.kind n).holdsChildren = true)

include hf hn

theorem Sound.separated_normalize : (f.normalize n).Separated n := by
  have hg := hf.normalize n
  have hstep := TextEdits.normalize f n
  have hp : ∀ {p}, (f.normalize n).Above n p →
      (∀ m ∈ (f.normalize n).children p, (f.normalize n).kind m = .text →
        (f.normalize n).data m ≠ "") ∧
      ((f.normalize n).children p).IsChain
        fun a b => (f.normalize n).kind a = .text → (f.normalize n).kind b ≠ .text := by
    intro p hp
    obtain ⟨Ls, -, hjoined⟩ := hf.exists_joined hn (hstep.above hf hg hp)
    rw [hjoined.children_eq]
    refine hjoined.holds.separated ?_
    rw [Labelled.trees_joinedAll]
    exact Tree.separateAll_joinedAll _
  exact ⟨fun habove hm hk => (hp habove).1 _ hm hk, fun habove => (hp habove).2⟩

theorem Sound.snapshot_normalize_eq :
    ((f.normalize n).snapshot n).text = (f.snapshot n).text ∧
      ((f.normalize n).snapshot n).inner = (f.snapshot n).inner := by
  obtain ⟨Ls, hjoined, hbelow, hnodup, hedits, -⟩ := hf.editsBelow_normalize hn
  have hd := (List.nodup_cons.1 hnodup).2
  obtain ⟨htext, hinner⟩ := snapshot_of_holdsChildren hn
  obtain ⟨htext', hinner'⟩ := snapshot_of_holdsChildren (by rwa [hedits.kind_eq])
  rw [htext, hinner, htext', hinner', hedits.kind_eq, hbelow.trees_children hd,
    hjoined.trees_children (hd.sublist (Labelled.labelsAll_joinedAll Ls)),
    Labelled.trees_joinedAll]
  exact ⟨Tree.innerTexts_joinedAll _, Tree.writtenAll_joinedAll _ _⟩

/-- Joining the texts below an element or a fragment takes every run of texts together, leaves
everything else as it was, and leaves nothing to join. -/
theorem Sound.textsJoined_normalize : f.TextsJoined n (f.normalize n) := by
  have hg := hf.normalize n
  have hstep := TextEdits.normalize f n
  obtain ⟨htext, hinner⟩ := hf.snapshot_normalize_eq hn
  have hseparated := hf.separated_normalize hn
  refine ⟨hseparated, hstep.cell_eq, hstep.above_iff hf hg, hstep.others_eq, fun {m} hout => ?_,
    fun hp => (hf.standsFor_normalize hn hp).1,
    fun hp hrun hm hk => (hf.standsFor_normalize hn hp).2 _ hrun _ hm hk,
    fun {p m} _ hm hgone => ?_, htext, hinner, hg.normalize_eq_self hseparated⟩
  · obtain ⟨Ls, -, -, -, hedits, hinside⟩ := hf.editsBelow_normalize hn
    exact hedits.cell_eq (fun e => hout (by rw [e]; exact .refl n)) fun hin => hout (hinside m hin)
  · refine Option.eq_none_iff_forall_not_mem.2 fun q hq => hgone ?_
    have hparent := hstep.parent_of_parent hf hg hq
    obtain rfl : q = p := Option.some.inj (hparent.symm.trans (hf.mem_children_iff.1 hm))
    exact hg.mem_children_iff.2 hq

end Outcome

/-- A paragraph with texts side by side at two levels, some of them empty, and a style sheet. -/
def patchedTree : Tree :=
  .element "p" [] [.text "", .text "a<b", .text "", .comment "c", .text "",
    .element "style" [] [.text "i>", .text "b"], .text "d"]

theorem Sound.textsJoined_normalize_patchedTree :
    let f := (Forest.empty.plant patchedTree).2
    f.Sound ∧ (f.kind 0).holdsChildren = true ∧ f.TextsJoined 0 (f.normalize 0) ∧
      (f.runs 0).filterMap f.leader? = [1, 4, 6, 9] ∧ f.runText [1, 2, 3] = "a<b" := by
  intro f
  have hnamed : patchedTree.Named := by simp [patchedTree, Tree.Named, Tree.NamedAll]
  have hf : f.Sound := Sound.empty.plant patchedTree hnamed
  have hn : (f.kind 0).holdsChildren = true := by decide +kernel
  exact ⟨hf, hn, hf.textsJoined_normalize hn, by decide +kernel, by decide +kernel⟩

end LiveMarkup.Forest
