import LiveMarkup.Markup.Written
import LiveMarkup.Proofs.Markup.Labelled

/-!
# Joined texts

Joining the texts that stand side by side in a labelled tree keeps the label of the first text of
each run (`Labelled.joinedAll_texts`).  Without labels it is `Tree.joinedAll`
(`Labelled.trees_joinedAll`), and two texts in a row may be joined beforehand
(`Labelled.joinedAll_text_text`).  Joined trees are written as the trees were
(`Tree.writtenAll_joinedAll`).
-/

namespace LiveMarkup

namespace Tree

/-- A text in front of joined siblings may be joined in two steps. -/
theorem joinText_text_text (a b : String) (ts : List Tree) :
    joinText (text a) (joinText (text b) ts) = joinText (text (a ++ b)) ts := by
  have hplain : ∀ {ts : List Tree}, (∀ c us, ts ≠ text c :: us) →
      joinText (text a) (joinText (text b) ts) = joinText (text (a ++ b)) ts := by
    intro ts hts
    have hone : ∀ s : String, joinText (text s) ts = if s.isEmpty then ts else text s :: ts := by
      intro s
      cases ts with
      | nil => rfl
      | cons t us =>
        cases t with
        | text c => exact absurd rfl (hts c us)
        | element tag as cs => rfl
        | comment c => rfl
    rw [hone, hone]
    by_cases hb : b = ""
    · subst hb
      rw [if_pos (by rfl), hone, String.append_empty]
    · have hab : ¬ (a ++ b).isEmpty = true := by simp [hb]
      rw [if_neg (by simpa using hb), if_neg hab]
      rfl
  cases ts with
  | nil => exact hplain (by simp)
  | cons t us =>
    cases t with
    | text c =>
      simp only [joinText, String.append_assoc]
    | element tag as cs => exact hplain (by simp)
    | comment c => exact hplain (by simp)

theorem joinedAll_text_text (a b : String) (ts : List Tree) :
    joinedAll (text a :: text b :: ts) = joinedAll (text (a ++ b) :: ts) := by
  rw [joinedAll, joinedAll, joinedAll]
  exact joinText_text_text a b (joinedAll ts)

/-! ### Writing joined texts -/

theorem written_text_append (raw : Bool) (a b : String) :
    (text (a ++ b)).written raw = (text a).written raw ++ (text b).written raw := by
  cases raw with
  | true => rfl
  | false => simp [written, escapeText, String.join_append]

theorem writtenAll_joinText (raw : Bool) (t : Tree) (ts : List Tree) :
    writtenAll raw (joinText t ts) = t.written raw ++ writtenAll raw ts := by
  unfold joinText
  split
  · rw [writtenAll, writtenAll, written_text_append, String.append_assoc]
  · split_ifs with hempty
    · obtain rfl := String.isEmpty_iff.1 hempty
      cases raw <;> simp [written, escapeText]
    · rw [writtenAll]
  · rw [writtenAll]

mutual

theorem written_joined (raw : Bool) (t : Tree) : t.joined.written raw = t.written raw := by
  cases t with
  | text data | comment data => rfl
  | element tag attributes children =>
    rw [joined, written, written, writtenAll_joinedAll (isRawTag tag) children]

/-- Joined trees are written as the trees were, inside a raw element and outside. -/
theorem writtenAll_joinedAll (raw : Bool) (ts : List Tree) :
    writtenAll raw (joinedAll ts) = writtenAll raw ts := by
  cases ts with
  | nil => rfl
  | cons t ts =>
    rw [joinedAll, writtenAll_joinText, written_joined raw t, writtenAll_joinedAll raw ts,
      writtenAll]

end

end Tree

namespace Labelled

variable {α : Type}

/-- Whether a tree is a text. -/
def isText : Labelled α → Bool
  | text _ _ => true
  | _ => false

/-- Puts a tree in front of its siblings: text is joined with text, and empty text is left out. -/
def joinText : Labelled α → List (Labelled α) → List (Labelled α)
  | text l a, text _ b :: Ls => text l (a ++ b) :: Ls
  | text l a, Ls => if a.isEmpty then Ls else text l a :: Ls
  | L, Ls => L :: Ls

mutual

/-- Joins the texts that stand side by side anywhere below a tree. -/
def joined : Labelled α → Labelled α
  | element l tag as cs => element l tag as (joinedAll cs)
  | text l s => text l s
  | comment l s => comment l s

/-- Joins the texts that stand side by side among siblings and below them. -/
def joinedAll : List (Labelled α) → List (Labelled α)
  | [] => []
  | L :: Ls => joinText L.joined (joinedAll Ls)

end

theorem trees_joinText (L : Labelled α) (Ls : List (Labelled α)) :
    trees (joinText L Ls) = Tree.joinText L.tree (trees Ls) := by
  cases L with
  | element l tag as cs => rfl
  | comment l s => rfl
  | text l a =>
    cases Ls with
    | nil =>
      simp only [joinText, tree, trees, Tree.joinText]
      split_ifs <;> rfl
    | cons M Ls =>
      cases M with
      | text m b => rfl
      | element m tag as cs =>
        simp only [joinText, tree, trees, Tree.joinText]
        split_ifs <;> rfl
      | comment m b =>
        simp only [joinText, tree, trees, Tree.joinText]
        split_ifs <;> rfl

mutual

theorem tree_joined (L : Labelled α) : L.joined.tree = L.tree.joined := by
  cases L with
  | text l s | comment l s => rfl
  | element l tag as cs => rw [joined, tree, tree, Tree.joined, trees_joinedAll]

theorem trees_joinedAll (Ls : List (Labelled α)) :
    trees (joinedAll Ls) = Tree.joinedAll (trees Ls) := by
  cases Ls with
  | nil => rfl
  | cons L Ls => rw [joinedAll, trees_joinText, tree_joined, trees_joinedAll, trees, Tree.joinedAll]

end

theorem joinText_of_not_isText {L : Labelled α} (h : L.isText = false) (Ls : List (Labelled α)) :
    joinText L Ls = L :: Ls := by
  cases L with
  | text l s => cases h
  | element l tag as cs => rfl
  | comment l s => rfl

theorem isText_joined (L : Labelled α) : L.joined.isText = L.isText := by
  cases L <;> rfl

/-- Siblings that do not begin with a text do not begin with one when they are joined. -/
theorem joinText_of_head_not_isText {Ls : List (Labelled α)} (h : ∀ L ∈ Ls.head?, L.isText = false)
    (l : α) (s : String) :
    joinText (text l s) (joinedAll Ls) =
      if s.isEmpty then joinedAll Ls else text l s :: joinedAll Ls := by
  cases Ls with
  | nil => rfl
  | cons L Ls =>
    have hL : L.joined.isText = false := (isText_joined L).trans (h L rfl)
    rw [joinedAll, joinText_of_not_isText hL]
    cases hj : L.joined with
    | text m b => rw [hj] at hL; cases hL
    | element m tag as cs => rfl
    | comment m b => rfl

theorem joinedAll_text_text (l m : α) (a b : String) (Ls : List (Labelled α)) :
    joinedAll (text l a :: text m b :: Ls) = joinedAll (text l (a ++ b) :: Ls) := by
  have hplain : ∀ {Ms : List (Labelled α)},
      (∀ s, joinText (text l s) Ms = if s.isEmpty then Ms else text l s :: Ms) →
      (joinText (text m b) Ms = if b.isEmpty then Ms else text m b :: Ms) →
      joinText (text l a) (joinText (text m b) Ms) = joinText (text l (a ++ b)) Ms := by
    intro Ms hone hm
    rw [hm, hone]
    by_cases hb : b = ""
    · subst hb
      rw [if_pos (by rfl), hone, String.append_empty]
    · have hab : ¬ (a ++ b).isEmpty = true := by simp [hb]
      rw [if_neg (by simpa using hb), if_neg hab]
      rfl
  rw [joinedAll, joinedAll, joinedAll]
  simp only [joined]
  cases joinedAll Ls with
  | nil => exact hplain (fun _ => rfl) rfl
  | cons M Ms =>
    cases M with
    | text k c => simp only [joinText, String.append_assoc]
    | element k tag as cs => exact hplain (fun _ => rfl) rfl
    | comment k c => exact hplain (fun _ => rfl) rfl

/-- Texts in front of siblings that begin with none become one text with the first label, or none at
all if they are empty. -/
theorem joinedAll_texts (l : α) (s : String) {Ms Ls : List (Labelled α)}
    (hMs : ∀ M ∈ Ms, M.isText = true) (hLs : ∀ L ∈ Ls.head?, L.isText = false) :
    joinedAll (text l s :: (Ms ++ Ls)) =
      if s ++ Tree.innerTexts (trees Ms) = "" then joinedAll Ls
      else text l (s ++ Tree.innerTexts (trees Ms)) :: joinedAll Ls := by
  induction Ms generalizing s with
  | nil =>
    rw [List.nil_append, joinedAll, joined, joinText_of_head_not_isText hLs]
    simp [trees, Tree.innerTexts]
  | cons M Ms ih =>
    obtain ⟨hM, hrest⟩ := List.forall_mem_cons.1 hMs
    cases M with
    | element | comment => cases hM
    | text m b =>
      rw [List.cons_append, joinedAll_text_text, ih (s ++ b) hrest]
      simp only [trees, tree, Tree.innerTexts, Tree.innerText, String.append_assoc]

/-- A sibling that is no text stays among its siblings, joined below. -/
theorem joined_mem_joinedAll {L : Labelled α} {Ls : List (Labelled α)} (h : L ∈ Ls)
    (hL : L.isText = false) : L.joined ∈ joinedAll Ls := by
  have hstay : ∀ (M : Labelled α) {Ns : List (Labelled α)}, L.joined ∈ Ns →
      L.joined ∈ joinText M Ns := by
    intro M Ns hin
    unfold joinText
    split
    · -- The head is a text, and what stays is none.
      rcases List.mem_cons.1 hin with e | hin
      · rw [← isText_joined, e] at hL
        cases hL
      · exact List.mem_cons_of_mem _ hin
    · split_ifs
      · exact hin
      · exact List.mem_cons_of_mem _ hin
    · exact List.mem_cons_of_mem _ hin
  induction Ls with
  | nil => cases h
  | cons M Ms ih =>
    rw [joinedAll]
    rcases List.mem_cons.1 h with rfl | h
    · rw [joinText_of_not_isText ((isText_joined L).trans hL)]
      exact List.mem_cons_self
    · exact hstay _ (ih h)

theorem labelsAll_joinText (L : Labelled α) (Ls : List (Labelled α)) :
    (labelsAll (joinText L Ls)).Sublist (L.labels ++ labelsAll Ls) := by
  cases L with
  | element l tag as cs => exact List.Sublist.refl _
  | comment l s => exact List.Sublist.refl _
  | text l a =>
    have hplain : (labelsAll (if a.isEmpty then Ls else text l a :: Ls)).Sublist
        ((text l a).labels ++ labelsAll Ls) := by
      split_ifs
      · exact List.sublist_append_right _ _
      · exact List.Sublist.refl _
    cases Ls with
    | nil => exact hplain
    | cons M Ms =>
      cases M with
      | text m b => exact (List.sublist_cons_self m _).cons_cons l
      | element m tag as cs => exact hplain
      | comment m b => exact hplain

mutual

/-- Joining drops labels and changes none. -/
theorem labels_joined (L : Labelled α) : L.joined.labels.Sublist L.labels := by
  cases L with
  | text l s | comment l s => exact List.Sublist.refl _
  | element l tag as cs =>
    exact (List.Sublist.refl _).append (labelsAll_joinedAll cs)

theorem labelsAll_joinedAll (Ls : List (Labelled α)) :
    (labelsAll (joinedAll Ls)).Sublist (labelsAll Ls) := by
  cases Ls with
  | nil => exact List.Sublist.refl _
  | cons L Ls =>
    exact (labelsAll_joinText _ _).trans ((labels_joined L).append (labelsAll_joinedAll Ls))

end

end Labelled

end LiveMarkup
