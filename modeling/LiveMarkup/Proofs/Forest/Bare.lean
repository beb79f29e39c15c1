import LiveMarkup.Proofs.Forest.Changes
import LiveMarkup.Proofs.Forest.Listeners

/-!
# Nodes without data

Elements and fragments have no character data.  A forest in which this is so is `Bare`; every
operation on nodes keeps it that way (`Bare.perform`), since data is written to texts, comments and
attribute nodes only, and new elements and fragments come without.
-/

namespace LiveMarkup.Forest

variable {f g : Forest} {n : NodeId}

/-- Elements and fragments have no data. -/
def Bare (f : Forest) : Prop := ∀ n, (f.kind n).holdsChildren = true → f.data n = ""

namespace Bare

theorem empty : Forest.empty.Bare := fun n hn => by
  rw [kind_of_size_le n.zero_le] at hn
  cases hn

section Changes

variable (hf : f.Bare)

include hf

theorem congr {g : Forest} (hk : ∀ n, g.kind n = f.kind n) (hd : ∀ n, g.data n = f.data n) :
    g.Bare := fun n hn => by
  rw [hk] at hn
  rw [hd, hf n hn]

theorem create {k : Kind} {s : String} (hs : k.holdsChildren = true → s = "") :
    (f.create k s).2.Bare := fun n hn => by
  simp only [kind, data, cell_create] at hn ⊢
  split_ifs at hn ⊢ with h
  · exact hs hn
  · exact hf n hn

theorem writeData (hn : (f.kind n).holdsChildren = false) (change : String → String) :
    (f.writeData n change).Bare := fun m hm => by
  rw [kind_writeData] at hm
  have hne : m ≠ n := by
    rintro rfl
    rw [hn] at hm
    cases hm
  rw [data_writeData, if_neg fun h => hne h.1, hf m hm]

/-- What writes no elements and no fragments leaves them without data. -/
theorem of_changes (h : Changes (fun k => k.holdsChildren = false) f g) : g.Bare := by
  induction h with
  | refl => exact hf
  | create _ k s hs ih => exact ih.create hs
  | setParent | setChildren | setAttributes => next ih => exact ih.congr (by simp) (by simp)
  | writeData _ hn change ih => exact ih.writeData hn change

theorem plant (t : Tree) : (f.plant t).2.Bare := hf.of_changes (.plant .refl t)

theorem plantFragment (ts : List Tree) : (f.plantFragment ts).2.Bare :=
  hf.of_changes (.plantFragment .refl ts)

theorem copy (n : NodeId) (deep : Bool) : (f.copy n deep).2.Bare :=
  hf.of_changes (.copy .refl n deep)

theorem setData (n : NodeId) (s : String) : (f.setData n s).2.Bare :=
  hf.of_changes (.setData .refl id s)

theorem setValue (n : NodeId) (s : String) : (f.setValue n s).2.Bare :=
  hf.of_changes (.setValue .refl id s)

theorem modify_listeners (n : NodeId) (change : List Listener → List Listener) :
    (f.modify n fun c => { c with listeners := change c.listeners }).Bare :=
  hf.congr (by simp) (by simp)

/-- Every operation on nodes keeps elements and fragments without data. -/
theorem perform (hs : f.Sound) (op : Operation) : (op.perform f).Bare := by
  by_cases hrelease : ∀ n, op ≠ .release n
  · have hattr (k : Kind) (hk : k.isAttr = true) : k.holdsChildren = false := by
      cases k <;> first | rfl | cases hk
    exact hf.of_changes (.perform hrelease fun _ => ⟨hs, rfl, hattr⟩)
  · push Not at hrelease
    obtain ⟨n, rfl⟩ := hrelease
    exact hf.congr (fun m => (Sound.views_takeApart f n m).1) (data_takeApart f n)

end Changes

end Bare

end LiveMarkup.Forest
