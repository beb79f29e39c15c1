import LiveMarkup.Forest.Cell

/-!
# Text in small letters

A text is in small letters if writing it in small letters does not change it.
-/

namespace LiveMarkup

theorem toLower_toLower (c : Char) : c.toLower.toLower = c.toLower := by
  unfold Char.toLower
  grind

/-- Whether a text is in small letters. -/
def IsSmall (s : String) : Prop := s.toLower = s

theorem isSmall_iff {s : String} : IsSmall s ↔ ∀ c ∈ s.toList, c.toLower = c := by
  unfold IsSmall String.toLower
  rw [← String.toList_inj, String.toList_map]
  constructor
  · intro h c hc
    obtain ⟨i, hi, rfl⟩ := List.getElem_of_mem hc
    have hget := congrArg (·[i]?) h
    simpa [hi] using hget
  · intro h
    exact (List.map_congr_left h).trans (List.map_id _)

theorem isSmall_toLower (s : String) : IsSmall s.toLower := by
  unfold IsSmall String.toLower
  rw [String.map_map]
  congr 1
  exact funext toLower_toLower

theorem isSmall_empty : IsSmall "" := isSmall_iff.2 (by simp)

end LiveMarkup
