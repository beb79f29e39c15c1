/-!
# Stores of text

A store keeps text under keys, in the order of the keys.
-/

namespace LiveMarkup

/-- Puts an entry into entries that are sorted by key, in place of the entry of its key. -/
def putEntry (key value : String) : List (String × String) → List (String × String)
  | [] => [(key, value)]
  | entry :: entries =>
    if key = entry.1 then (key, value) :: entries
    else if key < entry.1 then (key, value) :: entry :: entries
    else entry :: putEntry key value entries

theorem fst_mem_putEntry {key value : String} {entries : List (String × String)}
    {entry : String × String} (h : entry ∈ putEntry key value entries) :
    entry.1 = key ∨ entry ∈ entries := by
  induction entries with
  | nil => simp_all [putEntry]
  | cons first rest ih =>
    unfold putEntry at h
    split at h
    · rcases List.mem_cons.1 h with rfl | h
      · exact Or.inl rfl
      · exact Or.inr (List.mem_cons_of_mem _ h)
    · split at h
      · rcases List.mem_cons.1 h with rfl | h
        · exact Or.inl rfl
        · exact Or.inr h
      · rcases List.mem_cons.1 h with rfl | h
        · exact Or.inr List.mem_cons_self
        · exact (ih h).imp id (List.mem_cons_of_mem _)

theorem pairwise_putEntry (key value : String) {entries : List (String × String)}
    (h : entries.Pairwise (·.1 < ·.1)) : (putEntry key value entries).Pairwise (·.1 < ·.1) := by
  induction entries with
  | nil => simp [putEntry]
  | cons first rest ih =>
    obtain ⟨above, sorted⟩ := List.pairwise_cons.1 h
    unfold putEntry
    split
    · next same => exact List.pairwise_cons.2 ⟨fun e he => same ▸ above e he, sorted⟩
    · next other =>
      split
      · next below =>
        refine List.pairwise_cons.2 ⟨fun e he => ?_, h⟩
        rcases List.mem_cons.1 he with rfl | he
        · exact below
        · exact String.lt_trans below (above e he)
      · next notBelow =>
        refine List.pairwise_cons.2 ⟨fun e he => ?_, ih sorted⟩
        rcases fst_mem_putEntry he with same | he
        · rw [same]
          exact Std.lt_of_le_of_ne (String.not_lt.1 notBelow) (Ne.symm other)
        · exact above e he

/-- Text under keys, sorted by key. -/
structure Store where
  entries : List (String × String)
  sorted : entries.Pairwise (·.1 < ·.1)

namespace Store

/-- The store without entries. -/
def empty : Store := ⟨[], List.Pairwise.nil⟩

/-- The text under a key. -/
def get? (s : Store) (key : String) : Option String := s.entries.lookup key

/-- Puts text under a key. -/
def set (s : Store) (key value : String) : Store :=
  ⟨putEntry key value s.entries, pairwise_putEntry key value s.sorted⟩

/-- Removes the text under a key. -/
def erase (s : Store) (key : String) : Store :=
  ⟨s.entries.filter (·.1 != key), s.sorted.filter _⟩

/-- The keys in order. -/
def keys (s : Store) : List String := s.entries.map Prod.fst

/-- The number of entries. -/
def size (s : Store) : Nat := s.entries.length

end Store

end LiveMarkup
