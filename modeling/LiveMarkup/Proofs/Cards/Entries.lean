import Mathlib.Data.List.Nodup
import LiveMarkup.Cards.Store
import LiveMarkup.Proofs.Script.Names

/-!
# Entries of a store

A store is a finite function from keys to texts: what is put under a key is found there, and nothing
else changes.  It is nothing more than that function (`eq_of_get?_eq`): how its entries came about
cannot be told from it.
-/

namespace LiveMarkup.Store

variable {s : Store} {key other value : String}

theorem lookup_putEntry (key other value : String) (entries : List (String × String)) :
    (putEntry key value entries).lookup other =
      if other = key then some value else entries.lookup other := by
  induction entries with
  | nil => exact lookup_cons_eq (key, value)
  | cons e entries ih =>
    unfold putEntry
    by_cases hkey : key = e.1
    · rw [if_pos hkey, lookup_cons_eq, lookup_cons_eq, hkey]
      split_ifs <;> rfl
    · rw [if_neg hkey]
      by_cases hbelow : key < e.1
      · rw [if_pos hbelow, lookup_cons_eq]
      · rw [if_neg hbelow, lookup_cons_eq, lookup_cons_eq, ih]
        split_ifs with hfirst hother
        · exact absurd (hother.symm.trans hfirst) hkey
        all_goals rfl

theorem get?_set (s : Store) (key other value : String) :
    (s.set key value).get? other = if other = key then some value else s.get? other :=
  lookup_putEntry key other value s.entries

theorem get?_erase (s : Store) (key other : String) :
    (s.erase key).get? other = if other = key then none else s.get? other :=
  Table.get?_unbind s.entries other key

theorem mem_keys_iff (s : Store) (key : String) : key ∈ s.keys ↔ (s.get? key).isSome = true := by
  rw [get?, List.lookup_isSome_iff, keys, List.mem_map]
  constructor
  · rintro ⟨e, he, rfl⟩
    exact ⟨e, he, beq_self_eq_true e.1⟩
  · rintro ⟨e, he, hkey⟩
    exact ⟨e, he, (eq_of_beq hkey).symm⟩

theorem nodup_keys (s : Store) : s.keys.Nodup :=
  List.pairwise_map.2 (s.sorted.imp fun h => String.ne_of_lt h)

theorem mem_entries_iff (s : Store) (key value : String) :
    (key, value) ∈ s.entries ↔ s.get? key = some value := by
  refine ⟨fun hmem => ?_, mem_of_lookup⟩
  obtain ⟨held, hheld⟩ := Option.isSome_iff_exists.1
    ((s.mem_keys_iff key).1 (List.mem_map_of_mem (f := Prod.fst) hmem))
  have hsame := List.inj_on_of_nodup_map s.nodup_keys hmem (mem_of_lookup hheld) rfl
  rw [hheld, (Prod.mk.inj hsame).2]

/-- Stores in which the same is found under every key are the same. -/
theorem eq_of_get?_eq {s t : Store} (h : ∀ key, s.get? key = t.get? key) : s = t := by
  have hnodup : ∀ s : Store, s.entries.Nodup := fun s => List.Nodup.of_map Prod.fst s.nodup_keys
  have hperm : s.entries.Perm t.entries :=
    (List.perm_ext_iff_of_nodup (hnodup s) (hnodup t)).2 fun e => by
      rw [mem_entries_iff, mem_entries_iff, h]
  have hentries : s.entries = t.entries :=
    hperm.eq_of_pairwise (fun _ _ _ _ hlt hgt => absurd hgt (String.lt_asymm hlt)) s.sorted t.sorted
  cases s
  cases t
  cases hentries
  rfl

end LiveMarkup.Store
