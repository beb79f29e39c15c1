import Mathlib.Data.List.Basic
import LiveMarkup.Script.Table

/-!
# Looking for names

What is found under a key after entries have been taken out of a list of pairs or put into it.
-/

namespace LiveMarkup

section Lookup

variable {α β : Type} [DecidableEq α] {key : α} {value : β} {entries : List (α × β)}

theorem lookup_cons_eq (e : α × β) :
    (e :: entries).lookup key = if key = e.1 then some e.2 else entries.lookup key := by
  rw [List.lookup_cons]
  split_ifs with h
  · rw [h, beq_self_eq_true]
  · rw [beq_false_of_ne h]

theorem mem_of_lookup (h : entries.lookup key = some value) : (key, value) ∈ entries := by
  obtain ⟨before, after, rfl, -⟩ := List.lookup_eq_some_iff.1 h
  exact List.mem_append_right _ List.mem_cons_self

/-- Taking out entries of other keys does not matter. -/
theorem lookup_filter {keep : α × β → Bool} (hkeep : ∀ e ∈ entries, e.1 = key → keep e = true) :
    (entries.filter keep).lookup key = entries.lookup key := by
  induction entries with
  | nil => rfl
  | cons e entries ih =>
    have hrest := ih fun x hx => hkeep x (List.mem_cons_of_mem _ hx)
    by_cases hkey : key = e.1
    · rw [List.filter_cons_of_pos (hkeep e List.mem_cons_self hkey.symm), lookup_cons_eq,
        lookup_cons_eq, if_pos hkey, if_pos hkey]
    · by_cases hk : keep e = true
      · rw [List.filter_cons_of_pos hk, lookup_cons_eq, lookup_cons_eq, hrest]
      · rw [List.filter_cons_of_neg hk, lookup_cons_eq, if_neg hkey, hrest]

/-- Nothing is found under a key whose entries have been taken out. -/
theorem lookup_filter_ne (key : α) (entries : List (α × β)) :
    (entries.filter (·.1 != key)).lookup key = none := by
  rw [List.lookup_eq_none_iff]
  intro e he
  exact bne_iff_ne.2 (Ne.symm (bne_iff_ne.1 (List.mem_filter.1 he).2))

end Lookup

namespace Table

variable {α : Type} (t : Table α) (name other : String) (a : α)

theorem get?_cons (x : String × α) :
    Table.get? (x :: t) name = if name = x.1 then some x.2 else t.get? name := lookup_cons_eq x

theorem get?_unbind :
    (t.unbind other).get? name = if name = other then none else t.get? name := by
  split_ifs with hname
  · rw [hname]
    exact lookup_filter_ne other t
  · exact lookup_filter fun e _ he => bne_iff_ne.2 (he ▸ hname)

theorem get?_bind :
    (t.bind other a).get? name = if name = other then some a else t.get? name := by
  have htail := get?_unbind t name other
  rw [bind, get?_cons, ← unbind, htail]
  split_ifs <;> rfl

theorem get?_unbindAll (names : List String) (hname : name ∉ names) :
    (names.foldl unbind t).get? name = t.get? name := by
  induction names generalizing t with
  | nil => rfl
  | cons other names ih =>
    rw [List.mem_cons, not_or] at hname
    rw [List.foldl_cons, ih (t.unbind other) hname.2, get?_unbind, if_neg hname.1]

end Table

end LiveMarkup
