import LiveMarkup.Proofs.Cards.Listing
import LiveMarkup.Proofs.Cards.Written

/-!
# The counter and the records beside it

A wallet keeps two things in one store: a counter under a key of its own, and records of cards under
other keys.  A creation moves the counter on by one until it stands at the largest number of 64 bits
(`Holds.create_eq`), saving changes a record and deleting removes one, or puts the counter back if
its key is deleted.
-/

namespace LiveMarkup.Wallet

variable {s : Store} {n : ℕ} {id : String} {held : String → Option Card}

/-- The counter of a store stands at `n`, and the store holds the records of cards beside it. -/
structure Holds (s : Store) (n : ℕ) (held : String → Option Card) : Prop where
  counter : s.get? counterKey = if n = 0 then none else some (toString n)
  record {id : String} : id ≠ counterKey → s.get? id = (held id).map Card.record

/-- The counter hands out a number, unless it holds a text from which none follows. -/
theorem nextNumber_cases (s : Store) :
    (∃ text, s.get? counterKey = some text ∧ nextNumber s = .error (.counter text)) ∨
      ∃ n, nextNumber s = .ok n := by
  unfold nextNumber
  cases hheld : s.get? counterKey with
  | none => exact Or.inr ⟨1, rfl⟩
  | some text =>
    cases hread : readNatural? (Text.trim text) with
    | none => exact Or.inl ⟨text, rfl, by simp only [hread]⟩
    | some last =>
      by_cases hlast : last < largest64
      · exact Or.inr ⟨last + 1, by simp only [hread, if_pos hlast]⟩
      · exact Or.inl ⟨text, rfl, by simp only [hread, if_neg hlast]⟩

/-- A creation that is refused leaves the store as it was, and any other only writes the counter. -/
theorem create_cases (s : Store) (b : Barcode) :
    (∃ text, s.get? counterKey = some text ∧ create s b = (.error (.counter text), s)) ∨
      ∃ n, create s b = (.ok (.ofBarcode (cardId n) b), s.set counterKey (toString n)) := by
  rcases nextNumber_cases s with ⟨text, hheld, hnext⟩ | ⟨n, hnext⟩
  · exact Or.inl ⟨text, hheld, by rw [create, hnext]⟩
  · exact Or.inr ⟨n, by rw [create, hnext]; rfl⟩

namespace Holds

theorem nextNumber_eq (hs : Holds s n held) (hn : n ≤ largest64) :
    nextNumber s = if n < largest64 then .ok (n + 1) else .error (.counter (toString n)) := by
  rw [nextNumber, hs.counter]
  by_cases hzero : n = 0
  · rw [if_pos hzero, hzero]
    rfl
  · rw [if_neg hzero]
    simp only [trim_toString, readNatural?_toString hn]

theorem create_eq (hs : Holds s n held) (hn : n ≤ largest64) (b : Barcode) :
    create s b =
      if n < largest64 then
        (.ok (.ofBarcode (cardId (n + 1)) b), s.set counterKey (toString (n + 1)))
      else (.error (.counter (toString n)), s) := by
  rw [create, hs.nextNumber_eq hn]
  split_ifs <;> rfl

theorem setCounter (hs : Holds s n held) :
    Holds (s.set counterKey (toString (n + 1))) (n + 1) held where
  counter := by rw [Store.get?_set, if_pos rfl, if_neg n.succ_ne_zero]
  record := fun hid => by rw [Store.get?_set, if_neg hid, hs.record hid]

theorem save (hs : Holds s n held) {c : Card} (hid : c.id ≠ counterKey) :
    Holds (Wallet.save s c) n fun id => if id = c.id then some c else held id where
  counter := by rw [get?_save, if_neg (Ne.symm hid), hs.counter]
  record := fun hother => by
    rw [get?_save]
    split_ifs
    · rfl
    · exact hs.record hother

theorem delete (hs : Holds s n held) (id : String) :
    Holds (Wallet.delete s id) (if id = counterKey then 0 else n)
      fun other => if other = id then none else held other where
  counter := by
    rw [get?_delete]
    by_cases hid : id = counterKey
    · rw [if_pos hid.symm, if_pos hid, if_pos rfl]
    · rw [if_neg (Ne.symm hid), if_neg hid, hs.counter]
  record := fun hother => by
    rw [get?_delete]
    split_ifs
    · rfl
    · exact hs.record hother

end Holds

end LiveMarkup.Wallet
