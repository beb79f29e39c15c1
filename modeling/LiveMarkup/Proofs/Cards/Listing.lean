import Mathlib.Data.List.Basic
import LiveMarkup.Cards.Wallet
import LiveMarkup.Proofs.Cards.Entries
import LiveMarkup.Proofs.Text.Decimals

/-!
# Listing cards

Cards are listed by the numbers in their identifiers, and cards of one number by identifier.  This
is a total order, and no two cards of different identifiers are at one place of it; so a list of
cards that is in order is what sorting makes of any rearrangement of it (`mergeSort_eq_of_perm`).
-/

namespace LiveMarkup.Wallet

variable {a b c : Card} {n : ℕ}

/-! ### Identifiers -/

/-- The identifier with a number. -/
def cardId (n : ℕ) : String := idStart ++ toString n

theorem cardId_injective : Function.Injective cardId := by
  intro m n h
  have hdigits : (toString m).toList = (toString n).toList := by
    have hlists := congrArg String.toList h
    rw [cardId, cardId, String.toList_append, String.toList_append] at hlists
    exact List.append_cancel_left hlists
  rw [toList_toString, toList_toString] at hdigits
  have hvalue := congrArg (Nat.ofDigitChars 10 · 0) hdigits
  simpa only [Nat.ofDigitChars_ten_toDigits] using hvalue

/-- The identifiers of cards are the texts that begin with the fixed one. -/
theorem isCardKey_iff (key : String) :
    isCardKey key = true ↔ ∃ suffix, key = idStart ++ suffix := by
  rw [isCardKey, List.isPrefixOf_iff_prefix]
  constructor
  · rintro ⟨cs, hcs⟩
    refine ⟨String.ofList cs, ?_⟩
    rw [← String.toList_inj, String.toList_append, String.toList_ofList, hcs]
  · rintro ⟨suffix, rfl⟩
    rw [String.toList_append]
    exact List.prefix_append _ _

theorem isCardKey_cardId (n : ℕ) : isCardKey (cardId n) = true := (isCardKey_iff _).2 ⟨_, rfl⟩

theorem isCardKey_counterKey : isCardKey counterKey = false := by decide

theorem ne_counterKey {id : String} (hid : isCardKey id = true) : id ≠ counterKey := by
  rintro rfl
  rw [isCardKey_counterKey] at hid
  cases hid

/-- Cards are listed by what the rest of their identifier reads as. -/
theorem rank_append (suffix : String) :
    rank (idStart ++ suffix) = (readNatural? suffix).getD largest64 := by
  have hrest : String.ofList ((idStart ++ suffix).toList.drop idStart.length) = suffix := by
    rw [String.toList_append, ← String.length_toList, List.drop_left, String.ofList_toList]
  rw [rank, idNumber?, if_pos ((isCardKey_iff _).2 ⟨suffix, rfl⟩), hrest]

theorem rank_cardId (hn : n ≤ largest64) : rank (cardId n) = n := by
  rw [cardId, rank_append, readNatural?_toString hn]
  rfl

/-! ### The order of cards -/

theorem listedBefore_iff :
    listedBefore a b = true ↔ rank a.id < rank b.id ∨ rank a.id = rank b.id ∧ a.id ≤ b.id := by
  simp [listedBefore]

theorem listedBefore_trans (hab : listedBefore a b = true) (hbc : listedBefore b c = true) :
    listedBefore a c = true := by
  rw [listedBefore_iff] at hab hbc ⊢
  rcases hab with hab | ⟨hab, hle⟩
  · exact Or.inl (hbc.elim (Nat.lt_trans hab) fun h => h.1 ▸ hab)
  · rcases hbc with hbc | ⟨hbc, hle'⟩
    · exact Or.inl (hab ▸ hbc)
    · exact Or.inr ⟨hab.trans hbc, String.le_trans hle hle'⟩

theorem listedBefore_total (a b : Card) : (listedBefore a b || listedBefore b a) = true := by
  rw [Bool.or_eq_true, listedBefore_iff, listedBefore_iff]
  rcases Nat.lt_trichotomy (rank a.id) (rank b.id) with h | h | h
  · exact Or.inl (Or.inl h)
  · exact (String.le_total a.id b.id).imp (fun hle => Or.inr ⟨h, hle⟩)
      fun hle => Or.inr ⟨h.symm, hle⟩
  · exact Or.inr (Or.inl h)

theorem id_eq_of_listedBefore (hab : listedBefore a b = true) (hba : listedBefore b a = true) :
    a.id = b.id := by
  rw [listedBefore_iff] at hab hba
  rcases hab with hab | ⟨hab, hle⟩
  · rcases hba with hba | ⟨hba, -⟩
    · exact absurd hba (Nat.lt_asymm hab)
    · exact absurd hba.symm (Nat.ne_of_lt hab)
  · rcases hba with hba | ⟨-, hle'⟩
    · exact absurd hab.symm (Nat.ne_of_lt hba)
    · exact String.le_antisymm hle hle'

/-- Sorting brings cards into their order, of which there is one only. -/
theorem mergeSort_eq_of_perm {cs ds : List Card} (hperm : cs.Perm ds)
    (hids : ∀ a ∈ ds, ∀ b ∈ ds, a.id = b.id → a = b)
    (hsorted : ds.Pairwise fun a b => listedBefore a b = true) :
    cs.mergeSort listedBefore = ds := by
  have hds := (List.mergeSort_perm cs listedBefore).trans hperm
  have hbefore := @List.pairwise_mergeSort _ listedBefore (fun _ _ _ => listedBefore_trans)
    listedBefore_total cs
  refine @List.Perm.eq_of_pairwise _ (fun a b => listedBefore a b = true) _ _
    (fun a b ha hb hab hba => ?_) hbefore hsorted hds
  exact hids a (hds.mem_iff.1 ha) b hb (id_eq_of_listedBefore hab hba)

end LiveMarkup.Wallet
