import LiveMarkup.Proofs.Cards.Wallets

/-!
# Created cards

A creation takes the number that follows the counter.  It looks at no record, so what it makes is
fresh only as far as the counter knows of the cards that are there: a card that was made elsewhere
and saved under a number that the counter has not reached yet has its identifier taken by a later
creation (`created_fresh_iff`, `exists_created_not_fresh`).
-/

namespace LiveMarkup.Wallet

variable {s : Store} {h : List Step} {b : Barcode} {c : Card} {id : String}

/-- The number at which the counter stands after a step, if it stood at `n` before. -/
def Step.count (n : ℕ) : Step → ℕ
  | create _ => if n < largest64 then n + 1 else n
  | save _ => n
  | delete id => if id = counterKey then 0 else n

/-- The number at which the counter stands after steps in a store that is empty at first. -/
def issued (h : List Step) : ℕ := h.foldl Step.count 0

theorem issued_concat (h : List Step) (e : Step) : issued (h ++ [e]) = e.count (issued h) := by
  simp [issued]

theorem Step.count_le {n : ℕ} (hn : n ≤ largest64) (e : Step) : e.count n ≤ largest64 := by
  cases e with
  | create b =>
    rw [count]
    split_ifs with hlt
    · exact hlt
    · exact hn
  | save c => exact hn
  | delete id =>
    rw [count]
    split_ifs
    · exact Nat.zero_le _
    · exact hn

theorem issued_le (h : List Step) : issued h ≤ largest64 := by
  induction h using List.reverseRecOn with
  | nil => exact Nat.zero_le _
  | append_singleton h e ih => exact issued_concat h e ▸ e.count_le ih

/-- What is held under an identifier has been saved under it. -/
theorem mem_of_lastSaved (hc : lastSaved h id = some c) : Step.save c ∈ h ∧ c.id = id := by
  induction h using List.reverseRecOn with
  | nil => cases hc
  | append_singleton h e ih =>
    have hbefore : lastSaved h id = some c → Step.save c ∈ h ++ [e] ∧ c.id = id :=
      fun hc => (ih hc).imp_left (List.mem_append_left _)
    rw [lastSaved_concat] at hc
    cases e with
    | create b => exact hbefore hc
    | save d =>
      simp only at hc
      split_ifs at hc with hid
      · obtain rfl := Option.some.inj hc
        exact ⟨List.mem_append_right _ List.mem_cons_self, hid.symm⟩
      · exact hbefore hc
    | delete other =>
      simp only at hc
      split_ifs at hc
      exact hbefore hc

/-- After steps that save cards under identifiers of cards only, the counter stands at the number
that was handed out last, and the records are those of the cards that were saved. -/
theorem holds_after (hcards : ∀ c, Step.save c ∈ h → isCardKey c.id = true) :
    Holds (after h) (issued h) (lastSaved h) := by
  induction h using List.reverseRecOn with
  | nil => exact ⟨rfl, fun _ => rfl⟩
  | append_singleton h e ih =>
    have hs := ih fun c hc => hcards c (List.mem_append_left _ hc)
    rw [after_concat, issued_concat, funext (lastSaved_concat h e)]
    cases e with
    | create b =>
      simp only [Step.perform, Step.count, hs.create_eq (issued_le h)]
      split_ifs
      · exact hs.setCounter
      · exact hs
    | save c =>
      exact hs.save (ne_counterKey (hcards c (List.mem_append_right _ List.mem_cons_self)))
    | delete id => exact hs.delete id

theorem get?_create_of_ne (s : Store) (b : Barcode) {key : String} (hkey : key ≠ counterKey) :
    (create s b).2.get? key = s.get? key := by
  rcases create_cases s b with ⟨text, -, hcreate⟩ | ⟨n, hcreate⟩
  · rw [hcreate]
  · rw [hcreate, Store.get?_set, if_neg hkey]

/-- No creation changes a key other than that of the counter, and one that is refused changes
nothing.  After any steps that save cards under identifiers of cards, a creation succeeds exactly if
the counter is not exhausted.  It then makes the card of the next number, and the store has no
record under its identifier exactly if no card was saved there after the last deletion; in
particular if no card was ever saved under a number above that of the counter. -/
theorem created_fresh_iff (s : Store) (b : Barcode) {h : List Step}
    (hcards : ∀ c, Step.save c ∈ h → isCardKey c.id = true) :
    (∀ key, key ≠ counterKey → (create s b).2.get? key = s.get? key) ∧
    (∀ fault, (create s b).1 = .error fault → (create s b).2 = s) ∧
    ((∃ c, (create (after h) b).1 = .ok c) ↔ issued h < largest64) ∧
    ∀ c, (create (after h) b).1 = .ok c →
      c = .ofBarcode ("card." ++ toString (issued h + 1)) b ∧
      (create (after h) b).2.get? counterKey = some (toString (issued h + 1)) ∧
      ((after h).get? c.id = none ↔ lastSaved h c.id = none) ∧
      ((∀ d, Step.save d ∈ h → ∀ k, d.id = "card." ++ toString k → k ≤ issued h) →
        (after h).get? c.id = none) := by
  refine ⟨fun key => get?_create_of_ne s b, fun fault hfault => ?_, ?_⟩
  · rcases create_cases s b with ⟨text, -, hcreate⟩ | ⟨n, hcreate⟩
    · rw [hcreate]
    · rw [hcreate] at hfault
      cases hfault
  have hs := holds_after hcards
  rw [hs.create_eq (issued_le h)]
  by_cases hlt : issued h < largest64
  · rw [if_pos hlt]
    refine ⟨iff_of_true ⟨_, rfl⟩ hlt, fun c hc => ?_⟩
    obtain rfl := Except.ok.inj hc
    have hrecord : (after h).get? (cardId (issued h + 1)) =
        (lastSaved h (cardId (issued h + 1))).map Card.record :=
      hs.record (ne_counterKey (isCardKey_cardId _))
    have hfresh : (after h).get? (cardId (issued h + 1)) = none ↔
        lastSaved h (cardId (issued h + 1)) = none := by
      rw [hrecord, Option.map_eq_none_iff]
    refine ⟨rfl, by rw [Store.get?_set, if_pos rfl], hfresh, fun hbelow => hfresh.2 ?_⟩
    rw [Option.eq_none_iff_forall_ne_some]
    intro d hd
    obtain ⟨hsaved, hid⟩ := mem_of_lastSaved hd
    exact absurd (hbelow d hsaved _ hid) (Nat.not_succ_le_self _)
  · rw [if_neg hlt]
    exact ⟨iff_of_false (fun ⟨c, hc⟩ => by cases hc) hlt, fun c hc => by cases hc⟩

/-- A card that was made elsewhere is saved under the number that comes next. -/
def importedAhead : List Step :=
  [.create ⟨"qr_code", "a"⟩, .save ⟨"card.2", "ean_8", "96385074", "Gym", 3⟩, .delete "card.1"]

theorem created_fresh_iff_importedAhead :
    (∀ c, Step.save c ∈ importedAhead → isCardKey c.id = true) ∧
      (create (after importedAhead) ⟨"qr_code", "b"⟩).1 = .ok ⟨"card.2", "qr_code", "b", "", 0⟩ ∧
      (after importedAhead).get? "card.2" ≠ none := by
  have hcards : ∀ c, Step.save c ∈ importedAhead → isCardKey c.id = true := by
    intro c hc
    simp only [importedAhead, List.mem_cons, reduceCtorEq, Step.save.injEq, List.not_mem_nil,
      or_false, false_or] at hc
    exact hc ▸ by decide
  obtain ⟨-, -, hsucceeds, hcreated⟩ := created_fresh_iff .empty ⟨"qr_code", "b"⟩ hcards
  obtain ⟨c, hc⟩ := hsucceeds.2 (by decide)
  obtain ⟨hcard, -, hfresh, -⟩ := hcreated c hc
  have hsame : c = ⟨"card.2", "qr_code", "b", "", 0⟩ := hcard.trans (by decide)
  subst hsame
  refine ⟨hcards, hc, fun hnone => ?_⟩
  have hsaved := hfresh.1 hnone
  revert hsaved
  decide

/-- A creation can make a card whose identifier has a record in the store. -/
theorem exists_created_not_fresh :
    ¬ ∀ (h : List Step) (b : Barcode) (c : Card),
      (∀ d, Step.save d ∈ h → isCardKey d.id = true) → (create (after h) b).1 = .ok c →
        (after h).get? c.id = none := by
  intro hall
  have hcreated : (create (after [.save ⟨"card.1", "qr_code", "a", "", 0⟩]) ⟨"qr_code", "b"⟩).1 =
      .ok ⟨"card.1", "qr_code", "b", "", 0⟩ := by decide
  have hnone := hall [.save ⟨"card.1", "qr_code", "a", "", 0⟩] _ _
    (fun d hd => by rw [List.mem_singleton, Step.save.injEq] at hd; exact hd ▸ by decide) hcreated
  revert hnone
  decide

end LiveMarkup.Wallet
