import Mathlib.Data.List.Induction
import LiveMarkup.Proofs.Cards.Collected
import LiveMarkup.Proofs.Cards.Counting

/-!
# What a wallet holds

Cards are created, saved and deleted in a store that is empty at first, under identifiers that
earlier creations have handed out.  The store then behaves like a function from identifiers to cards
beside a count of creations: creations hand out consecutive numbers, listing gives the cards that
were saved after they were last deleted, in the order in which they were created and as they were
last saved, and loading gives these cards and no others (`listing_after`).

The counter is kept in the same store, so its key is the one identifier under which something that
is no card can be found (`load_counterKey_not_found`).
-/

namespace LiveMarkup.Wallet

variable {s : Store} {n : ℕ} {id : String} {held : String → Option Card}

/-! ### Histories -/

/-- What is done with the cards of a store. -/
inductive Step where
  | create (b : Barcode)
  | save (c : Card)
  | delete (id : String)
  deriving DecidableEq

/-- The card that a step makes, if any, and the store after it. -/
def Step.perform (s : Store) : Step → Option Card × Store
  | create b => ((Wallet.create s b).1.toOption, (Wallet.create s b).2)
  | save c => (none, Wallet.save s c)
  | delete id => (none, Wallet.delete s id)

/-- The cards that steps make, in order, and the store after the steps, which was empty at first. -/
def run (h : List Step) : List Card × Store :=
  h.foldl (fun p e => (p.1 ++ (e.perform p.2).1.toList, (e.perform p.2).2)) ([], .empty)

/-- The cards that have been created, in order. -/
def made (h : List Step) : List Card := (run h).1

/-- The store after steps. -/
def after (h : List Step) : Store := (run h).2

/-- The barcodes that cards were to be created for, in order. -/
def barcodes (h : List Step) : List Barcode :=
  h.filterMap fun
    | .create b => some b
    | _ => none

/-- The card that was saved under an identifier, if it was saved after it was last deleted. -/
def lastSaved (h : List Step) (id : String) : Option Card :=
  h.foldl (fun held e => match e with
    | .save c => if id = c.id then some c else held
    | .delete other => if id = other then none else held
    | .create _ => held) none

/-- Whether a step comes after others: what is saved or deleted has an identifier of a card that has
been created, and the colour of a card is an index of 64 bits. -/
def Step.Allowed (h : List Step) : Step → Prop
  | create _ => True
  | save c => c.id ∈ (made h).map Card.id ∧ c.color ≤ largest64
  | delete id => id ∈ (made h).map Card.id

/-- Whether steps come one after the other, after others. -/
def FeasibleFrom (earlier : List Step) : List Step → Prop
  | [] => True
  | e :: h => e.Allowed earlier ∧ FeasibleFrom (earlier ++ [e]) h

/-- Whether all that is saved or deleted has an identifier that an earlier creation handed out. -/
def Feasible (h : List Step) : Prop := FeasibleFrom [] h

instance (h : List Step) : (e : Step) → Decidable (e.Allowed h)
  | .create _ => isTrue trivial
  | .save _ => inferInstanceAs (Decidable (_ ∧ _))
  | .delete id => inferInstanceAs (Decidable (id ∈ _))

instance decidableFeasibleFrom :
    (earlier h : List Step) → Decidable (FeasibleFrom earlier h)
  | _, [] => isTrue trivial
  | earlier, e :: h =>
    have := decidableFeasibleFrom (earlier ++ [e]) h
    inferInstanceAs (Decidable (_ ∧ _))

instance (h : List Step) : Decidable (Feasible h) := decidableFeasibleFrom [] h

theorem feasibleFrom_concat {earlier h : List Step} {e : Step} :
    FeasibleFrom earlier (h ++ [e]) ↔ FeasibleFrom earlier h ∧ e.Allowed (earlier ++ h) := by
  induction h generalizing earlier with
  | nil => simp [FeasibleFrom]
  | cons d h ih => simp [FeasibleFrom, ih, and_assoc]

theorem feasible_concat {h : List Step} {e : Step} :
    Feasible (h ++ [e]) ↔ Feasible h ∧ e.Allowed h := feasibleFrom_concat

theorem made_concat (h : List Step) (e : Step) :
    made (h ++ [e]) = made h ++ (e.perform (after h)).1.toList := by
  simp [made, after, run]

theorem after_concat (h : List Step) (e : Step) :
    after (h ++ [e]) = (e.perform (after h)).2 := by
  simp [after, run]

/-! ### What the store holds -/

/-- A store holds a count of creations and the records of cards. -/
structure Mirrors (s : Store) (n : ℕ) (held : String → Option Card) : Prop where
  counter : s.get? counterKey = if n = 0 then none else some (toString n)
  record {id : String} : id ≠ counterKey → s.get? id = (held id).map Card.record
  held_spec {id : String} {c : Card} : held id = some c →
    c.id = id ∧ c.color ≤ largest64 ∧ ∃ k < n, id = cardId (k + 1)

namespace Mirrors

theorem ne_counterKey (hm : Mirrors s n held) {c : Card} (hc : held id = some c) :
    id ≠ counterKey := by
  obtain ⟨-, -, k, -, rfl⟩ := hm.held_spec hc
  exact Wallet.ne_counterKey (isCardKey_cardId _)

theorem holds (hm : Mirrors s n held) : Holds s n held := ⟨hm.counter, hm.record⟩

/-- A creation hands out the next number, and the record of no card changes. -/
theorem create (hm : Mirrors s n held) (hn : n < largest64) (b : Barcode) :
    (Wallet.create s b).1 = .ok (.ofBarcode (cardId (n + 1)) b) ∧
      Mirrors (Wallet.create s b).2 (n + 1) held := by
  have hnext := hm.holds.setCounter
  rw [hm.holds.create_eq (Nat.le_of_lt hn), if_pos hn]
  refine ⟨rfl, hnext.counter, hnext.record, fun hc => ?_⟩
  obtain ⟨hid, hcolor, k, hk, rfl⟩ := hm.held_spec hc
  exact ⟨hid, hcolor, k, Nat.lt_succ_of_lt hk, rfl⟩

theorem save (hm : Mirrors s n held) {c : Card} (hcolor : c.color ≤ largest64) {k : ℕ} (hk : k < n)
    (hid : c.id = cardId (k + 1)) :
    Mirrors (Wallet.save s c) n fun id => if id = c.id then some c else held id := by
  have hsaved := hm.holds.save (c := c) (hid ▸ Wallet.ne_counterKey (isCardKey_cardId _))
  refine ⟨hsaved.counter, hsaved.record, fun {id d} hd => ?_⟩
  split_ifs at hd with hsame
  · obtain rfl := Option.some.inj hd
    exact ⟨hsame.symm, hcolor, k, hk, hsame.trans hid⟩
  · exact hm.held_spec hd

theorem delete (hm : Mirrors s n held) (hne : id ≠ counterKey) :
    Mirrors (Wallet.delete s id) n fun other => if other = id then none else held other := by
  have hdeleted := hm.holds.delete id
  rw [if_neg hne] at hdeleted
  refine ⟨hdeleted.counter, hdeleted.record, fun {other d} hd => ?_⟩
  split_ifs at hd
  exact hm.held_spec hd

theorem load_of_not_held (hm : Mirrors s n held) (hne : id ≠ counterKey) (hid : held id = none) :
    load s id = .error (.notFound id) := by
  rw [load, hm.record hne, hid]
  rfl

theorem recorded_of_held (hm : Mirrors s n held) {c : Card} (hc : held id = some c) :
    recorded s id = some c := by
  obtain ⟨hid, hcolor, -⟩ := hm.held_spec hc
  rw [recorded, hm.record (hm.ne_counterKey hc), hc, Option.map_some, Option.bind_some,
    Card.ofRecord?_record hcolor, Option.map_some, ← hid]

/-- The identifiers of cards in the store are those under which cards are held. -/
theorem mem_cardKeys_iff (hm : Mirrors s n held) :
    id ∈ cardKeys s ↔ ∃ c, held id = some c := by
  rw [Wallet.mem_cardKeys_iff]
  constructor
  · rintro ⟨hkey, hcard⟩
    rw [hm.record (Wallet.ne_counterKey hcard), Option.isSome_map] at hkey
    exact Option.isSome_iff_exists.1 hkey
  · rintro ⟨c, hc⟩
    obtain ⟨-, -, k, -, rfl⟩ := hm.held_spec hc
    rw [hm.record (hm.ne_counterKey hc), hc]
    exact ⟨rfl, isCardKey_cardId (k + 1)⟩

theorem load_of_held (hm : Mirrors s n held) {c : Card} (hc : held id = some c) :
    load s id = .ok c := by
  rw [load_eq (get?_of_mem_cardKeys id (hm.mem_cardKeys_iff.2 ⟨c, hc⟩)), hm.recorded_of_held hc]
  rfl

/-- What is listed are the cards that are held, by number. -/
theorem cards_eq (hm : Mirrors s n held) (hn : n ≤ largest64) :
    cards s = .ok ((List.range n).filterMap fun k => held (cardId (k + 1))) := by
  have hmem : ∀ c, c ∈ (List.range n).filterMap (fun k => held (cardId (k + 1))) ↔
      held c.id = some c := by
    intro c
    rw [List.mem_filterMap]
    constructor
    · rintro ⟨k, -, hc⟩
      rwa [(hm.held_spec hc).1]
    · intro hc
      obtain ⟨-, -, k, hk, hid⟩ := hm.held_spec hc
      exact ⟨k, List.mem_range.2 hk, hid ▸ hc⟩
  have hahead : ((List.range n).filterMap fun k => held (cardId (k + 1))).Pairwise ListedAhead := by
    refine List.pairwise_filterMap.2 (List.pairwise_lt_range.imp_of_mem ?_)
    intro k k' hk hk' hlt a ha b hb
    have hle := List.mem_range.1 hk'
    rw [ListedAhead, (hm.held_spec ha).1, (hm.held_spec hb).1, rank_cardId (by omega),
      rank_cardId (by omega)]
    exact Or.inl (Nat.succ_lt_succ hlt)
  refine (sortedCards_eq_ok_iff get?_of_mem_cardKeys (nodup_cardKeys s)).2
    ⟨(List.perm_ext_iff_of_nodup (nodup_of_listedAhead hahead) (nodup_cardKeys s)).2 fun id => ?_,
      fun c hc => hm.recorded_of_held ((hmem c).1 hc), hahead⟩
  rw [hm.mem_cardKeys_iff, List.mem_map]
  constructor
  · rintro ⟨c, hc, rfl⟩
    exact ⟨c, (hmem c).1 hc⟩
  · rintro ⟨c, hc⟩
    obtain rfl := (hm.held_spec hc).1
    exact ⟨c, (hmem c).2 hc, rfl⟩

/-- The counter is no record of a card. -/
theorem load_counterKey (hm : Mirrors s n held) :
    load s counterKey =
      .error (if n = 0 then .notFound counterKey else .unreadable) := by
  rw [load, hm.counter]
  split_ifs
  · rfl
  · simp only [Card.ofRecord?_toString]

end Mirrors

/-! ### Runs -/

theorem lastSaved_concat (h : List Step) (e : Step) (id : String) :
    lastSaved (h ++ [e]) id = match e with
      | .save c => if id = c.id then some c else lastSaved h id
      | .delete other => if id = other then none else lastSaved h id
      | .create _ => lastSaved h id := by
  simp [lastSaved]

theorem barcodes_concat (h : List Step) (e : Step) :
    barcodes (h ++ [e]) = barcodes h ++ barcodes [e] := List.filterMap_append

/-- The creations of a history hand out consecutive numbers, and the store holds the cards that were
saved after they were last deleted. -/
theorem mirrors_after {h : List Step} (hh : Feasible h) (hmany : (barcodes h).length ≤ largest64) :
    made h = (barcodes h).mapIdx (fun k b => Card.ofBarcode (cardId (k + 1)) b) ∧
      Mirrors (after h) (barcodes h).length (lastSaved h) := by
  induction h using List.reverseRecOn with
  | nil =>
    exact ⟨rfl, rfl, fun _ => rfl, fun hc => by cases hc⟩
  | append_singleton h e ih =>
    obtain ⟨hbefore, he⟩ := feasible_concat.1 hh
    rw [barcodes_concat, List.length_append] at hmany
    obtain ⟨hmade, hm⟩ := ih hbefore (by omega)
    have hissued : ∀ id ∈ (made h).map Card.id, ∃ k < (barcodes h).length, id = cardId (k + 1) := by
      intro id hid
      obtain ⟨c, hc, rfl⟩ := List.mem_map.1 hid
      rw [hmade] at hc
      obtain ⟨k, hk, rfl⟩ := List.mem_mapIdx.1 hc
      exact ⟨k, hk, rfl⟩
    have hlast := funext (lastSaved_concat h e)
    rw [made_concat, after_concat, barcodes_concat, hlast]
    cases e with
    | create b =>
      obtain ⟨hcard, hnext⟩ := hm.create (Nat.lt_of_succ_le hmany) b
      refine ⟨?_, ?_⟩
      · have hone : barcodes [.create b] = [b] := rfl
        rw [hone, List.mapIdx_concat, hmade, Step.perform, hcard]
        rfl
      · rw [List.length_append]
        exact hnext
    | save c =>
      obtain ⟨k, hk, hid⟩ := hissued c.id he.1
      have hnone : barcodes [.save c] = [] := rfl
      rw [hnone, List.append_nil]
      exact ⟨(List.append_nil _).trans hmade, hm.save he.2 hk hid⟩
    | delete id =>
      obtain ⟨k, hk, rfl⟩ := hissued id he
      have hnone : barcodes [.delete (cardId (k + 1))] = [] := rfl
      rw [hnone, List.append_nil]
      exact ⟨(List.append_nil _).trans hmade,
        hm.delete (Wallet.ne_counterKey (isCardKey_cardId _))⟩

/-- After any history the cards that have been created have the identifiers `card.1`, `card.2` and
so on, no two of them the same; the cards that are listed are, in the order in which they were
created, those that were saved after they were last deleted, each as it was last saved; these are
loaded under their identifiers, and no card is found under any other, the key of the counter apart,
where a number is found if a card has been created. -/
theorem listing_after {h : List Step} (hh : Feasible h)
    (hmany : (barcodes h).length ≤ largest64) :
    made h = (barcodes h).mapIdx (fun k b => Card.ofBarcode ("card." ++ toString (k + 1)) b) ∧
      ((made h).map Card.id).Nodup ∧
      cards (after h) = .ok ((made h).filterMap fun c => lastSaved h c.id) ∧
      (∀ id c, lastSaved h id = some c → load (after h) id = .ok c) ∧
      (∀ id, lastSaved h id = none → id ≠ counterKey → load (after h) id = .error (.notFound id)) ∧
      load (after h) counterKey =
        .error (if barcodes h = [] then .notFound counterKey else .unreadable) := by
  obtain ⟨hmade, hm⟩ := mirrors_after hh hmany
  have hids : (made h).map Card.id =
      (List.range (barcodes h).length).map fun k => cardId (k + 1) := by
    rw [hmade]
    refine List.ext_getElem (by simp) fun k hk hk' => ?_
    simp [Card.ofBarcode]
  refine ⟨hmade, ?_, ?_, fun id c => hm.load_of_held, fun id hid hne => hm.load_of_not_held hne hid,
    ?_⟩
  · rw [hids]
    exact List.nodup_range.map (cardId_injective.comp fun _ _ => Nat.succ.inj)
  · have hlisted : (made h).filterMap (fun c => lastSaved h c.id) =
        (List.range (barcodes h).length).filterMap fun k => lastSaved h (cardId (k + 1)) := by
      rw [← Function.comp_def (lastSaved h) Card.id, ← List.filterMap_map, hids,
        List.filterMap_map]
      rfl
    rw [hlisted, hm.cards_eq hmany]
  · simp only [hm.load_counterKey, List.length_eq_zero_iff]

/-- Three cards, one of which is deleted after it has been saved, and one of which is saved again
with a name that needs escapes. -/
def smallWallet : List Step :=
  [.create ⟨"qr_code", "a"⟩, .save ⟨"card.1", "qr_code", "a", "Gym", 3⟩,
    .create ⟨"ean_8", "96385074"⟩, .create ⟨"qr_code", "c"⟩,
    .save ⟨"card.3", "qr_code", "c", "\"Späti\"\n", 0⟩,
    .save ⟨"card.2", "ean_8", "96385074", "", 12⟩, .delete "card.1",
    .save ⟨"card.2", "ean_8", "96385074", "C:\\\u0007", 18446744073709551615⟩]

theorem listing_after_smallWallet :
    Feasible smallWallet ∧ (barcodes smallWallet).length ≤ largest64 ∧
      cards (after smallWallet) =
        .ok [⟨"card.2", "ean_8", "96385074", "C:\\\u0007", 18446744073709551615⟩,
          ⟨"card.3", "qr_code", "c", "\"Späti\"\n", 0⟩] := by
  have hh : Feasible smallWallet := by decide +kernel
  have hmany : (barcodes smallWallet).length ≤ largest64 := by decide +kernel
  refine ⟨hh, hmany, (listing_after hh hmany).2.2.1.trans ?_⟩
  decide +kernel

/-- The key of the counter is an identifier under which no card has been saved, and still loading
does not say that nothing was found. -/
theorem load_counterKey_not_found :
    ¬ ∀ (h : List Step) (id : String), Feasible h → (barcodes h).length ≤ largest64 →
      lastSaved h id = none → load (after h) id = .error (.notFound id) := by
  intro hall
  have hh : Feasible [.create ⟨"qr_code", "a"⟩] := by decide +kernel
  have hmany : (barcodes [.create ⟨"qr_code", "a"⟩]).length ≤ largest64 := by decide +kernel
  have hload := (mirrors_after hh hmany).2.load_counterKey
  rw [hall _ counterKey hh hmany rfl] at hload
  cases hload

end LiveMarkup.Wallet
