import LiveMarkup.Proofs.Cards.Listing

/-!
# All cards of a store

Collecting the cards of a store either fails, because there is something under the identifier of a
card that cannot be read, or gives one card for each such identifier, in the only order that numbers
and identifiers allow (`cards_eq_ok_iff`).  The outcome depends on what is found under the keys and
on nothing else, not even on the order in which the keys are gone through (`sortedCards_of_perm`).
-/

namespace LiveMarkup.Wallet

variable {s : Store} {c : Card} {cs : List Card} {id : String} {ids : List String}

/-- Whether a card is listed before another: by number, then by identifier. -/
def ListedAhead (a b : Card) : Prop := rank a.id < rank b.id ∨ rank a.id = rank b.id ∧ a.id < b.id

instance (a b : Card) : Decidable (ListedAhead a b) := inferInstanceAs (Decidable (_ ∨ _))

/-- The card that the record under an identifier describes, with this identifier. -/
def recorded (s : Store) (id : String) : Option Card :=
  ((s.get? id).bind Card.ofRecord?).map fun c => { c with id := id }

/-- The identifiers of cards under which there is something in a store. -/
def cardKeys (s : Store) : List String := s.keys.filter isCardKey

/-- The cards under the given identifiers, sorted. -/
def sortedCards (s : Store) (ids : List String) : Except CardFault (List Card) :=
  (loadAll s ids).map fun cs => cs.mergeSort listedBefore

theorem id_of_recorded (hc : recorded s id = some c) : c.id = id := by
  obtain ⟨d, -, rfl⟩ := Option.map_eq_some_iff.1 hc
  rfl

theorem mem_cardKeys_iff : id ∈ cardKeys s ↔ (s.get? id).isSome = true ∧ isCardKey id = true := by
  rw [cardKeys, List.mem_filter, Store.mem_keys_iff]

theorem nodup_cardKeys (s : Store) : (cardKeys s).Nodup := s.nodup_keys.filter _

/-! ### Loading -/

/-- Loading what is there fails only because it cannot be read. -/
theorem load_eq (hid : (s.get? id).isSome = true) :
    load s id = (recorded s id).elim (.error .unreadable) .ok := by
  obtain ⟨record, hrecord⟩ := Option.isSome_iff_exists.1 hid
  rw [load, recorded, hrecord, Option.bind_some]
  cases hcard : Card.ofRecord? record with
  | none => simp only [hcard]; rfl
  | some d => simp only [hcard]; rfl

theorem loadAll_eq (hids : ∀ id ∈ ids, (s.get? id).isSome = true) :
    loadAll s ids =
      if ∀ id ∈ ids, (recorded s id).isSome = true then .ok (ids.filterMap (recorded s))
      else .error .unreadable := by
  induction ids with
  | nil => simp [loadAll]
  | cons id ids ih =>
    have hrest := ih fun i hi => hids i (List.mem_cons_of_mem _ hi)
    rw [loadAll, load_eq (hids id List.mem_cons_self)]
    cases hc : recorded s id with
    | none => simp [hc]
    | some c =>
      simp only [Option.elim_some, hrest, List.forall_mem_cons, hc, Option.isSome_some, true_and,
        List.filterMap_cons_some hc]
      split_ifs <;> rfl

/-! ### Sorting -/

theorem eq_of_id_eq {a b : Card} (ha : recorded s a.id = some a) (hb : recorded s b.id = some b)
    (hid : a.id = b.id) : a = b := by
  rw [hid, hb] at ha
  exact (Option.some.inj ha).symm

theorem recorded_of_mem_filterMap (hc : c ∈ ids.filterMap (recorded s)) :
    recorded s c.id = some c := by
  obtain ⟨id, -, hid⟩ := List.mem_filterMap.1 hc
  rwa [id_of_recorded hid]

/-- Cards of different identifiers that are in order are so strictly. -/
theorem listedAhead_of_nodup (hsorted : cs.Pairwise fun a b => listedBefore a b = true)
    (hids : (cs.map Card.id).Nodup) : cs.Pairwise ListedAhead := by
  refine (hsorted.and (List.pairwise_map.1 hids)).imp fun {a b} ⟨hbefore, hne⟩ => ?_
  rcases listedBefore_iff.1 hbefore with hlt | ⟨heq, hle⟩
  · exact Or.inl hlt
  · exact Or.inr ⟨heq, Std.lt_of_le_of_ne hle hne⟩

theorem listedBefore_of_listedAhead {a b : Card} (h : ListedAhead a b) : listedBefore a b = true :=
  listedBefore_iff.2 (h.imp id fun ⟨heq, hlt⟩ => ⟨heq, String.not_lt.1 (String.lt_asymm hlt)⟩)

/-- Cards in strict order have different identifiers. -/
theorem nodup_of_listedAhead (h : cs.Pairwise ListedAhead) : (cs.map Card.id).Nodup := by
  refine List.pairwise_map.2 (h.imp fun {a b} hab hid => ?_)
  rw [ListedAhead, hid] at hab
  exact hab.elim (Nat.lt_irrefl _) fun hlt => String.lt_irrefl _ hlt.2

theorem map_id_filterMap_recorded (hall : ∀ id ∈ ids, (recorded s id).isSome = true) :
    (ids.filterMap (recorded s)).map Card.id = ids := by
  induction ids with
  | nil => rfl
  | cons id ids ih =>
    obtain ⟨c, hc⟩ := Option.isSome_iff_exists.1 (hall id List.mem_cons_self)
    rw [List.filterMap_cons_some hc, List.map_cons, id_of_recorded hc,
      ih fun i hi => hall i (List.mem_cons_of_mem _ hi)]

theorem filterMap_recorded_map_id (hcs : ∀ c ∈ cs, recorded s c.id = some c) :
    (cs.map Card.id).filterMap (recorded s) = cs := by
  rw [List.filterMap_map]
  exact (List.filterMap_congr hcs).trans List.filterMap_some

theorem sortedCards_eq (hids : ∀ id ∈ ids, (s.get? id).isSome = true) :
    sortedCards s ids =
      if ∀ id ∈ ids, (recorded s id).isSome = true then
        .ok ((ids.filterMap (recorded s)).mergeSort listedBefore)
      else .error .unreadable := by
  rw [sortedCards, loadAll_eq hids]
  split_ifs <;> rfl

/-- The sorted cards are the ones that are there under the identifiers, in strict order. -/
theorem sortedCards_eq_ok_iff (hids : ∀ id ∈ ids, (s.get? id).isSome = true) (hnodup : ids.Nodup) :
    sortedCards s ids = .ok cs ↔
      (cs.map Card.id).Perm ids ∧ (∀ c ∈ cs, recorded s c.id = some c) ∧
        cs.Pairwise ListedAhead := by
  rw [sortedCards_eq hids]
  constructor
  · intro h
    split_ifs at h with hall
    · obtain rfl := Except.ok.inj h
      have hperm := List.mergeSort_perm (ids.filterMap (recorded s)) listedBefore
      have hmap : (((ids.filterMap (recorded s)).mergeSort listedBefore).map Card.id).Perm ids :=
        (hperm.map Card.id).trans (.of_eq (map_id_filterMap_recorded hall))
      refine ⟨hmap, fun c hc => recorded_of_mem_filterMap (hperm.mem_iff.1 hc), ?_⟩
      exact listedAhead_of_nodup (@List.pairwise_mergeSort _ listedBefore
        (fun _ _ _ => listedBefore_trans) listedBefore_total _) (hmap.nodup_iff.2 hnodup)
  · rintro ⟨hperm, hcs, hahead⟩
    have hall : ∀ id ∈ ids, (recorded s id).isSome = true := by
      intro id hid
      obtain ⟨c, hc, rfl⟩ := List.mem_map.1 (hperm.mem_iff.2 hid)
      rw [hcs c hc]
      rfl
    have hcards : (ids.filterMap (recorded s)).Perm cs := by
      rw [← filterMap_recorded_map_id hcs]
      exact (hperm.filterMap _).symm
    rw [if_pos hall]
    exact congrArg Except.ok (mergeSort_eq_of_perm hcards
      (fun a ha b hb => eq_of_id_eq (hcs a ha) (hcs b hb))
      (hahead.imp listedBefore_of_listedAhead))

/-- It does not matter in which order the identifiers are gone through. -/
theorem sortedCards_of_perm {ids' : List String} (hids : ∀ id ∈ ids, (s.get? id).isSome = true)
    (hnodup : ids.Nodup) (hperm : ids'.Perm ids) : sortedCards s ids' = sortedCards s ids := by
  have hids' : ∀ id ∈ ids', (s.get? id).isSome = true := fun id hid =>
    hids id (hperm.mem_iff.1 hid)
  by_cases hall : ∀ id ∈ ids, (recorded s id).isSome = true
  · have hcards := (sortedCards_eq hids).trans (if_pos hall)
    obtain ⟨hmap, hcs, hahead⟩ := (sortedCards_eq_ok_iff hids hnodup).1 hcards
    rw [hcards]
    exact (sortedCards_eq_ok_iff hids' (hperm.nodup_iff.2 hnodup)).2
      ⟨hmap.trans hperm.symm, hcs, hahead⟩
  · have hall' : ¬ ∀ id ∈ ids', (recorded s id).isSome = true := fun h =>
      hall fun id hid => h id (hperm.mem_iff.2 hid)
    rw [sortedCards_eq hids, sortedCards_eq hids', if_neg hall, if_neg hall']

/-! ### Listing all cards -/

theorem get?_of_mem_cardKeys : ∀ id ∈ cardKeys s, (s.get? id).isSome = true :=
  fun _ hid => (mem_cardKeys_iff.1 hid).1

theorem cards_eq (s : Store) :
    cards s =
      if ∀ id ∈ cardKeys s, (recorded s id).isSome = true then
        .ok (((cardKeys s).filterMap (recorded s)).mergeSort listedBefore)
      else .error .unreadable :=
  sortedCards_eq get?_of_mem_cardKeys

theorem isSome_recorded_iff {record : String} (hrecord : s.get? id = some record) :
    (recorded s id).isSome = true ↔ ∃ d, Card.ofRecord? record = some d := by
  rw [recorded, hrecord, Option.bind_some, Option.isSome_map, Option.isSome_iff_exists]

/-- The records of cards can all be read exactly if what is found under every identifier of a card
can be. -/
theorem forall_recorded_iff (s : Store) :
    (∀ id ∈ cardKeys s, (recorded s id).isSome = true) ↔
      ∀ suffix record, s.get? ("card." ++ suffix) = some record →
        ∃ d, Card.ofRecord? record = some d := by
  constructor
  · intro h suffix record hrecord
    refine (isSome_recorded_iff hrecord).1 (h _ (mem_cardKeys_iff.2 ⟨by rw [hrecord]; rfl, ?_⟩))
    exact (isCardKey_iff _).2 ⟨suffix, rfl⟩
  · intro h id hid
    obtain ⟨hkey, hcard⟩ := mem_cardKeys_iff.1 hid
    obtain ⟨record, hrecord⟩ := Option.isSome_iff_exists.1 hkey
    obtain ⟨suffix, rfl⟩ := (isCardKey_iff id).1 hcard
    exact (isSome_recorded_iff hrecord).2 (h suffix record hrecord)

/-- Cards are the texts under keys that begin with `card.`, and are listed by what the rest of the
key reads as.  They can be listed exactly if all of them can be read.  The list then has one card
for each of these keys, with the key for its identifier and otherwise as its record says, and the
cards are in strict order of number and identifier; no other list is given.  The list is the same
for stores in which the same is found under every key, and for any order in which the keys are gone
through. -/
theorem cards_eq_ok_iff (s : Store) :
    (∀ key, isCardKey key = true ↔ ∃ suffix, key = "card." ++ suffix) ∧
    (∀ suffix, rank ("card." ++ suffix) = (readNatural? suffix).getD largest64) ∧
    ((∃ cs, cards s = .ok cs) ↔ ∀ suffix record, s.get? ("card." ++ suffix) = some record →
      ∃ d, Card.ofRecord? record = some d) ∧
    (∀ fault, cards s = .error fault → fault = .unreadable) ∧
    (∀ cs, cards s = .ok cs ↔
      (cs.map Card.id).Perm (cardKeys s) ∧ (∀ c ∈ cs, recorded s c.id = some c) ∧
        cs.Pairwise ListedAhead) ∧
    (∀ t : Store, (∀ key, t.get? key = s.get? key) → cards t = cards s) ∧
    ∀ ids, ids.Perm (cardKeys s) → sortedCards s ids = cards s := by
  refine ⟨isCardKey_iff, rank_append, ?_, fun fault hfault => ?_,
    fun cs => sortedCards_eq_ok_iff get?_of_mem_cardKeys (nodup_cardKeys s),
    fun t ht => by rw [Store.eq_of_get?_eq ht],
    fun ids => sortedCards_of_perm get?_of_mem_cardKeys (nodup_cardKeys s)⟩
  · rw [← forall_recorded_iff, cards_eq]
    split_ifs with hall
    · exact iff_of_true ⟨_, rfl⟩ hall
    · exact iff_of_false (fun ⟨cs, hcs⟩ => by cases hcs) hall
  · rw [cards_eq] at hfault
    split_ifs at hfault
    exact (Except.error.inj hfault).symm

/-- Cards of one number under three identifiers, a card without a number, one whose record has
another identifier, and keys that only look like identifiers of cards. -/
def tiedStore : Store :=
  [("card.10", "[\"card.1\",\"itf\",\"10\"]"), ("card-id-gen", "9"),
    ("card.7", "[\"\",\"itf\",\"7\"]"), ("card.x", "[\"\",\"itf\",\"x\"]"),
    ("card.+7", "[\"\",\"itf\",\"+7\",\"Gym\"]"), ("cards", "none"),
    ("card.07", "[\"\",\"itf\",\"07\",\"\",4]")].foldl (fun s e => s.set e.1 e.2) .empty

theorem cards_eq_ok_iff_tiedStore :
    cards tiedStore = .ok
      [⟨"card.+7", "itf", "+7", "Gym", 0⟩, ⟨"card.07", "itf", "07", "", 4⟩,
        ⟨"card.7", "itf", "7", "", 0⟩, ⟨"card.10", "itf", "10", "", 0⟩,
        ⟨"card.x", "itf", "x", "", 0⟩] :=
  ((cards_eq_ok_iff tiedStore).2.2.2.2.1 _).2
    ⟨by decide +kernel, by decide +kernel, by decide +kernel⟩

end LiveMarkup.Wallet
