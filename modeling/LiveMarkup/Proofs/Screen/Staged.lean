import LiveMarkup.Proofs.Forest.Expanded
import LiveMarkup.Script.Command

/-!
# Values that come in stages

A `Staged` value is what a script can bind to a hole when parts of it come later, at any depth: at
the next turn of the tasks (`soon`), or once they have been sent through a named channel (`sent`).
What is seen of it depends on what has come (`Staged.look`); where a part is missing nothing is seen
(`Staged.look_of_blocked`), and when everything has come it looks like the value in which nothing
comes later (`Staged.look_now`).
-/

namespace LiveMarkup

/-- A value for a hole, parts of which come later. -/
inductive Staged where
  | empty
  | text (s : String)
  | node (name : String)
  | list (items : List Staged)
  | soon (value : Staged)
  | sent (channel : String) (value : Staged)

/-- What has come so far: nothing, or all that comes soon and what was sent through the given
channels. -/
abbrev Seen := Option (List String)

/-- Whether all that has come in one situation has come in the other. -/
def Seen.Within (R S : Seen) : Prop :=
  (R.isSome = true → S.isSome = true) ∧ ∀ c ∈ R.getD [], c ∈ S.getD []

theorem Seen.Within.refl (S : Seen) : S.Within S := ⟨id, fun _ => id⟩

theorem Seen.Within.trans {Q R S : Seen} (h : Q.Within R) (h' : R.Within S) : Q.Within S :=
  ⟨fun hQ => h'.1 (h.1 hQ), fun c hc => h'.2 c (h.2 c hc)⟩

namespace Staged

/-! ### Descriptions -/

mutual

/-- The description from which a script builds the value. -/
def spec : Staged → Spec
  | empty => .empty
  | text s => .text s
  | node name => .node name
  | list items => .list (specs items)
  | soon v => .deferred v.spec
  | sent c _ => .received c

/-- The descriptions of several values. -/
def specs : List Staged → List Spec
  | [] => []
  | v :: vs => v.spec :: specs vs

end

mutual

/-- The value without any delay. -/
def now : Staged → Staged
  | empty => empty
  | text s => text s
  | node name => node name
  | list items => list (nowAll items)
  | soon v => v.now
  | sent _ v => v.now

/-- Several values without any delay. -/
def nowAll : List Staged → List Staged
  | [] => []
  | v :: vs => v.now :: nowAll vs

end

/-- Whether a value is a text or nothing, however late: what an attribute can take. -/
def Plain : Staged → Prop
  | empty => True
  | text _ => True
  | node _ => False
  | list _ => False
  | soon v => v.Plain
  | sent _ v => v.Plain

/-! ### What is in a value -/

mutual

/-- The names of the nodes in a value. -/
def names : Staged → List String
  | empty => []
  | text _ => []
  | node name => [name]
  | list items => namesAll items
  | soon v => v.names
  | sent _ v => v.names

/-- The names of the nodes in several values. -/
def namesAll : List Staged → List String
  | [] => []
  | v :: vs => v.names ++ namesAll vs

end

mutual

/-- The channels in a value, each with the value to be sent through it. -/
def parts : Staged → List (String × Staged)
  | empty => []
  | text _ => []
  | node _ => []
  | list items => partsAll items
  | soon v => v.parts
  | sent c v => (c, v) :: v.parts

/-- The channels in several values. -/
def partsAll : List Staged → List (String × Staged)
  | [] => []
  | v :: vs => v.parts ++ partsAll vs

end

mutual

/-- The outermost parts that come later. -/
def pending : Staged → List Staged
  | empty => []
  | text _ => []
  | node _ => []
  | list items => pendingAll items
  | soon v => [soon v]
  | sent c v => [sent c v]

/-- The outermost parts of several values that come later. -/
def pendingAll : List Staged → List Staged
  | [] => []
  | v :: vs => v.pending ++ pendingAll vs

end

mutual

/-- How often something in a value comes later. -/
def delays : Staged → ℕ
  | empty => 0
  | text _ => 0
  | node _ => 0
  | list items => delaysAll items
  | soon v => v.delays + 1
  | sent _ v => v.delays + 1

/-- How often something in several values comes later. -/
def delaysAll : List Staged → ℕ
  | [] => 0
  | v :: vs => v.delays + delaysAll vs

end

/-- Whether a value comes later as a whole. -/
def IsLater : Staged → Prop
  | soon _ => True
  | sent _ _ => True
  | _ => False

/-- The value that comes. -/
def body : Staged → Staged
  | soon v => v
  | sent _ v => v
  | v => v

/-- The channel through which a value comes. -/
def channel? : Staged → Option String
  | sent c _ => some c
  | _ => none

/-- The channels whose receivers are taken when the value is built. -/
def held (v : Staged) : List String := v.pending.filterMap channel?

/-- The channels whose receivers are taken when several values are built. -/
def heldAll (vs : List Staged) : List String := (pendingAll vs).filterMap channel?

/-! ### What is seen of a value -/

mutual

/-- What is seen of a value in place of a comment, where named nodes bring the trees `shape`. -/
def trees (S : Seen) (shape : String → List Tree) : Staged → List Tree
  | empty => [.comment ""]
  | text s => [.text s]
  | node name => shape name
  | list items => treesAll S shape items
  | soon v => if S.isSome then v.trees S shape else [.comment ""]
  | sent c v => if c ∈ S.getD [] then v.trees S shape else [.comment ""]

/-- What is seen of several values, one after the other. -/
def treesAll (S : Seen) (shape : String → List Tree) : List Staged → List Tree
  | [] => []
  | v :: vs => v.trees S shape ++ treesAll S shape vs

end

/-- What is seen of a value of an attribute. -/
def word (S : Seen) : Staged → String
  | text s => s
  | soon v => if S.isSome then v.word S else ""
  | sent c v => if c ∈ S.getD [] then v.word S else ""
  | _ => ""

/-- What is seen of a value. -/
def look (S : Seen) (shape : String → List Tree) (v : Staged) : Look := ⟨v.trees S shape, v.word S⟩

/-- Whether a value that comes later has not come. -/
def Blocked (S : Seen) : Staged → Prop
  | soon _ => S.isSome = false
  | sent c _ => c ∉ S.getD []
  | _ => False

mutual

/-- Whether everything in a value has come. -/
def HasCome (S : Seen) : Staged → Prop
  | empty => True
  | text _ => True
  | node _ => True
  | list items => HaveCome S items
  | soon v => S.isSome = true ∧ v.HasCome S
  | sent c v => c ∈ S.getD [] ∧ v.HasCome S

/-- Whether everything in several values has come. -/
def HaveCome (S : Seen) : List Staged → Prop
  | [] => True
  | v :: vs => v.HasCome S ∧ HaveCome S vs

end

variable {S : Seen} {shape : String → List Tree} {v : Staged} {vs : List Staged} {c : String}

theorem look_soon (hS : S.isSome = true) : (soon v).look S shape = v.look S shape := by
  rw [look, trees, word, if_pos hS, if_pos hS, look]

theorem look_sent (hc : c ∈ S.getD []) : (sent c v).look S shape = v.look S shape := by
  rw [look, trees, word, if_pos hc, if_pos hc, look]

/-- A value that has come looks like what has come. -/
theorem look_body (hS : S.isSome = true) (hc : ∀ c, v.channel? = some c → c ∈ S.getD []) :
    v.look S shape = v.body.look S shape := by
  cases v with
  | soon v => exact look_soon hS
  | sent c v => exact look_sent (hc c rfl)
  | empty | text s | node name | list items => rfl

/-- Nothing is seen of a value that has not come. -/
theorem look_of_blocked (h : v.Blocked S) : v.look S shape = .blank := by
  cases v with
  | soon v => rw [look, trees, word, if_neg (by simpa [Blocked] using h),
      if_neg (by simpa [Blocked] using h), Look.blank]
  | sent c v => rw [look, trees, word, if_neg h, if_neg h, Look.blank]
  | empty | text s | node name | list items => exact h.elim

theorem blocked_of_channel {D : List String} (h : v.channel? = some c) (hc : c ∉ D) :
    v.Blocked (some D) := by
  cases v with
  | sent d v => exact Option.some.inj h ▸ hc
  | empty | text s | node name | list items | soon v => cases h

theorem blocked_none (h : v.IsLater) : v.Blocked none := by
  cases v with
  | soon v => rfl
  | sent c v => exact List.not_mem_nil
  | empty | text s | node name | list items => exact h.elim

mutual

/-- When everything has come, the trees are those of the value without delays. -/
theorem trees_now {v : Staged} (h : v.HasCome S) (R : Seen) :
    v.now.trees R shape = v.trees S shape := by
  cases v with
  | empty | text s | node name => rfl
  | list items => exact treesAll_nowAll h R
  | soon v => rw [now, trees, if_pos h.1, trees_now h.2 R]
  | sent c v => rw [now, trees, if_pos h.1, trees_now h.2 R]

theorem treesAll_nowAll {vs : List Staged} (h : HaveCome S vs) (R : Seen) :
    treesAll R shape (nowAll vs) = treesAll S shape vs := by
  cases vs with
  | nil => rfl
  | cons v vs => rw [nowAll, treesAll, treesAll, trees_now h.1 R, treesAll_nowAll h.2 R]

end

theorem word_now {v : Staged} (h : v.HasCome S) (R : Seen) : v.now.word R = v.word S := by
  cases v with
  | empty | text s | node name | list items => rfl
  | soon v => rw [now, word, if_pos h.1, word_now h.2 R]
  | sent c v => rw [now, word, if_pos h.1, word_now h.2 R]

/-- When everything has come, a value looks as it does without delays. -/
theorem look_now (h : v.HasCome S) (R : Seen) : v.now.look R shape = v.look S shape := by
  rw [look, look, trees_now h R, word_now h R]

theorem haveCome_iff : HaveCome S vs ↔ ∀ v ∈ vs, v.HasCome S := by
  induction vs with
  | nil => simp [HaveCome]
  | cons v vs ih => simp [HaveCome, ih]

theorem nowAll_eq_map (vs : List Staged) : nowAll vs = vs.map now := by
  induction vs with
  | nil => rfl
  | cons v vs ih => rw [nowAll, ih, List.map_cons]

/-! ### What comes later -/

theorem namesAll_eq_flatMap (vs : List Staged) : namesAll vs = vs.flatMap names := by
  induction vs with
  | nil => rfl
  | cons v vs ih => rw [namesAll, ih, List.flatMap_cons]

theorem partsAll_eq_flatMap (vs : List Staged) : partsAll vs = vs.flatMap parts := by
  induction vs with
  | nil => rfl
  | cons v vs ih => rw [partsAll, ih, List.flatMap_cons]

theorem namesAll_append (us vs : List Staged) :
    namesAll (us ++ vs) = namesAll us ++ namesAll vs := by
  simp [namesAll_eq_flatMap]

theorem partsAll_append (us vs : List Staged) :
    partsAll (us ++ vs) = partsAll us ++ partsAll vs := by
  simp [partsAll_eq_flatMap]

theorem delaysAll_append (us vs : List Staged) :
    delaysAll (us ++ vs) = delaysAll us + delaysAll vs := by
  induction us with
  | nil => exact (Nat.zero_add _).symm
  | cons u us ih => rw [List.cons_append, delaysAll, delaysAll, ih, Nat.add_assoc]

mutual

theorem partsAll_pending (v : Staged) : partsAll v.pending = v.parts := by
  cases v with
  | empty | text s | node name => rfl
  | list items => exact partsAll_pendingAll items
  | soon v | sent c v => simp [pending, partsAll]

/-- The channels in values are those in the parts that come later. -/
theorem partsAll_pendingAll (vs : List Staged) : partsAll (pendingAll vs) = partsAll vs := by
  cases vs with
  | nil => rfl
  | cons v vs =>
    rw [pendingAll, partsAll_append, partsAll_pending v, partsAll_pendingAll vs, partsAll]

end

mutual

theorem delaysAll_pending (v : Staged) : delaysAll v.pending = v.delays := by
  cases v with
  | empty | text s | node name => rfl
  | list items => exact delaysAll_pendingAll items
  | soon v | sent c v => simp [pending, delaysAll]

/-- Everything that comes later is in a part that comes later. -/
theorem delaysAll_pendingAll (vs : List Staged) : delaysAll (pendingAll vs) = delaysAll vs := by
  cases vs with
  | nil => rfl
  | cons v vs =>
    rw [pendingAll, delaysAll_append, delaysAll_pending v, delaysAll_pendingAll vs, delaysAll]

end

mutual

theorem isLater_of_mem_pending {v u : Staged} (h : u ∈ v.pending) : u.IsLater := by
  cases v with
  | empty | text s | node name => cases h
  | list items =>
    have hitems : u ∈ pendingAll items := h
    exact isLater_of_mem_pendingAll hitems
  | soon v | sent c v =>
    obtain rfl := List.mem_singleton.1 h
    trivial

theorem isLater_of_mem_pendingAll {vs : List Staged} {u : Staged} (h : u ∈ pendingAll vs) :
    u.IsLater := by
  cases vs with
  | nil => cases h
  | cons v vs =>
    rcases List.mem_append.1 h with h | h
    · exact isLater_of_mem_pending h
    · exact isLater_of_mem_pendingAll h

end

mutual

theorem sublist_namesAll_pending (v : Staged) : (namesAll v.pending).Sublist v.names := by
  cases v with
  | empty | text s | node name => exact List.nil_sublist _
  | list items => exact sublist_namesAll_pendingAll items
  | soon v | sent c v => simp [pending, namesAll]

/-- The names in what comes later are among the names in values. -/
theorem sublist_namesAll_pendingAll (vs : List Staged) :
    (namesAll (pendingAll vs)).Sublist (namesAll vs) := by
  cases vs with
  | nil => exact .refl _
  | cons v vs =>
    rw [pendingAll, namesAll_append, namesAll]
    exact (sublist_namesAll_pending v).append (sublist_namesAll_pendingAll vs)

end

theorem names_body (v : Staged) : v.body.names = v.names := by
  cases v <;> rfl

theorem delays_of_isLater (h : v.IsLater) : v.delays = v.body.delays + 1 := by
  cases v with
  | soon v | sent c v => rfl
  | empty | text s | node name | list items => exact h.elim

theorem Plain.body (h : v.Plain) : v.body.Plain := by
  cases v <;> exact h

/-! ### Without delays -/

mutual

theorem names_now (v : Staged) : v.now.names = v.names := by
  cases v with
  | empty | text s | node name => rfl
  | list items => exact namesAll_nowAll items
  | soon v | sent c v => exact names_now v

theorem namesAll_nowAll (vs : List Staged) : namesAll (nowAll vs) = namesAll vs := by
  cases vs with
  | nil => rfl
  | cons v vs => rw [nowAll, namesAll, namesAll, names_now v, namesAll_nowAll vs]

end

mutual

theorem parts_now (v : Staged) : v.now.parts = [] := by
  cases v with
  | empty | text s | node name => rfl
  | list items => exact partsAll_nowAll items
  | soon v | sent c v => exact parts_now v

theorem partsAll_nowAll (vs : List Staged) : partsAll (nowAll vs) = [] := by
  cases vs with
  | nil => rfl
  | cons v vs => rw [nowAll, partsAll, parts_now v, partsAll_nowAll vs, List.nil_append]

end

theorem Plain.now {v : Staged} (h : v.Plain) : v.now.Plain := by
  cases v with
  | empty | text s => trivial
  | node name | list items => exact h.elim
  | soon v | sent c v => exact Plain.now (v := v) h

end Staged

end LiveMarkup
