import Mathlib.Data.List.Induction
import LiveMarkup.Proofs.Script.Names
import LiveMarkup.Proofs.Template.Cached

/-!
# The cache of templates is transparent

Strings come and go, and templates are fetched, pruned, evicted and cleared in any order.  Whatever
has happened, a fetch gives what the strings compile to; the same strings keep their template until
it is evicted or the cache is cleared, and two strings never share one; and neither a failed fetch
nor a prune takes away the template of strings that are still there (`transparent_of_feasible`).

A program knows strings by where they are in memory.  The only thing it may rely on is that strings
are not put where living strings are, nor where strings were that an entry of the cache still
remembers; `lookupAt` looks for an entry by place, and it finds the entry of the very strings.
-/

namespace LiveMarkup.TemplateCache

variable {base : String} {place : ℕ → ℕ} {c : TemplateCache} {s n p : ℕ}

/-! ### Histories -/

/-- What is done to a cache and to the strings that templates are fetched for. -/
inductive Step where
  | add (segments : List String) (owned : Bool)
  | drop (s : ℕ)
  | fetch (s : ℕ)
  | prune
  | evict (s : ℕ)
  | clear
  deriving DecidableEq

/-- The cache after a step. -/
def Step.perform (base : String) (c : TemplateCache) : Step → TemplateCache
  | add segments owned => (c.addStrings segments owned).2
  | drop s => c.dropStrings s
  | fetch s => (c.fetch base s).2
  | prune => c.prune
  | evict s => (c.evict s).2
  | clear => c.clear

/-- The cache after steps that begin with the empty one. -/
def after (base : String) (h : List Step) : TemplateCache := h.foldl (Step.perform base) .empty

/-- Whether strings are there and have not been dropped. -/
def Alive (c : TemplateCache) (s : ℕ) : Prop := s < c.strings.size ∧ c.isLive s = true

/-- Whether a program can take a step.  New strings are put where no living strings are and where
none were that an entry remembers; what is dropped or fetched is there; and only static strings are
evicted. -/
def Step.Allowed (place : ℕ → ℕ) (c : TemplateCache) : Step → Prop
  | add _ _ => ∀ p < c.strings.size,
      c.isLive p = true ∨ p ∈ c.entries.map Prod.fst → place p ≠ place c.strings.size
  | drop s => c.Alive s ∧ (c.stringsAt s).owned = true
  | fetch s => c.Alive s
  | evict s => s < c.strings.size ∧ (c.stringsAt s).owned = false
  | _ => True

/-- Whether a program can take steps one after the other. -/
def Feasible (base : String) (place : ℕ → ℕ) (c : TemplateCache) : List Step → Prop
  | [] => True
  | e :: h => e.Allowed place c ∧ Feasible base place (e.perform base c) h

/-- The strings that have been added, in order: their segments, and whether they are owned. -/
def added (h : List Step) : List (List String × Bool) :=
  h.filterMap fun
    | .add segments owned => some (segments, owned)
    | _ => none

/-- The template that is kept under the kind and the place of strings. -/
def lookupAt (place : ℕ → ℕ) (c : TemplateCache) (s : ℕ) : Option ℕ :=
  (c.entries.find? fun e =>
    (c.stringsAt e.1).owned == (c.stringsAt s).owned && place e.1 == place s).map Prod.snd

instance (c : TemplateCache) (s : ℕ) : Decidable (c.Alive s) := inferInstanceAs (Decidable (_ ∧ _))

instance (place : ℕ → ℕ) (c : TemplateCache) : (e : Step) → Decidable (e.Allowed place c)
  | .add _ _ => inferInstanceAs (Decidable (∀ p < _, _ → _))
  | .drop _ => inferInstanceAs (Decidable (_ ∧ _))
  | .fetch s => inferInstanceAs (Decidable (c.Alive s))
  | .evict _ => inferInstanceAs (Decidable (_ ∧ _))
  | .prune => isTrue trivial
  | .clear => isTrue trivial

instance decidableFeasible (base : String) (place : ℕ → ℕ) :
    (c : TemplateCache) → (h : List Step) → Decidable (Feasible base place c h)
  | _, [] => isTrue trivial
  | c, e :: h =>
    have := decidableFeasible base place (e.perform base c) h
    inferInstanceAs (Decidable (_ ∧ _))

@[simp] theorem after_concat (base : String) (h : List Step) (e : Step) :
    after base (h ++ [e]) = e.perform base (after base h) := by simp [after]

theorem feasible_append {a b : List Step} :
    Feasible base place c (a ++ b) ↔
      Feasible base place c a ∧ Feasible base place (a.foldl (Step.perform base) c) b := by
  induction a generalizing c with
  | nil => simp [Feasible]
  | cons e a ih => simp [Feasible, ih, and_assoc]

theorem feasible_concat {h : List Step} {e : Step} :
    Feasible base place .empty (h ++ [e]) ↔
      Feasible base place .empty h ∧ e.Allowed place (after base h) := by
  rw [feasible_append]
  simp [Feasible, after]

theorem compileFor_cases (base : String) (c : TemplateCache) (s : ℕ) :
    (∃ fault, Template.compile base (c.stringsAt s).segments = .error fault ∧
        c.compileFor base s = (.error fault, c)) ∨
      ∃ t, Template.compile base (c.stringsAt s).segments = .ok t ∧
        c.compileFor base s = (.ok c.templates.size,
          { c with
            templates := c.templates.push t
            entries := (s, c.templates.size) :: c.entries.filter (·.1 != s) }) := by
  unfold compileFor
  cases hcompile : Template.compile base (c.stringsAt s).segments with
  | error fault => exact Or.inl ⟨fault, rfl, rfl⟩
  | ok t => exact Or.inr ⟨t, rfl, rfl⟩

/-- A fetch finds an entry.  Or it finds none, drops no entries but those of dropped strings, and
gives the fault of the compilation or the template, which is new and kept for the strings. -/
theorem fetch_cases (base : String) (c : TemplateCache) (s : ℕ) :
    (∃ n, c.entries.lookup s = some n ∧ c.fetch base s = (.ok n, c)) ∨
      ∃ keep : ℕ × ℕ → Bool, (∀ e, c.isLive e.1 = true → keep e = true) ∧
        c.entries.lookup s = none ∧
        ((∃ fault, Template.compile base (c.stringsAt s).segments = .error fault ∧
            c.fetch base s = (.error fault, { c with entries := c.entries.filter keep })) ∨
          ∃ t, Template.compile base (c.stringsAt s).segments = .ok t ∧
            c.fetch base s = (.ok c.templates.size,
              { c with
                templates := c.templates.push t
                entries := (s, c.templates.size) ::
                  (c.entries.filter keep).filter (·.1 != s) })) := by
  obtain ⟨keep, hkeep, hpruned⟩ : ∃ keep : ℕ × ℕ → Bool,
      (∀ e, c.isLive e.1 = true → keep e = true) ∧
        (if (c.stringsAt s).owned then c.prune else c) =
          { c with entries := c.entries.filter keep } := by
    split_ifs
    · exact ⟨fun e => c.isLive e.1, fun _ he => he, rfl⟩
    · exact ⟨fun _ => true, fun _ _ => rfl, by rw [List.filter_true]⟩
  unfold fetch
  cases hlookup : c.entries.lookup s with
  | some n => exact Or.inl ⟨n, rfl, rfl⟩
  | none =>
    refine Or.inr ⟨keep, hkeep, rfl, ?_⟩
    rw [hpruned]
    exact compileFor_cases base { c with entries := c.entries.filter keep } s

/-! ### Strings -/

/-- The strings of a cache as they were added: their segments, and whether they are owned. -/
def kinds (c : TemplateCache) : List (List String × Bool) :=
  c.strings.toList.map fun t => (t.segments, t.owned)

theorem kinds_eq_some_iff {segments : List String} {owned : Bool} :
    c.kinds[s]? = some (segments, owned) ↔ s < c.strings.size ∧
      (c.stringsAt s).segments = segments ∧ (c.stringsAt s).owned = owned := by
  rw [kinds, List.getElem?_map, Array.getElem?_toList, stringsAt, Array.getD_eq_getD_getElem?]
  by_cases hs : s < c.strings.size
  · simp [hs]
  · simp [hs]

@[simp] theorem strings_fetch (base : String) (c : TemplateCache) (s : ℕ) :
    (c.fetch base s).2.strings = c.strings := by
  rcases fetch_cases base c s with ⟨n, -, h⟩ | ⟨keep, -, -, ⟨fault, -, h⟩ | ⟨t, -, h⟩⟩ <;> rw [h]

@[simp] theorem strings_evict (c : TemplateCache) (s : ℕ) : (c.evict s).2.strings = c.strings := by
  unfold evict
  split_ifs <;> rfl

theorem strings_perform {e : Step} (he : e.Allowed place c) :
    (e.perform base c).kinds = c.kinds ++ added [e] ∧
      ∀ s < c.strings.size, (e.perform base c).isLive s = true → c.isLive s = true := by
  have hsame : ∀ c' : TemplateCache, c'.strings = c.strings →
      c'.kinds = c.kinds ++ [] ∧ ∀ s < c.strings.size, c'.isLive s = true → c.isLive s = true := by
    intro c' hc
    simp only [kinds, isLive, stringsAt, hc, List.append_nil, true_and]
    exact fun s _ hs => hs
  cases e with
  | add segments owned =>
    refine ⟨by simp [kinds, Step.perform, addStrings, added], fun s hs halive => ?_⟩
    simp only [Step.perform, isLive, addStrings, stringsAt, Array.getD_eq_getD_getElem?] at halive ⊢
    rwa [Array.getElem?_push_lt hs, ← Array.getElem?_eq_getElem hs] at halive
  | drop p =>
    refine ⟨?_, fun s hs halive => ?_⟩
    · refine List.ext_getElem? fun i => ?_
      simp only [kinds, Step.perform, dropStrings, added, List.filterMap_cons, List.filterMap_nil,
        List.append_nil, List.getElem?_map, Array.getElem?_toList, Array.getElem?_modify]
      split_ifs
      · cases c.strings[i]? <;> rfl
      · rfl
    · by_cases hps : p = s
      · subst hps
        exact he.1.2
      · simpa [Step.perform, isLive, dropStrings, stringsAt, Array.getElem?_modify, hps]
          using halive
  | fetch p => exact hsame _ (strings_fetch base c p)
  | prune => exact hsame _ rfl
  | evict p => exact hsame _ (strings_evict c p)
  | clear => exact hsame _ rfl

theorem size_strings_eq (c : TemplateCache) : c.strings.size = c.kinds.length := by simp [kinds]

theorem Alive.of_perform {e : Step} (he : e.Allowed place c) (hs : s < c.strings.size)
    (ha : (e.perform base c).Alive s) : c.Alive s :=
  ⟨hs, (strings_perform he).2 s hs ha.2⟩

theorem kinds_after {h : List Step} (hh : Feasible base place .empty h) :
    (after base h).kinds = added h := by
  induction h using List.reverseRecOn with
  | nil => rfl
  | append_singleton h e ih =>
    obtain ⟨hh, he⟩ := feasible_concat.1 hh
    rw [after_concat, (strings_perform he).1, ih hh]
    simp [added, List.filterMap_append]

/-! ### Entries -/

/-- Pruning keeps the templates of strings that have not been dropped. -/
theorem lookup_prune (hs : c.isLive s = true) : c.prune.entries.lookup s = c.entries.lookup s :=
  lookup_filter fun e _ he => by rwa [he]

/-- What a fetch of strings leaves of the templates of other strings, and of all if it fails. -/
theorem lookup_fetch (hp : c.isLive p = true)
    (h : p ≠ s ∨ ∃ fault, (c.fetch base s).1 = .error fault) :
    (c.fetch base s).2.entries.lookup p = c.entries.lookup p := by
  rcases fetch_cases base c s with ⟨n, -, hf⟩ | ⟨keep, hkeep, -, ⟨fault, -, hf⟩ | ⟨t, -, hf⟩⟩
  · rw [hf]
  · rw [hf]
    exact lookup_filter fun e _ he => hkeep e (he ▸ hp)
  · rw [hf] at h ⊢
    have hps : p ≠ s := h.resolve_right (by simp)
    rw [List.lookup_cons, beq_eq_false_iff_ne.2 hps, lookup_filter, lookup_filter]
    · exact fun e _ he => hkeep e (he ▸ hp)
    · exact fun e _ he => bne_iff_ne.2 (he ▸ hps)

/-- A template is kept for strings that are there until it is evicted or the cache is cleared. -/
theorem lookup_perform {e : Step} (he : e.Allowed place c) (hs : s < c.strings.size)
    (ha : (e.perform base c).Alive s) (hclear : e ≠ .clear) (hevict : e ≠ .evict s)
    (hn : c.entries.lookup s = some n) : (e.perform base c).entries.lookup s = some n := by
  have hlive := (ha.of_perform he hs).2
  cases e with
  | add segments owned => exact hn
  | drop q => exact hn
  | fetch q =>
    by_cases hqs : s = q
    · subst hqs
      simp [Step.perform, fetch, hn]
    · exact (lookup_fetch hlive (Or.inl hqs)).trans hn
  | prune => exact (lookup_prune hlive).trans hn
  | evict q =>
    have hqs : s ≠ q := fun h => hevict (h ▸ rfl)
    simp only [Step.perform, evict]
    split_ifs
    · exact hn
    · exact (lookup_filter fun x _ hx => bne_iff_ne.2 (hx ▸ hqs)).trans hn
  | clear => exact absurd rfl hclear

/-- The entries after a step are among those before it, unless a fetch has added one. -/
theorem mem_of_perform {e : Step} {x : ℕ × ℕ} (hx : x ∈ (e.perform base c).entries) :
    x ∈ c.entries ∨ ∃ s, e = .fetch s ∧ x = (s, c.templates.size) := by
  cases e with
  | add segments owned => exact Or.inl hx
  | drop q => exact Or.inl hx
  | fetch q =>
    simp only [Step.perform] at hx
    rcases fetch_cases base c q with ⟨n, -, hf⟩ | ⟨keep, -, -, ⟨fault, -, hf⟩ | ⟨t, -, hf⟩⟩
    · rw [hf] at hx
      exact Or.inl hx
    · rw [hf] at hx
      exact Or.inl (List.mem_of_mem_filter hx)
    · rw [hf] at hx
      rcases List.mem_cons.1 hx with rfl | hx
      · exact Or.inr ⟨q, rfl, rfl⟩
      · exact Or.inl (List.mem_of_mem_filter (List.mem_of_mem_filter hx))
  | prune => exact Or.inl (List.mem_of_mem_filter hx)
  | evict q =>
    simp only [Step.perform, evict] at hx
    split_ifs at hx
    · exact Or.inl hx
    · exact Or.inl (List.mem_of_mem_filter hx)
  | clear => cases hx

theorem size_templates_le_perform (base : String) (c : TemplateCache) (e : Step) :
    c.templates.size ≤ (e.perform base c).templates.size := by
  cases e with
  | fetch q =>
    simp only [Step.perform]
    rcases fetch_cases base c q with ⟨n, -, hf⟩ | ⟨keep, -, -, ⟨fault, -, hf⟩ | ⟨t, -, hf⟩⟩
    · exact Nat.le_of_eq (by rw [hf])
    · exact Nat.le_of_eq (by rw [hf])
    · rw [hf]
      simp
  | evict q =>
    simp only [Step.perform, evict]
    split_ifs <;> exact Nat.le_refl _
  | _ => exact Nat.le_refl _

/-- A template is there, and no strings but these have it. -/
def Belongs (c : TemplateCache) (n s : ℕ) : Prop :=
  n < c.templates.size ∧ ∀ e ∈ c.entries, e.2 = n → e.1 = s

/-- Once a template has been made for strings, no other strings get it. -/
theorem Belongs.perform (h : c.Belongs n s) (e : Step) : (e.perform base c).Belongs n s := by
  refine ⟨Nat.lt_of_lt_of_le h.1 (size_templates_le_perform base c e), fun x hx hn => ?_⟩
  rcases mem_of_perform hx with hx | ⟨q, -, rfl⟩
  · exact h.2 x hx hn
  · exact absurd h.1 (Nat.not_lt.2 (Nat.le_of_eq hn))

/-! ### Places -/

/-- Whether the place of strings is taken: they are alive, or an entry remembers them. -/
def Taken (c : TemplateCache) (s : ℕ) : Prop :=
  s < c.strings.size ∧ (c.isLive s = true ∨ s ∈ c.entries.map Prod.fst)

/-- No step takes a place but the one that adds strings there. -/
theorem Taken.of_perform {e : Step} (he : e.Allowed place c) (hs : s < c.strings.size)
    (h : (e.perform base c).Taken s) : c.Taken s := by
  refine ⟨hs, ?_⟩
  rcases h.2 with hlive | hmem
  · exact Or.inl ((strings_perform he).2 s hs hlive)
  · obtain ⟨x, hx, rfl⟩ := List.mem_map.1 hmem
    rcases mem_of_perform hx with hx | ⟨q, rfl, rfl⟩
    · exact Or.inr (List.mem_map_of_mem hx)
    · exact Or.inl he.2

/-- Strings whose places are taken are in different places. -/
def Apart (place : ℕ → ℕ) (c : TemplateCache) : Prop :=
  ∀ p q, c.Taken p → c.Taken q → place p = place q → p = q

theorem Apart.perform (h : Apart place c) {e : Step} (he : e.Allowed place c) :
    Apart place (e.perform base c) := by
  have hkinds : (e.perform base c).kinds = c.kinds ++ added [e] := (strings_perform he).1
  have hsize := congrArg List.length hkinds
  rw [← size_strings_eq, List.length_append, ← size_strings_eq] at hsize
  intro p q hp hq hplace
  by_cases hnew : p < c.strings.size ∧ q < c.strings.size
  · exact h p q (hp.of_perform he hnew.1) (hq.of_perform he hnew.2) hplace
  · have hp' := hp.1
    have hq' := hq.1
    cases e with
    | add segments owned =>
      -- One of the two is new, so the other, if it is not, is where nothing new may be.
      simp only [added, List.filterMap_cons, List.filterMap_nil, List.length_singleton] at hsize
      by_contra hne
      rcases Nat.lt_or_ge p c.strings.size with hlt | hge
      · obtain rfl : q = c.strings.size := by omega
        exact he p hlt (hp.of_perform he hlt).2 hplace
      · obtain rfl : p = c.strings.size := by omega
        have hlt : q < c.strings.size := by omega
        exact he q hlt (hq.of_perform he hlt).2 hplace.symm
    | _ =>
      rw [hsize] at hp' hq'
      exact absurd ⟨hp', hq'⟩ hnew

/-- The place of living strings leads to the entry of these strings. -/
theorem Apart.lookupAt_eq (h : Apart place c) (hc : Faithful base c) (hs : c.Alive s) :
    c.lookupAt place s = c.entries.lookup s := by
  have hfind : ∀ entries : List (ℕ × ℕ), (∀ e ∈ entries, e ∈ c.entries) →
      (entries.find? fun e => (c.stringsAt e.1).owned == (c.stringsAt s).owned &&
        place e.1 == place s).map Prod.snd = entries.lookup s := by
    intro entries hsub
    induction entries with
    | nil => rfl
    | cons e entries ih =>
      have hrest := ih fun x hx => hsub x (List.mem_cons_of_mem _ hx)
      have he := hsub e List.mem_cons_self
      obtain ⟨p, n⟩ := e
      rw [List.find?_cons, List.lookup_cons]
      by_cases hps : p = s
      · subst hps
        simp
      · have hplace : place p ≠ place s := fun heq => hps (h p s
          ⟨hc.strings_lt _ he, Or.inr (List.mem_map_of_mem he)⟩ ⟨hs.1, Or.inl hs.2⟩ heq)
        simp only [beq_eq_false_iff_ne.2 hplace, beq_eq_false_iff_ne.2 (Ne.symm hps),
          Bool.and_false]
        exact hrest
  exact hfind c.entries fun _ he => he

/-! ### Runs -/

theorem reachable_after {h : List Step} (hh : Feasible base place .empty h) :
    Reachable base (after base h) := by
  induction h using List.reverseRecOn with
  | nil => exact .empty
  | append_singleton h e ih =>
    obtain ⟨hbefore, he⟩ := feasible_concat.1 hh
    have hreach := ih hbefore
    rw [after_concat]
    cases e with
    | add segments owned => exact hreach.addStrings segments owned
    | drop s => exact hreach.dropStrings s
    | fetch s => exact hreach.fetch he.1
    | prune => exact hreach.prune
    | evict s => exact hreach.evict s
    | clear => exact hreach.clear

theorem apart_after {h : List Step} (hh : Feasible base place .empty h) :
    Apart place (after base h) := by
  induction h using List.reverseRecOn with
  | nil => exact fun p _ hp => absurd hp.1 p.not_lt_zero
  | append_singleton h e ih =>
    obtain ⟨hbefore, he⟩ := feasible_concat.1 hh
    rw [after_concat]
    exact (ih hbefore).perform he

/-- The template of an entry belongs to the strings of the entry. -/
theorem belongs_of_mem {h : List Step} (hh : Feasible base place .empty h) {e : ℕ × ℕ}
    (he : e ∈ (after base h).entries) : (after base h).Belongs e.2 e.1 := by
  induction h using List.reverseRecOn with
  | nil => cases he
  | append_singleton h d ih =>
    have hbefore := (feasible_concat.1 hh).1
    rw [after_concat] at he ⊢
    rcases mem_of_perform he with hold | ⟨s, rfl, rfl⟩
    · exact (ih hbefore hold).perform d
    · have hlt := (reachable_after hh).faithful.templates_lt
      rw [after_concat] at hlt
      refine ⟨hlt _ he, fun x hx hn => ?_⟩
      rcases mem_of_perform hx with hx | ⟨q, hq, rfl⟩
      · exact absurd hn (Nat.ne_of_lt ((reachable_after hbefore).faithful.templates_lt x hx))
      · exact (Step.fetch.inj hq).symm

theorem belongs_after {a b : List Step} (hab : (after base a).Belongs n s) :
    (after base (a ++ b)).Belongs n s := by
  induction b using List.reverseRecOn with
  | nil => rwa [List.append_nil]
  | append_singleton b e ih =>
    rw [← List.append_assoc, after_concat]
    exact ih.perform e

theorem size_le_after {a b : List Step} (hh : Feasible base place .empty (a ++ b)) :
    (after base a).strings.size ≤ (after base (a ++ b)).strings.size := by
  rw [size_strings_eq, size_strings_eq, kinds_after hh, kinds_after (feasible_append.1 hh).1, added,
    added, List.filterMap_append, List.length_append]
  exact Nat.le_add_right _ _

theorem lookup_after {a b : List Step} (hh : Feasible base place .empty (a ++ b))
    (hs : s < (after base a).strings.size) (ha : (after base (a ++ b)).Alive s)
    (hclear : .clear ∉ b) (hevict : .evict s ∉ b)
    (hn : (after base a).entries.lookup s = some n) :
    (after base (a ++ b)).entries.lookup s = some n := by
  induction b using List.reverseRecOn with
  | nil => rwa [List.append_nil]
  | append_singleton b e ih =>
    rw [← List.append_assoc] at hh ha ⊢
    obtain ⟨hbefore, he⟩ := feasible_concat.1 hh
    rw [after_concat] at ha ⊢
    simp only [List.mem_append, List.mem_singleton, not_or] at hclear hevict
    have hlt := Nat.lt_of_lt_of_le hs (size_le_after hbefore)
    exact lookup_perform he hlt ha (Ne.symm hclear.2) (Ne.symm hevict.2)
      (ih hbefore (ha.of_perform he hlt) hclear.1 hevict.1)

/-- What a fetch gives is kept for the strings. -/
theorem lookup_of_fetch (hn : (c.fetch base s).1 = .ok n) :
    (c.fetch base s).2.entries.lookup s = some n := by
  rcases fetch_cases base c s with ⟨m, hm, hf⟩ | ⟨keep, -, -, ⟨fault, -, hf⟩ | ⟨t, -, hf⟩⟩
  · rw [hf] at hn ⊢
    exact Except.ok.inj hn ▸ hm
  · rw [hf] at hn
    cases hn
  · rw [hf] at hn ⊢
    rw [List.lookup_cons_self, Except.ok.inj hn]

theorem fetch_of_lookup (hn : c.entries.lookup s = some n) : c.fetch base s = (.ok n, c) := by
  simp [fetch, hn]

theorem fetch_eq_error (hc : Faithful base c) {fault : RenderFault}
    (hfault : Template.compile base (c.stringsAt s).segments = .error fault) :
    (c.fetch base s).1 = .error fault := by
  rcases fetch_cases base c s with ⟨n, hn, -⟩ | ⟨keep, -, -, ⟨fault', hf', hf⟩ | ⟨t, ht, -⟩⟩
  · have hcompile := hc.compile_eq (s, n) (mem_of_lookup hn)
    rw [hfault] at hcompile
    cases hcompile
  · rw [hf, Except.error.inj (hf'.symm.trans hfault)]
  · rw [hfault] at ht
    cases ht

/-! ### Transparency -/

/-- What a program sees of a cache to which steps have been done. -/
structure Transparent (base : String) (place : ℕ → ℕ) (h : List Step) : Prop where
  /-- A fetch succeeds if the segments of the strings compile, and gives what they compile to. -/
  fetch_ok {s : ℕ} {segments : List String} {owned : Bool} {t : Template} :
    (added h)[s]? = some (segments, owned) → (after base h).Alive s →
    Template.compile base segments = .ok t →
    ∃ n c, (after base h).fetch base s = (.ok n, c) ∧ c.template n = t
  /-- A fetch fails if the segments of the strings do not compile, with the same fault. -/
  fetch_error {s : ℕ} {segments : List String} {owned : Bool} {fault : RenderFault} :
    (added h)[s]? = some (segments, owned) → (after base h).Alive s →
    Template.compile base segments = .error fault →
    ((after base h).fetch base s).1 = .error fault
  /-- The same strings have the same template until it is evicted or the cache is cleared. -/
  fetch_again {a b : List Step} {s n n' : ℕ} : h = a ++ .fetch s :: b → (after base h).Alive s →
    ((after base a).fetch base s).1 = .ok n → ((after base h).fetch base s).1 = .ok n' →
    .clear ∉ b → .evict s ∉ b → n' = n
  /-- Two strings never have the same template. -/
  fetch_other {a b : List Step} {s s' n n' : ℕ} : h = a ++ .fetch s :: b →
    (after base h).Alive s' → ((after base a).fetch base s).1 = .ok n →
    ((after base h).fetch base s').1 = .ok n' → s' ≠ s → n' ≠ n
  /-- A fetch that fails takes away no template of living strings. -/
  lookup_of_error {s p : ℕ} {fault : RenderFault} : ((after base h).fetch base s).1 = .error fault →
    (after base h).Alive p →
    ((after base h).fetch base s).2.entries.lookup p = (after base h).entries.lookup p
  /-- A prune takes away the entries of strings that have been dropped, and no others. -/
  mem_prune {s n : ℕ} : (s, n) ∈ (after base h).prune.entries ↔
    (s, n) ∈ (after base h).entries ∧ (after base h).Alive s
  /-- The place of living strings leads to their own entry. -/
  lookupAt_eq {s : ℕ} : (after base h).Alive s →
    (after base h).lookupAt place s = (after base h).entries.lookup s

/-- Whatever a program does to a cache, it is transparent. -/
theorem transparent_of_feasible {base : String} {place : ℕ → ℕ} {h : List Step}
    (hh : Feasible base place .empty h) : Transparent base place h := by
  have hfaithful := (reachable_after hh).faithful
  have hsegments : ∀ {s segments owned}, (added h)[s]? = some (segments, owned) →
      ((after base h).stringsAt s).segments = segments := fun hs =>
    (kinds_eq_some_iff.1 ((kinds_after hh).symm ▸ hs)).2.1
  refine ⟨fun hs _ ht => ?_, fun hs _ hfault => ?_, ?_, ?_, fun hfault hp => ?_, ?_, fun hs => ?_⟩
  · exact fetch_eq_ok hfaithful ((hsegments hs).symm ▸ ht)
  · exact fetch_eq_error hfaithful ((hsegments hs).symm ▸ hfault)
  · rintro a b s n n' rfl hs hn hn' hclear hevict
    obtain ⟨hbefore, hrest⟩ := feasible_append.1 hh
    have hkept : (after base (a ++ [.fetch s])).entries.lookup s = some n := by
      rw [after_concat]
      exact lookup_of_fetch hn
    have hlt : s < (after base (a ++ [.fetch s])).strings.size := by
      rw [after_concat, Step.perform, strings_fetch]
      exact hrest.1.1
    rw [List.append_cons] at hh hs hn'
    have hlookup := lookup_after hh hlt hs hclear hevict hkept
    rw [fetch_of_lookup hlookup] at hn'
    exact (Except.ok.inj hn').symm
  · rintro a b s s' n n' rfl hs' hn hn' hne rfl
    rw [List.append_cons] at hh hn'
    have hmade : (after base (a ++ [.fetch s])).Belongs n' s := by
      refine belongs_of_mem (e := (s, n')) (feasible_append.1 hh).1 (mem_of_lookup ?_)
      rw [after_concat]
      exact lookup_of_fetch hn
    have hkept : ((after base (a ++ [.fetch s] ++ b)).fetch base s').2.Belongs n' s :=
      (belongs_after hmade).perform (.fetch s')
    exact hne (hkept.2 _ (mem_of_lookup (lookup_of_fetch hn')) rfl)
  · exact lookup_fetch hp.2 (Or.inr ⟨_, hfault⟩)
  · intro s n
    rw [prune, List.mem_filter]
    exact and_congr_right fun he => ⟨fun hlive => ⟨hfaithful.strings_lt _ he, hlive⟩, And.right⟩
  · exact (apart_after hh).lookupAt_eq hfaithful hs

/-- Static strings, owned strings that are dropped and pruned, owned strings in their place, and
strings that do not compile. -/
def busyHistory : List Step :=
  [.add ["<p>", "</p>"] false, .add ["<i>", "</i>"] true, .fetch 0, .fetch 1, .drop 1, .prune,
    .add ["<i>", "</i>"] true, .fetch 2, .add ["<li data-", "></li>"] true, .fetch 3, .evict 0,
    .fetch 2, .fetch 0]

theorem transparent_busyHistory :
    Feasible "a0123456789abcdef" (fun s => [10, 20, 20, 30].getD s 0) .empty busyHistory ∧
      Transparent "a0123456789abcdef" (fun s => [10, 20, 20, 30].getD s 0) busyHistory := by
  have hh : Feasible "a0123456789abcdef" (fun s => [10, 20, 20, 30].getD s 0) .empty
      busyHistory := by
    decide +kernel
  exact ⟨hh, transparent_of_feasible hh⟩

end LiveMarkup.TemplateCache
