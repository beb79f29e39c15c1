import Mathlib.Data.List.Basic
import LiveMarkup.Template.Cache

/-!
# Reachable caches

In every cache that the operations lead to from the empty one, an entry for a strings object is the
template that its segments compile to (`TemplateCache.Reachable.faithful`), so fetching gives that
template whether it was compiled before or not (`TemplateCache.fetch_eq_ok`).
-/

namespace LiveMarkup.TemplateCache

variable {base : String} {c : TemplateCache}

/-- The caches that the operations lead to from the empty one. -/
inductive Reachable (base : String) : TemplateCache → Prop
  | empty : Reachable base .empty
  | addStrings {c : TemplateCache} (h : Reachable base c) (segments : List String) (owned : Bool) :
    Reachable base (c.addStrings segments owned).2
  | dropStrings {c : TemplateCache} (h : Reachable base c) (s : ℕ) :
    Reachable base (c.dropStrings s)
  | prune {c : TemplateCache} (h : Reachable base c) : Reachable base c.prune
  | fetch {c : TemplateCache} (h : Reachable base c) {s : ℕ} (hs : s < c.strings.size) :
    Reachable base (c.fetch base s).2
  | evict {c : TemplateCache} (h : Reachable base c) (s : ℕ) : Reachable base (c.evict s).2
  | clear {c : TemplateCache} (h : Reachable base c) : Reachable base c.clear

/-- Every entry leads from a strings object to the template that its segments compile to. -/
structure Faithful (base : String) (c : TemplateCache) : Prop where
  strings_lt : ∀ e ∈ c.entries, e.1 < c.strings.size
  templates_lt : ∀ e ∈ c.entries, e.2 < c.templates.size
  compile_eq : ∀ e ∈ c.entries,
    Template.compile base (c.stringsAt e.1).segments = .ok (c.template e.2)

theorem segments_addStrings {s : ℕ} (hs : s < c.strings.size) (segments : List String)
    (owned : Bool) :
    ((c.addStrings segments owned).2.stringsAt s).segments = (c.stringsAt s).segments := by
  simp only [addStrings, stringsAt, Array.getD_eq_getD_getElem?]
  rw [Array.getElem?_push_lt hs, Array.getElem?_eq_getElem hs]

theorem segments_dropStrings (c : TemplateCache) (s n : ℕ) :
    ((c.dropStrings n).stringsAt s).segments = (c.stringsAt s).segments := by
  simp only [dropStrings, stringsAt, Array.getD_eq_getD_getElem?, Array.getElem?_modify]
  split_ifs
  · cases c.strings[s]? <;> rfl
  · rfl

namespace Faithful

theorem filter (h : Faithful base c) (keep : ℕ × ℕ → Bool) :
    Faithful base { c with entries := c.entries.filter keep } :=
  ⟨fun e he => h.strings_lt e (List.mem_of_mem_filter he),
    fun e he => h.templates_lt e (List.mem_of_mem_filter he),
    fun e he => h.compile_eq e (List.mem_of_mem_filter he)⟩

theorem compileFor (h : Faithful base c) {s : ℕ} (hs : s < c.strings.size) :
    Faithful base (c.compileFor base s).2 := by
  unfold TemplateCache.compileFor
  split
  · exact h
  · next t ht =>
    have hkept := h.filter (·.1 != s)
    have hold : ∀ n < c.templates.size, (c.templates.push t).getD n ⟨[], []⟩ = c.template n :=
      fun n hn => by
        simp only [template, Array.getD_eq_getD_getElem?]
        rw [Array.getElem?_push_lt hn, Array.getElem?_eq_getElem hn]
    refine ⟨?_, ?_, ?_⟩
    · exact List.forall_mem_cons.2 ⟨hs, hkept.strings_lt⟩
    · exact List.forall_mem_cons.2 ⟨by simp, fun e he =>
        Nat.lt_of_lt_of_le (hkept.templates_lt e he) (by simp)⟩
    · refine List.forall_mem_cons.2 ⟨?_, fun e he => ?_⟩
      · simp only [template, Array.getD_eq_getD_getElem?]
        rw [Array.getElem?_push_size]
        exact ht
      · exact (hkept.compile_eq e he).trans
          (congrArg Except.ok (hold e.2 (hkept.templates_lt e he)).symm)

end Faithful

theorem Faithful.prune (h : Faithful base c) : Faithful base c.prune := h.filter _

theorem Faithful.pruneIf (h : Faithful base c) (owned : Bool) :
    Faithful base (if owned then c.prune else c) := by
  split_ifs
  · exact h.prune
  · exact h

theorem strings_pruneIf (c : TemplateCache) (owned : Bool) :
    (if owned then c.prune else c).strings = c.strings := by
  split_ifs <;> rfl

theorem Reachable.faithful (h : Reachable base c) : Faithful base c := by
  induction h with
  | empty => exact ⟨by simp [TemplateCache.empty], by simp [TemplateCache.empty],
      by simp [TemplateCache.empty]⟩
  | addStrings h segments owned ih =>
    refine ⟨fun e he =>
      Nat.lt_of_lt_of_le (ih.strings_lt e he) (by simp [TemplateCache.addStrings]), ih.templates_lt,
      fun e he => ?_⟩
    rw [segments_addStrings (ih.strings_lt e he)]
    exact ih.compile_eq e he
  | dropStrings h s ih =>
    refine ⟨fun e he =>
      Nat.lt_of_lt_of_le (ih.strings_lt e he) (by simp [TemplateCache.dropStrings]),
      ih.templates_lt, fun e he => ?_⟩
    rw [segments_dropStrings]
    exact ih.compile_eq e he
  | prune h ih => exact ih.prune
  | fetch h hs ih =>
    unfold TemplateCache.fetch
    split
    · exact ih
    · exact (ih.pruneIf _).compileFor (by rwa [strings_pruneIf])
  | evict h s ih =>
    unfold TemplateCache.evict
    split_ifs
    · exact ih
    · exact ih.filter _
  | clear h ih => exact ⟨by simp [TemplateCache.clear], by simp [TemplateCache.clear],
      by simp [TemplateCache.clear]⟩

/-- Fetching gives the template that the segments of the strings compile to. -/
theorem fetch_eq_ok (h : Faithful base c) {s : ℕ} {t : Template}
    (ht : Template.compile base (c.stringsAt s).segments = .ok t) :
    ∃ n c', c.fetch base s = (.ok n, c') ∧ c'.template n = t := by
  unfold fetch
  split
  · next n hlookup =>
    obtain ⟨before, after, hentries, -⟩ := List.lookup_eq_some_iff.1 hlookup
    have hcompile := h.compile_eq (s, n) (by simp [hentries])
    exact ⟨n, c, rfl, Except.ok.inj (hcompile.symm.trans ht)⟩
  · have hstrings : ((if (c.stringsAt s).owned then c.prune else c).stringsAt s).segments =
        (c.stringsAt s).segments := by
      rw [stringsAt, strings_pruneIf]
      rfl
    simp only [compileFor, hstrings, ht]
    refine ⟨_, _, rfl, ?_⟩
    simp only [template, Array.getD_eq_getD_getElem?]
    rw [Array.getElem?_push_size]
    rfl

end LiveMarkup.TemplateCache
