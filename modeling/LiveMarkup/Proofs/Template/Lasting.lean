import Mathlib.Data.Nat.Basic
import Mathlib.Order.Basic
import LiveMarkup.Proofs.Script.Names
import LiveMarkup.Proofs.Template.Cached
import LiveMarkup.Template.Command

/-!
# Templates that last

No command changes a template that has been compiled or the segments of strings that are there
(`Templates.Lasts`), whether a template is still in the cache or not.
-/

namespace LiveMarkup

namespace TemplateCache

variable {base : String} {c d e : TemplateCache} {s k : ℕ}

/-- All templates and all strings of a cache are in a later one, with their content. -/
structure Lasts (c d : TemplateCache) : Prop where
  templates_le : c.templates.size ≤ d.templates.size
  template_eq {k : ℕ} : k < c.templates.size → d.template k = c.template k
  strings_le : c.strings.size ≤ d.strings.size
  segments_eq {s : ℕ} : s < c.strings.size →
    (d.stringsAt s).segments = (c.stringsAt s).segments

namespace Lasts

theorem refl (c : TemplateCache) : Lasts c c := ⟨le_rfl, fun _ => rfl, le_rfl, fun _ => rfl⟩

theorem trans (hcd : Lasts c d) (hde : Lasts d e) : Lasts c e :=
  ⟨hcd.templates_le.trans hde.templates_le,
    fun hk => (hde.template_eq (hk.trans_le hcd.templates_le)).trans (hcd.template_eq hk),
    hcd.strings_le.trans hde.strings_le,
    fun hs => (hde.segments_eq (hs.trans_le hcd.strings_le)).trans (hcd.segments_eq hs)⟩

theorem of_entries (c : TemplateCache) (entries : List (ℕ × ℕ)) :
    Lasts c { c with entries := entries } :=
  ⟨le_rfl, fun _ => rfl, le_rfl, fun _ => rfl⟩

theorem addStrings (c : TemplateCache) (segments : List String) (owned : Bool) :
    Lasts c (c.addStrings segments owned).2 :=
  ⟨le_rfl, fun _ => rfl, by simp [TemplateCache.addStrings],
    fun hs => segments_addStrings hs segments owned⟩

theorem dropStrings (c : TemplateCache) (s : ℕ) : Lasts c (c.dropStrings s) :=
  ⟨le_rfl, fun _ => rfl, by simp [TemplateCache.dropStrings],
    fun _ => segments_dropStrings c _ s⟩

theorem compileFor (base : String) (c : TemplateCache) (s : ℕ) :
    Lasts c (c.compileFor base s).2 := by
  unfold TemplateCache.compileFor
  split
  · exact refl c
  · refine ⟨by simp, fun hk => ?_, le_rfl, fun _ => rfl⟩
    simp only [template, Array.getD_eq_getD_getElem?]
    rw [Array.getElem?_push_lt hk, Array.getElem?_eq_getElem hk]

theorem fetch (base : String) (c : TemplateCache) (s : ℕ) : Lasts c (c.fetch base s).2 := by
  unfold TemplateCache.fetch
  split
  · exact refl c
  · split_ifs
    · exact (of_entries c _).trans (compileFor base _ s)
    · exact compileFor base c s

theorem evict (c : TemplateCache) (s : ℕ) : Lasts c (c.evict s).2 := by
  unfold TemplateCache.evict
  split_ifs
  · exact refl c
  · exact of_entries c _

end Lasts

end TemplateCache

namespace Templates

variable {t u v : Templates} {s : ℕ}

/-- The cache has been reached by its operations, and names lead to strings that are there. -/
structure Sound (t : Templates) : Prop where
  cache : TemplateCache.Reachable t.base t.cache
  strings {name : String} {s : ℕ} : t.strings.get? name = some s → s < t.cache.strings.size

/-- Sound templates stay sound, and all templates and strings are kept as they are. -/
structure Lasts (t u : Templates) : Prop where
  sound : u.Sound
  base_eq : u.base = t.base
  cache : TemplateCache.Lasts t.cache u.cache

theorem sound_empty (base : String) : (empty base).Sound := ⟨.empty, nofun⟩

theorem Lasts.trans (htu : Lasts t u) (huv : Lasts u v) : Lasts t v :=
  ⟨huv.sound, huv.base_eq.trans htu.base_eq, htu.cache.trans huv.cache⟩

namespace Sound

variable (ht : t.Sound)

include ht

theorem refl : Lasts t t := ⟨ht, rfl, .refl _⟩

theorem setCache {c : TemplateCache} (hc : TemplateCache.Reachable t.base c)
    (hlasts : TemplateCache.Lasts t.cache c) : Lasts t { t with cache := c } :=
  ⟨⟨hc, fun hs => (ht.strings hs).trans_le hlasts.strings_le⟩, rfl, hlasts⟩

theorem addStrings (segments : List String) (owned : Bool) :
    Lasts t (t.addStrings segments owned).2 :=
  ht.setCache (ht.cache.addStrings segments owned) (.addStrings t.cache segments owned)

theorem fetch (hs : s < t.cache.strings.size) : Lasts t (t.fetch s).2 :=
  ht.setCache (ht.cache.fetch hs) (.fetch t.base t.cache s)

theorem dropStrings (name : String) : Lasts t (t.dropStrings name).2 := by
  unfold Templates.dropStrings
  split
  · next s _ =>
    have hdrop := ht.setCache (ht.cache.dropStrings s) (.dropStrings t.cache s)
    refine ⟨⟨hdrop.sound.cache, fun hk => ?_⟩, rfl, hdrop.cache⟩
    rw [Table.get?_unbind] at hk
    split_ifs at hk
    exact hdrop.sound.strings hk
  · exact ht.refl

theorem runCache (c : CacheCommand) : Lasts t (t.runCache c).2 := by
  cases c with
  | size => exact ht.refl
  | clear => exact ht.setCache ht.cache.clear (.of_entries _ _)
  | prune => exact ht.setCache ht.cache.prune (.of_entries _ _)
  | evict name =>
    rw [Templates.runCache]
    split
    · exact ht.refl
    · next s _ => exact ht.setCache (ht.cache.evict s) (.evict t.cache s)

theorem strings? {name : String} (hs : t.strings? name = .ok s) : s < t.cache.strings.size := by
  unfold Templates.strings? at hs
  split at hs
  · next k hk => exact Except.ok.inj hs ▸ ht.strings hk
  · cases hs

/-- New strings are named in place of those that had the name. -/
theorem bindStrings (name : String) (segments : List String) (owned : Bool) :
    Lasts t { (t.addStrings segments owned).2 with
      strings := (t.addStrings segments owned).2.strings.bind name t.cache.strings.size } := by
  have hadd := ht.addStrings segments owned
  refine ⟨⟨hadd.sound.cache, fun hk => ?_⟩, rfl, hadd.cache⟩
  rw [Table.get?_bind] at hk
  split_ifs at hk
  · rw [← Option.some.inj hk]
    simp [Templates.addStrings, TemplateCache.addStrings]
  · exact hadd.sound.strings hk

/-- No command on templates changes what has been compiled. -/
theorem run (c : TemplateCommand) : Lasts t (t.run c).2 := by
  cases c with
  | marker ordinal => exact ht.refl
  | findMarker s => exact ht.refl
  | compile segments =>
    rw [Templates.run]
    split <;> exact ht.refl
  | strings as segments owned =>
    have hdrop := ht.dropStrings as
    exact hdrop.trans (hdrop.sound.bindStrings as segments owned)
  | dropStrings name => exact ht.dropStrings name
  | stringsInfo name =>
    rw [Templates.run]
    split <;> exact ht.refl
  | template name as =>
    rw [Templates.run]
    split
    · exact ht.refl
    · next s hs =>
      have hfetch := ht.fetch (ht.strings? hs)
      split
      · next n u heq =>
        rw [heq] at hfetch
        exact ⟨⟨hfetch.sound.cache, hfetch.sound.strings⟩, hfetch.base_eq, hfetch.cache⟩
      · next fault u heq =>
        rw [heq] at hfetch
        exact hfetch
  | sameTemplate a b =>
    rw [Templates.run]
    split <;> exact ht.refl
  | templateMarkup name =>
    rw [Templates.run]
    split <;> exact ht.refl
  | cache command => exact ht.runCache command

end Sound

end Templates

end LiveMarkup
