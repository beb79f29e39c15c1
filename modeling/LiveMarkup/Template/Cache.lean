import LiveMarkup.Template.Compile

/-!
# The cache of templates

Templates are compiled once for each strings object, whatever its text.  Static strings stay for
good; owned strings can be dropped, and the templates of dropped strings are pruned when a template
of owned strings has to be compiled, or on request.
-/

namespace LiveMarkup

/-- The segments of a template as an object; `dropped` says that owned strings are gone. -/
structure TemplateStrings where
  segments : List String
  owned : Bool
  dropped : Bool
  deriving DecidableEq, Repr, Inhabited

/-- Strings objects and compiled templates, both numbered, and the cache: pairs of strings and the
template compiled for them. -/
structure TemplateCache where
  strings : Array TemplateStrings
  templates : Array Template
  entries : List (Nat × Nat)

namespace TemplateCache

/-- Nothing is cached. -/
def empty : TemplateCache := ⟨#[], #[], []⟩

/-- Adds a strings object. -/
def addStrings (c : TemplateCache) (segments : List String) (owned : Bool) : Nat × TemplateCache :=
  (c.strings.size, { c with strings := c.strings.push ⟨segments, owned, false⟩ })

/-- The strings object with a number. -/
def stringsAt (c : TemplateCache) (s : Nat) : TemplateStrings := c.strings.getD s default

/-- Whether the strings of an entry are still there. -/
def isLive (c : TemplateCache) (s : Nat) : Bool := !(c.stringsAt s).dropped

/-- Drops owned strings. -/
def dropStrings (c : TemplateCache) (s : Nat) : TemplateCache :=
  { c with strings := c.strings.modify s fun t => { t with dropped := t.owned } }

/-- The template with a number. -/
def template (c : TemplateCache) (t : Nat) : Template := c.templates.getD t ⟨[], []⟩

/-- Removes the templates of dropped strings. -/
def prune (c : TemplateCache) : TemplateCache :=
  { c with entries := c.entries.filter fun e => c.isLive e.1 }

/-- Compiles a template and keeps it for its strings. -/
def compileFor (base : String) (c : TemplateCache) (s : Nat) :
    Except RenderFault Nat × TemplateCache :=
  match Template.compile base (c.stringsAt s).segments with
  | .error fault => (.error fault, c)
  | .ok t =>
    let n := c.templates.size
    (.ok n,
      { c with
        templates := c.templates.push t
        entries := (s, n) :: c.entries.filter (·.1 != s) })

/-- The template of strings, compiled now if it has not been. -/
def fetch (base : String) (c : TemplateCache) (s : Nat) : Except RenderFault Nat × TemplateCache :=
  match c.entries.lookup s with
  | some t => (.ok t, c)
  | none => compileFor base (if (c.stringsAt s).owned then c.prune else c) s

/-- Removes the template of static strings; false if there is none. -/
def evict (c : TemplateCache) (s : Nat) : Bool × TemplateCache :=
  if (c.stringsAt s).owned then (false, c)
  else ((c.entries.lookup s).isSome, { c with entries := c.entries.filter (·.1 != s) })

/-- Removes all templates. -/
def clear (c : TemplateCache) : TemplateCache := { c with entries := [] }

/-- The number of templates in the cache, those of dropped strings included. -/
def size (c : TemplateCache) : Nat := c.entries.length

end TemplateCache

end LiveMarkup
