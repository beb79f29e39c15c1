import LiveMarkup.Forest.Copy
import LiveMarkup.Script.Command
import LiveMarkup.Script.Reply
import LiveMarkup.Script.Table
import LiveMarkup.Template.Cache

/-!
# Commands on templates

The cache of templates with the names of strings and templates, and the base of the markers in use.
-/

namespace LiveMarkup

/-- The cache of templates with the names of what it holds. -/
structure Templates where
  base : String
  cache : TemplateCache
  strings : Table Nat
  names : Table Nat

namespace Templates

/-- No templates. -/
def empty (base : String) : Templates := ⟨base, .empty, [], []⟩

/-- Adds strings. -/
def addStrings (t : Templates) (segments : List String) (owned : Bool) : Nat × Templates :=
  let (s, c) := t.cache.addStrings segments owned
  (s, { t with cache := c })

/-- The strings bound to a name. -/
def strings? (t : Templates) (name : String) : Except Failure Nat :=
  match t.strings.get? name with
  | some s => .ok s
  | none => .error (.unbound name)

/-- The template bound to a name. -/
def template? (t : Templates) (name : String) : Except Failure Nat :=
  match t.names.get? name with
  | some n => .ok n
  | none => .error (.unbound name)

/-- The template of strings. -/
def fetch (t : Templates) (s : Nat) : Except RenderFault Nat × Templates :=
  let (fetched, c) := t.cache.fetch t.base s
  (fetched, { t with cache := c })

/-- Drops the strings bound to a name; false if there are none. -/
def dropStrings (t : Templates) (name : String) : Bool × Templates :=
  match t.strings.get? name with
  | some s =>
    (true, { t with cache := t.cache.dropStrings s, strings := t.strings.unbind name })
  | none => (false, t)

/-- Carries out a command on the cache. -/
def runCache (t : Templates) : CacheCommand → Reply × Templates
  | .size => (.list [.count t.cache.size, .flag (t.cache.size == 0)], t)
  | .clear =>
    let t := { t with cache := t.cache.clear }
    (.list [.count t.cache.size, .flag (t.cache.size == 0)], t)
  | .prune =>
    let pruned := t.cache.prune
    (.list [.count (t.cache.size - pruned.size), .count pruned.size], { t with cache := pruned })
  | .evict name =>
    match t.strings? name with
    | .error f => (.failure f, t)
    | .ok s =>
      let (removed, c) := t.cache.evict s
      (.list [.flag removed, .count c.size], { t with cache := c })

/-- A compiled template in full: its nodes, its paths, and what its paths lead to. -/
def report (t : Template) : Reply :=
  let (root, f) := Forest.empty.plantFragment t.content
  match f.descendAll root t.paths with
  | .ok reached =>
    .template (Snapshot.fragment t.content).rows t.paths (reached.map fun n => (f.kind n).nodeName)
  | .error fault => .failure (.render fault)

/-- The marker in a text, with its place in bytes. -/
def findMarker (base s : String) : Reply :=
  match Marker.find? base s with
  | some m => .marker m.start (m.stop s) m.ordinal m.isWhole
  | none => .nothing

/-- Carries out a command on templates. -/
def run (t : Templates) : TemplateCommand → Reply × Templates
  | .marker ordinal => (.text (Marker.text t.base ordinal), t)
  | .findMarker s => (findMarker t.base s, t)
  | .compile segments =>
    match Template.compile t.base segments with
    | .ok template => (report template, t)
    | .error fault => (.failure (.render fault), t)
  | .strings as segments owned =>
    let (_, t) := t.dropStrings as
    let (s, t) := t.addStrings segments owned
    (.nothing, { t with strings := t.strings.bind as s })
  | .dropStrings name =>
    let (dropped, t) := t.dropStrings name
    (.flag dropped, t)
  | .stringsInfo name =>
    match t.strings? name with
    | .error f => (.failure f, t)
    | .ok s =>
      let segments := (t.cache.stringsAt s).segments
      (.list [.texts segments, .count (holeCount segments)], t)
  | .template name as =>
    match t.strings? name with
    | .error f => (.failure f, t)
    | .ok s =>
      match t.fetch s with
      | (.ok n, t) => (.nothing, { t with names := t.names.bind as n })
      | (.error fault, t) => (.failure (.render fault), t)
  | .sameTemplate a b =>
    match t.template? a, t.template? b with
    | .ok m, .ok n => (.flag (m == n), t)
    | .error f, _ => (.failure f, t)
    | _, .error f => (.failure f, t)
  | .templateMarkup name =>
    match t.template? name with
    | .ok n => (.text (Snapshot.fragment (t.cache.template n).content).inner, t)
    | .error f => (.failure f, t)
  | .cache command => t.runCache command

end Templates

end LiveMarkup
