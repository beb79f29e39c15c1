/-!
# Names bound to objects
-/

namespace LiveMarkup

/-- Objects bound to names. -/
abbrev Table (α : Type) := List (String × α)

namespace Table

variable {α : Type}

/-- The object bound to a name. -/
def get? (t : Table α) (name : String) : Option α := List.lookup name t

/-- Binds an object to a name, in place of the object that was bound to it. -/
def bind (t : Table α) (name : String) (a : α) : Table α :=
  (name, a) :: t.filter (·.1 != name)

/-- Frees a name. -/
def unbind (t : Table α) (name : String) : Table α := t.filter (·.1 != name)

/-- Binds an object to a name if one is given. -/
def bindTo (t : Table α) (name : Option String) (a : α) : Table α :=
  match name with
  | some name => t.bind name a
  | none => t

/-- A name whose object satisfies a condition. -/
def nameOf? (t : Table α) (p : α → Bool) : Option String :=
  (t.find? fun entry => p entry.2).map Prod.fst

end Table

end LiveMarkup
