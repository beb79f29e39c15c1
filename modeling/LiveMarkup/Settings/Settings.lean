import LiveMarkup.Settings.Toml

/-!
# Settings of the screen

The settings name the element that screens are mounted into and the class that it gets when a screen
brings none.  They are read from a document in the TOML notation, where unknown keys are passed
over.
-/

namespace LiveMarkup

/-- Where screens are mounted. -/
structure Settings where
  container : String
  defaultClass : String
  deriving DecidableEq, Repr

namespace Settings

/-- The settings where nothing else is said. -/
def standard : Settings := ⟨"main", ""⟩

/-- The text under a key; a key that is missing takes the standard text. -/
def text? (entries : List (String × TomlEntry)) (key missing : String) : Option String :=
  match entries.lookup key with
  | none => some missing
  | some (.string s) => some s
  | some _ => none

/-- Reads settings. -/
def ofToml? (source : String) : Option Settings :=
  match Toml.read? source with
  | none => none
  | some entries =>
    match text? entries "container" standard.container,
        text? entries "default_class" standard.defaultClass with
    | some container, some defaultClass => some ⟨container, defaultClass⟩
    | _, _ => none

end Settings

end LiveMarkup
