import LiveMarkup.Forest.Fault

/-!
# Faults of templates and screens

The causes for which a template does not compile, or a value cannot be shown where it should be.
-/

namespace LiveMarkup

/-- The causes for which a template or a screen is refused. -/
inductive RenderFault where
  /-- An operation on the nodes was refused. -/
  | forest (fault : Fault)
  /-- An attribute has markers in its name and in its value. -/
  | markerConflict (element name : String)
  /-- The name of an attribute mixes a marker with other text. -/
  | partialName (element name : String)
  /-- The value of an attribute mixes a marker with other text. -/
  | partialValue (element name value : String)
  /-- A marker stands in the text of a style element. -/
  | markerInStyle
  /-- A marker was not found again. -/
  | missingMarker (ordinal : Nat)
  /-- A marker was found twice. -/
  | duplicateMarker (ordinal : Nat)
  /-- A marker has an ordinal that the template does not have. -/
  | unknownMarker (ordinal count : Nat)
  /-- The number of values is not the number of holes. -/
  | arityMismatch (expected found : Nat)
  /-- A value of this kind cannot be bound to a node of this name. -/
  | unsupported (expression node : String)
  /-- A path leads nowhere. -/
  | unresolvable (reason : String)
  /-- The document has no element for the selector. -/
  | noContainer (selector : String)
  deriving DecidableEq, Repr

namespace RenderFault

/-- The wording of a fault. -/
def message : RenderFault → String
  | forest fault => "DOM error: " ++ fault.message
  | markerConflict element name =>
    "Marker conflict on <" ++ element ++ ">: attribute " ++ Text.quoted name ++
      " has markers in both name and value"
  | partialName element name =>
    "Attribute name " ++ Text.quoted name ++ " on <" ++ element ++
      "> contains a marker mixed with other text"
  | partialValue element name value =>
    "Attribute value parts must be the entire value: " ++ Text.quoted name ++ " on <" ++ element ++
      "> has " ++ Text.quoted value
  | markerInStyle => "Node parts are not allowed inside <style> elements"
  | missingMarker ordinal =>
    "Template marker " ++ toString ordinal ++
      " was not found after parsing; the markup is probably malformed"
  | duplicateMarker ordinal => "Template marker " ++ toString ordinal ++ " was found more than once"
  | unknownMarker ordinal count =>
    "Template marker " ++ toString ordinal ++ " is out of range for a template with " ++
      toString count ++ " expressions"
  | arityMismatch expected found =>
    "Template has " ++ toString expected ++ " parts but " ++ toString found ++
      " expressions were supplied; this usually means an HTML syntax error in the template"
  | unsupported expression node =>
    "No handling for a " ++ expression ++ " expression bound to a " ++ node ++ " node"
  | unresolvable reason => "Unresolvable path: " ++ reason
  | noContainer selector => "Mount container " ++ Text.quoted selector ++ " not found in document"

end RenderFault

end LiveMarkup
