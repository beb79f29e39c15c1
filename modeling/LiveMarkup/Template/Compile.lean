import LiveMarkup.Forest.Path
import LiveMarkup.Markup.Nesting
import LiveMarkup.Template.Marker

/-!
# Compiling templates

A template is written as segments of markup with a hole between each segment and the next.  To
compile it, the holes are filled with markers, the markup is read, and the markers are looked for: a
marker in text becomes an empty comment, one that is the whole value of an attribute leaves the
value blank, and one that is the whole name of an attribute takes the attribute away and stands for
the element.  What remains is the content of the template; the place of each hole in it is a path.

The content is a list of trees without identity, so nothing that happens to a rendered copy can
reach it.
-/

namespace LiveMarkup

/-- A compiled template: its content, and the path of each hole in the order of the holes. -/
structure Template where
  content : List Tree
  paths : List Path
  deriving Repr

/-- The number of holes between segments. -/
def holeCount (segments : List String) : Nat := segments.length - 1

namespace Template

/-- The source of a template from the hole `ordinal` on: the segments with markers between them. -/
def sourceFrom (base : String) (ordinal : Nat) : List String → String
  | [] => ""
  | [segment] => segment
  | segment :: segments =>
    segment ++ Marker.text base ordinal ++ sourceFrom base (ordinal + 1) segments

/-- The source of a template. -/
def source (base : String) (segments : List String) : String := sourceFrom base 0 segments

/-- The paths of the holes that have been found, by ordinal. -/
abbrev Places := List (Option Path)

/-- Records the path of a hole. -/
def record (places : Places) (ordinal : Nat) (path : Path) : Except RenderFault Places :=
  match places[ordinal]? with
  | none => .error (.unknownMarker ordinal places.length)
  | some (some _) => .error (.duplicateMarker ordinal)
  | some none => .ok (places.set ordinal (some path))

/-- Looks for markers in the attributes of the element at `path`, and gives the attributes that
remain. -/
def scanAttributes (base element : String) (path : Path) :
    Places → List Attribute → Except RenderFault (List Attribute × Places)
  | places, [] => .ok ([], places)
  | places, a :: as =>
    match Marker.find? base a.name with
    | some m =>
      if !m.isWhole then .error (.partialName element a.name)
      else if (Marker.find? base a.value).isSome then .error (.markerConflict element a.name)
      else
        match record places m.ordinal path with
        | .error fault => .error fault
        | .ok places => scanAttributes base element path places as
    | none =>
      let scanned : Except RenderFault (Attribute × Places) := match Marker.find? base a.value with
        | none => .ok (a, places)
        | some m =>
          if !m.isWhole then .error (.partialValue element a.name a.value)
          else (record places m.ordinal (path ++ [.attr a.name])).map ((⟨a.name, ""⟩, ·))
      match scanned with
      | .error fault => .error fault
      | .ok (a, places) =>
        match scanAttributes base element path places as with
        | .error fault => .error fault
        | .ok (as, places) => .ok (a :: as, places)

/-- Splits a text at its markers, at most `fuel` of them.  The pieces become the children of the
element at `path` from place `index` on; `inStyle` says that it is a style element. -/
def splitText (base : String) (inStyle : Bool) (path : Path) :
    Nat → Nat → Places → String → Except RenderFault (List Tree × Places)
  | 0, _, places, data => .ok ([.text data], places)
  | fuel + 1, index, places, data =>
    match Marker.find? base data with
    | none => .ok ([.text data], places)
    | some m =>
      if inStyle then .error .markerInStyle
      else
        let before := if m.before.isEmpty then [] else [.text m.before]
        let index := index + before.length
        match record places m.ordinal (path ++ [.child index]) with
        | .error fault => .error fault
        | .ok places =>
          if m.after.isEmpty then .ok (before ++ [.comment ""], places)
          else
            match splitText base inStyle path fuel (index + 1) places m.after with
            | .error fault => .error fault
            | .ok (pieces, places) => .ok (before ++ .comment "" :: pieces, places)

mutual

/-- Looks for markers at and below a tree that becomes a child of the element at `path` at place
`index`, and gives the children that it becomes. -/
def scan (base : String) (inStyle : Bool) (path : Path) (index : Nat) (places : Places) :
    Tree → Except RenderFault (List Tree × Places)
  | .element tag attributes children =>
    let here := path ++ [.child index]
    match scanAttributes base tag here places attributes with
    | .error fault => .error fault
    | .ok (attributes, places) =>
      match scanAll base (tag == "style") here 0 places children with
      | .error fault => .error fault
      | .ok (children, places) => .ok ([.element tag attributes children], places)
  | .text data => splitText base inStyle path data.length index places data
  | .comment data => .ok ([.comment data], places)

/-- Looks for markers among siblings, the first of which becomes the child at place `index`. -/
def scanAll (base : String) (inStyle : Bool) (path : Path) (index : Nat) (places : Places) :
    List Tree → Except RenderFault (List Tree × Places)
  | [] => .ok ([], places)
  | t :: ts =>
    match scan base inStyle path index places t with
    | .error fault => .error fault
    | .ok (pieces, places) =>
      match scanAll base inStyle path (index + pieces.length) places ts with
      | .error fault => .error fault
      | .ok (others, places) => .ok (pieces ++ others, places)

end

/-- The paths by ordinal if every hole has been found. -/
def allFound (ordinal : Nat) : Places → Except RenderFault (List Path)
  | [] => .ok []
  | none :: _ => .error (.missingMarker ordinal)
  | some path :: places => (allFound (ordinal + 1) places).map (path :: ·)

/-- Compiles a template that is written as segments, with markers of the given base. -/
def compile (base : String) (segments : List String) : Except RenderFault Template :=
  let places := List.replicate (holeCount segments) none
  match scanAll base false [] 0 places (Tree.ofMarkup (source base segments)) with
  | .error fault => .error fault
  | .ok (content, places) =>
    match allFound 0 places with
    | .error fault => .error fault
    | .ok paths => .ok ⟨content, Path.coalesced paths⟩

end Template

end LiveMarkup
