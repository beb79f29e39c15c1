import LiveMarkup.Page.Page
import LiveMarkup.Script.Command

/-!
# Commands on pages

Commands on nodes, documents and events change a page and nothing else.
-/

namespace LiveMarkup

/-- An operation on a page that can be refused; what it did before stays done. -/
abbrev PageAction (α : Type) := ExceptT Failure (StateM Page) α

namespace PageAction

/-- The outcome of an operation on a page, with the page after it. -/
def on {α : Type} (action : PageAction α) (p : Page) : Except Failure α × Page :=
  StateT.run (ExceptT.run action) p

/-- The node bound to a name. -/
def node (name : String) : PageAction NodeId := do
  match (← get).nodes.get? name with
  | some n => return n
  | none => throw (.unbound name)

/-- The nodes bound to names. -/
def nodes (names : List String) : PageAction (List NodeId) := names.mapM node

/-- The node bound to a name, if a name is given. -/
def nodeIf (name : Option String) : PageAction (Option NodeId) :=
  match name with
  | some name => some <$> node name
  | none => return none

/-- Carries out an operation on the forest. -/
def edit {α : Type} (operation : Forest → Edit α) : PageAction α := do
  let p ← get
  match operation p.forest with
  | (.ok a, f) =>
    set { p with forest := f }
    return a
  | (.error fault, f) =>
    set { p with forest := f }
    throw (.forest fault)

/-- Makes a new node and names it. -/
def create (as : String) (kind : Kind) (data : String) : PageAction Reply := do
  modify fun p =>
    let (n, f) := p.forest.create kind data
    { p with forest := f }.bind as n
  return .nothing

/-- Names a node that was found, and replies with its written form. -/
def found (as : Option String) : Option NodeId → PageAction Reply
  | some n => do
    modify (·.bindTo as n)
    return .text ((← get).outer n)
  | none => return .nothing

/-- The mount bound to a name, or the standard mount of the document. -/
def mount : Option String → PageAction Mount
  | some name => do
    match (← get).mounts.get? name with
    | some m => return m
    | none => throw (.unbound name)
  | none => do
    match (← get).mountFor .standard with
    | .ok m => return m
    | .error fault => throw (.render fault)

/-- The node that stands in a relation to another. -/
def related (f : Forest) (n : NodeId) : Relation → Option NodeId
  | .child i => (f.children n)[i]?
  | .first => (f.children n).head?
  | .last => (f.children n).getLast?
  | .next => f.nextSibling n
  | .previous => f.previousSibling n
  | .parent => f.parent n
  | .owner => f.owner n
  | .closest tag => f.closest n tag
  | .path indices => f.follow n indices

/-- The report of a node. -/
def report (f : Forest) (n : NodeId) : NodeReport where
  kind := f.kind n
  data := f.data n
  value := if (f.kind n).isAttr then some (f.data n) else none
  text := (f.snapshot n).text
  childCount := (f.children n).length
  index := f.indexInParent n
  className := f.className n
  id := f.attrValue n "id"
  attrNames := f.attrNames n

/-- Binds nodes to names, as far as both go. -/
def bindEach (p : Page) : List String → List NodeId → Page
  | name :: names, n :: ns => bindEach (p.bind name n) names ns
  | _, _ => p

/-- Carries out a command on the event that is being handled. -/
def onEvent : EventCommand → PageAction Reply
  | .stop => do
    modify (·.modifyEvent fun e => { e with stopped := true })
    return .nothing
  | .prevent => do
    modify (·.modifyEvent fun e => { e with prevented := true })
    return .nothing
  | .info => do
    let p ← get
    match p.events with
    | e :: _ => return .event (p.report e)
    | [] => throw (.unbound "event")
  | .describe => do
    let p ← get
    match p.events with
    | e :: _ =>
      return .text ("Event \x7b type: " ++ Text.quoted e.event ++ ", target: " ++
        p.forest.describe e.target ++ " \x7d")
    | [] => throw (.unbound "event")

/-- Shows another document, and replies with the written form of the body before. -/
def setDocument (source : DocumentSource) : PageAction Reply := do
  let p ← get
  let tree := match source with
    | .markup markup => Page.bodyTree markup
    | .shell => Page.bodyTree Page.shellMarkup
    | .empty => .element "body" [] []
  let (body, f) := p.forest.plant tree
  set { p with forest := f, body := body }
  return .text (p.outer p.body)

/-- Names the mount that settings describe. -/
def mountFrom (source container defaultClass : Option String) (as : String) :
    PageAction Reply := do
  let settings ← match source with
    | some source =>
      match Settings.ofToml? source with
      | some settings => pure settings
      | none => throw .settings
    | none => pure Settings.standard
  let settings : Settings :=
    ⟨container.getD settings.container, defaultClass.getD settings.defaultClass⟩
  match (← get).mountFor settings with
  | .ok m =>
    modify fun p => { p with mounts := p.mounts.bind as m }
    return .nothing
  | .error fault => throw (.render fault)

/-- The operation of a command. -/
def ofCommand : PageCommand → PageAction Reply
  | .element tag as => create as (.element tag.toLower) ""
  | .text data as => create as .text data
  | .comment data as => create as .comment data
  | .fragment as => create as .fragment ""
  | .attr name value as => create as (.attr name.toLower) value
  | .parse markup as brief => do
    let trees := Tree.ofMarkup markup
    modify fun p =>
      let (n, f) := p.forest.plantFragment trees
      { p with forest := f }.bindTo as n
    let read := Snapshot.fragment trees
    return if brief then .written read.inner else .markup read.inner read.text read.rows
  | .escape s => return .texts [escapeText s, escapeValue s]
  | .isVoid tag => return .flag (isVoidTag tag)
  | .markup of => do
    let n ← node of
    let p ← get
    return .texts [p.outer n, p.inner n]
  | .rows of => do
    let n ← node of
    return .rows ((← get).forest.snapshot n).rows
  | .describe of => do
    let n ← node of
    return .text ((← get).forest.describe n)
  | .info of => do
    let n ← node of
    return .node (report (← get).forest n)
  | .navigate of relation as => do
    let n ← node of
    found as (related (← get).forest n relation)
  | .contains of other => do
    let n ← node of
    let m ← node other
    return .flag ((← get).forest.contains n m)
  | .same a b => do
    let n ← node a
    let m ← node b
    return .list [.flag (n == m), .flag (n == m)]
  | .weaken of as => do
    let n ← node of
    modify fun p => { p with weak := p.weak.bind as n }
    return .nothing
  | .upgrade weak as => do
    let p ← get
    match p.weak.get? weak with
    | some n => found as (if p.gone.contains n then none else some n)
    | none => throw (.unbound weak)
  | .append parent name => do
    let n ← node parent
    let m ← node name
    edit (·.append n m)
    return .nothing
  | .insertBefore parent name reference => do
    let n ← node parent
    let m ← node name
    let r ← nodeIf reference
    edit (·.insertBefore n m r)
    return .nothing
  | .removeChild of name => do
    let n ← node of
    let m ← node name
    edit (·.removeChild n m)
    return .nothing
  | .remove name => do
    let n ← node name
    edit fun f => (.ok (), f.remove n)
    return .nothing
  | .replaceWith name others => do
    let n ← node name
    let ms ← nodes others
    edit (·.replaceWith n ms)
    return .nothing
  | .normalize of => do
    let n ← node of
    edit fun f => (.ok (), f.normalize n)
    return .nothing
  | .clone of deep as => do
    let n ← node of
    modify fun p =>
      let (m, f) := p.forest.copy n deep
      { p with forest := f }.bind as m
    return .nothing
  | .setData of data => do
    let n ← node of
    edit (·.setData n data)
    return .nothing
  | .setValue of value => do
    let n ← node of
    edit (·.setValue n value)
    return .nothing
  | .takeChildren of as => do
    let n ← node of
    let taken ← edit fun f =>
      let (taken, f) := f.takeChildren n
      (.ok taken, f)
    modify fun p => bindEach p as taken
    return .texts (taken.map (← get).outer)
  | .getAttr of name => do
    let n ← node of
    let value := (← get).forest.attrValue n name
    return .list [.flag value.isSome, .ofOption value]
  | .setAttr of name value => do
    let n ← node of
    edit (·.setAttr n name value)
    return .nothing
  | .removeAttr of name as => do
    let n ← node of
    found as (← edit (·.removeAttr n name))
  | .attrNode of name as => do
    let n ← node of
    found as ((← get).forest.attrNode n name)
  | .setAttrNode of attr as => do
    let n ← node of
    let a ← node attr
    found as (← edit (·.setAttrNode n a))
  | .removeAttrNode of attr => do
    let n ← node of
    let a ← node attr
    edit (·.removeAttrNode n a)
    return .nothing
  | .setClass of name => do
    let n ← node of
    edit (·.setClassName n name)
    return .nothing
  | .unlisten of id => do
    let n ← node of
    match (← get).listeners.get? id with
    | some l =>
      let (found, p) := (← get).unlisten n l
      set p
      return .flag found
    | none => throw (.unbound id)
  | .listenerCount of event => do
    let n ← node of
    return .count ((← get).listenersFor n event).length
  | .event command => onEvent command
  | .setDocument source => setDocument source
  | .body as => do found as (some (← get).body)
  | .query selector as => do
    let p ← get
    found as (p.forest.select? p.body (.ofString selector))
  | .queryAll selector => do
    let p ← get
    return .texts ((p.forest.selectAll p.body (.ofString selector)).map p.outer)
  | .describeDocument => do
    let p ← get
    return .text ("Document \x7b body: " ++ p.forest.describe p.body ++ " \x7d")
  | .selector selector => return .selector (.ofString selector)
  | .selects selector of => do
    let n ← node of
    return .flag ((Selector.ofString selector).selects (← get).forest n)
  | .captured slot as => do found as ((← get).slots.get? slot)
  | .pathTo target root attr => do
    let n ← node target
    let r ← node root
    match (← get).forest.pathTo n r attr with
    | .ok path => return .foundPath path
    | .error fault => throw (.render fault)
  | .descend root paths => do
    let r ← node root
    let p ← get
    match p.forest.descendAll r paths with
    | .ok reached => return .texts (reached.map p.outer)
    | .error fault => throw (.render fault)
  | .coalesce paths => return .list ((Path.coalesced paths).map .path)
  | .mountNew container as => do
    let n ← node container
    modify fun p => { p with mounts := p.mounts.bind as ⟨n, ""⟩ }
    return .nothing
  | .mountFrom source container defaultClass as => mountFrom source container defaultClass as
  | .describeMount name => do
    let m ← mount (some name)
    return .text ("Mount \x7b container: " ++ (← get).forest.describe m.container ++
      ", default_class: " ++ Text.quoted m.defaultClass ++ " \x7d")
  | .save name as => do
    let m ← mount name
    let (fragment, p) := (← get).save m
    set (p.bindTo as fragment)
    return .text (p.inner fragment)
  | .settings source =>
    match Settings.ofToml? source with
    | some s => return .texts [s.container, s.defaultClass]
    | none => throw .settings

end PageAction

end LiveMarkup
