import LiveMarkup.Run.Observers

/-!
# Showing values

Values are built from their descriptions, bound to nodes, rendered with templates, and mounted.
What fails stops there: what was done before stays done, and the values that were not bound are
dropped.
-/

namespace LiveMarkup.Run

open Activity

/-! ### Building values -/

/-- The values of several descriptions, in order. -/
def buildAll (run : Runner) : List Spec → Activity (List Expression)
  | [] => return []
  | spec :: specs => do
    let e ← run (.build spec)
    let es ← buildAll run specs
    return e :: es

/-- The signal bound to a name, read in a way. -/
def readSignal (name : String) (mode : ReadMode) : Activity (Option Value) := fun w =>
  match w.signals.signal? name false with
  | .error _ => some (none, w)
  | .ok g =>
    match mode with
    | .tracked => some (some (w.signals.reactive.value g), w.modifyReactive (·.track g))
    | .untracked => some (some (w.signals.reactive.value g), w)

/-- The number of the routine of a handler, if it has one. -/
def handler : Handler → Activity (Option Nat)
  | .script commands => do return some (← addRoutine (.script commands))
  | .callback name => do return (← get).callbacks.get? name

/-- A value that cannot be bound, because nothing is bound to a name. -/
def unboundValue (name : String) : Expression :=
  .function (.fail (.unresolvable ("nothing is bound to " ++ Text.quoted name)))

/-! ### Binding values -/

mutual

/-- Binds an expression to a node. -/
def applyTo (run : Runner) (binding : Binding → NodeId → Activity (Except RenderFault Unit))
    (n : NodeId) : Expression → Activity (Except RenderFault Unit)
  | .empty => return .ok ()
  | .text s => place (·.placeText n "text" s)
  | .number x => place (·.placeText n "number" x.text)
  | .bigint i => place (·.placeText n "bigint" (toString i))
  | .node v => place (·.placeNode n v)
  | .capability name value => place fun f => Forest.placed (f.setAttr n name value)
  | .function b => binding b n
  | .deferred promise => do
    let _ ← schedule (·.spawn (.deferred promise n))
    return .ok ()
  | .iterable items => do
    let f := (← get).forest
    match f.kind n, f.parent n with
    | .comment, some p => do
      match ← applySlots run binding p n items with
      | .ok () =>
        modify fun w => w.setForest (w.forest.remove n)
        return .ok ()
      | .error fault => return .error fault
    | .element _, _ => applyAll run binding n items
    | _, _ => do
      discard items
      return .error (f.unsupported "iterable" n)

/-- Binds each of several expressions to an empty comment of its own before `anchor`. -/
def applySlots (run : Runner) (binding : Binding → NodeId → Activity (Except RenderFault Unit))
    (p anchor : NodeId) : List Expression → Activity (Except RenderFault Unit)
  | [] => return .ok ()
  | item :: items => fun w =>
    let (slot, outcome, f) := w.forest.addSlot p anchor
    let w := w.setForest f
    match outcome with
    | .error fault => (do discard (item :: items); return .error fault : Activity _) w
    | .ok () =>
      (do
        match ← applyTo run binding slot item with
        | .ok () => applySlots run binding p anchor items
        | .error fault => do
          discard items
          return .error fault : Activity _) w

/-- Binds several expressions to one node. -/
def applyAll (run : Runner) (binding : Binding → NodeId → Activity (Except RenderFault Unit))
    (n : NodeId) : List Expression → Activity (Except RenderFault Unit)
  | [] => return .ok ()
  | item :: items => do
    match ← applyTo run binding n item with
    | .ok () => applyAll run binding n items
    | .error fault => do
      discard items
      return .error fault

end

/-- Shows a value at a node, and shows it again whenever a signal it reads has changed. -/
def bindLive (run : Runner) (value : Spec) (n : NodeId) : Activity (Except RenderFault Unit) := do
  let w ← get
  let (target, f) := w.forest.liveTarget n
  set (w.setForest f)
  match target with
  | .error fault => return .error fault
  | .ok target => do
    let o ← addObserver true (.live value target)
    run (.observer o)
    return .ok ()

/-- Lets code act on the node it is bound to. -/
def bind (run : Runner) (b : Binding) (n : NodeId) : Activity (Except RenderFault Unit) := do
  match b with
  | .fail fault => return .error fault
  | .function as commands result => do
    modify fun w => { w with page := w.page.bindTo as n }
    body run commands
    let e ← run (.build result)
    run (.apply e n)
  | .setAttr name value => place (·.placeAttr n name value)
  | .listen event routine once => do
    let f := (← get).forest
    if (f.kind n).isElement then do
      modify fun w => { w with page := (w.page.listen n event routine once).2 }
      return .ok ()
    else return .error (f.unsupported "event binding" n)
  | .capture slot => do
    modify fun w => { w with page := { w.page with slots := w.page.slots.bind slot n } }
    return .ok ()
  | .live value => bindLive run value n

/-- Binds an expression to a node. -/
def apply (run : Runner) (e : Expression) (n : NodeId) : Activity (Except RenderFault Unit) :=
  applyTo run (bind run) n e

/-- Shows a value at a node once more; a value that cannot be shown is passed over. -/
def showLive (run : Runner) (value : Spec) (target : NodeId) : Activity Unit := do
  let e ← run (.build value)
  let _ ← run (.apply e target)
  return ()

/-! ### Rendering -/

/-- Binds an expression to a node in the way of an applier. -/
def applyWith (run : Runner) (applier : Option Applier) (e : Expression) (n : NodeId) :
    Activity (Except RenderFault Unit) := do
  match applier with
  | none => run (.apply e n)
  | some applier => do
    let f := (← get).forest
    note (.list [.text (e.kind f), .text (f.kind n).nodeName])
    match applier with
    | .apply => run (.apply e n)
    | .skip => do
      discard [e]
      return .ok ()
    | .fail => do
      discard [e]
      return .error (.unresolvable "applier")

/-- Binds expressions to nodes, one to one, up to the first fault. -/
def applyEach (run : Runner) (applier : Option Applier) :
    List Expression → List NodeId → Activity (Except RenderFault Unit)
  | e :: es, n :: ns => do
    match ← applyWith run applier e n with
    | .ok () => applyEach run applier es ns
    | .error fault => do
      discard es
      return .error fault
  | _, _ => return .ok ()

/-- Makes a copy of the content of a template, and gives the nodes at its holes. -/
def instantiate (t : Template) : Activity (Except RenderFault (NodeId × List NodeId)) := fun w =>
  let (root, f) := w.forest.plantFragment t.content
  some ((f.descendAll root t.paths).map ((root, ·)), w.setForest f)

/-- Fills a copy of a template with expressions. -/
def fill (run : Runner) (t : Template) (applier : Option Applier) (es : List Expression) :
    Activity (Except RenderFault NodeId) := do
  match ← instantiate t with
  | .error fault => do
    discard es
    return .error fault
  | .ok (root, ns) =>
    if ns.length = es.length then do
      match ← holding (root :: ns ++ Expression.heldNodesAll es) (applyEach run applier es ns) with
      | .ok () => return .ok root
      | .error fault => return .error fault
    else do
      discard es
      return .error (.arityMismatch ns.length es.length)

/-- The template of strings. -/
def fetch (strings : Nat) : Activity (Except RenderFault Template) := fun w =>
  let (fetched, t) := w.templates.fetch strings
  some (fetched.map t.cache.template, { w with templates := t })

/-- Renders expressions with the template of strings. -/
def renderStrings (run : Runner) (strings : Nat) (applier : Option Applier)
    (es : List Expression) : Activity (Except RenderFault NodeId) := do
  match ← fetch strings with
  | .error fault => do
    discard es
    return .error fault
  | .ok t => fill run t applier es

/-- Renders expressions with segments whose strings are dropped afterwards. -/
def renderSegments (run : Runner) (segments : List String) (es : List Expression) :
    Activity (Except RenderFault NodeId) := do
  let w ← get
  let (s, t) := w.templates.addStrings segments true
  set { w with templates := t }
  let rendered ← renderStrings run s none es
  modify fun w =>
    { w with templates := { w.templates with cache := w.templates.cache.dropStrings s } }
  return rendered

/-! ### Building values that render or read -/

/-- The text of several expressions, one after the other. -/
def joinedText (es : List Expression) : String :=
  String.join (es.map fun e => e.text?.getD "")

/-- The value of a description. -/
def build (run : Runner) (spec : Spec) : Activity Expression := do
  match spec with
  | .empty => return .empty
  | .text s => return .text s
  | .integer _ width n => return .ofInteger width n
  | .single bits => return .number (.ofSingle bits)
  | .double x => return .number x
  | .list items => return .iterable (← buildAll run items)
  | .node name => do
    match (← get).page.nodes.get? name with
    | some n => return .node n
    | none => return unboundValue name
  | .element tag => return .node (← create (.element tag.toLower) "")
  | .attrNode name value => return .node (← create (.attr name.toLower) value)
  | .markup segments values => do
    let es ← buildAll run values
    match ← renderSegments run segments es with
    | .ok n => return .node n
    | .error fault => return .function (.fail fault)
  | .error reason => return .function (.fail (.unresolvable reason))
  | .capability name value => return .capability name value
  | .function as commands result => return .function (.function as commands result)
  | .setAttr name value => return .function (.setAttr name value)
  | .listen event h once => do
    match ← handler h with
    | some routine => return .function (.listen event routine once)
    | none => return unboundValue event
  | .capture slot => return .function (.capture slot)
  | .live value => return .function (.live value)
  | .deferred value => return .deferred (.value value)
  | .received name => fun w =>
    match w.tasks.take (.channel name) with
    | (.ok (.channel c), t) => some (.deferred (.channel c), { w with tasks := t })
    | (_, t) => some (unboundValue name, { w with tasks := t })
  | .signal name mode => do
    match ← readSignal name mode with
    | some v => return .ofValue v
    | none => return unboundValue name
  | .untracked value => observing none (run (.build value))
  | .log message value => do
    note (.text message)
    run (.build value)
  | .choose name value same other => do
    match ← readSignal name .tracked with
    | some v => run (.build (if v.equal value then same else other))
    | none => return unboundValue name
  | .concat parts => return .text (joinedText (← buildAll run parts))

/-! ### Mounting -/

/-- Shows an expression at a mount, in place of what it shows. -/
def mountAt (run : Runner) (m : Mount) (e : Expression) (cls : Option String) :
    Activity (Except RenderFault Unit) := fun w =>
  let (_, f) := w.forest.takeChildren m.container
  match f.setClassName m.container (cls.getD m.defaultClass) with
  | (.error fault, f) =>
    (do discard [e]; return .error (.forest fault) : Activity _) (w.setForest f)
  | (.ok (), f) =>
    let (placeholder, f) := f.create .comment ""
    match f.append m.container placeholder with
    | (.error fault, f) =>
      (do discard [e]; return .error (.forest fault) : Activity _) (w.setForest f)
    | (.ok (), f) =>
      holding (placeholder :: m.container :: e.heldNodes) (run (.apply e placeholder))
        (w.setForest f)

end LiveMarkup.Run
