import LiveMarkup.Forest.Path
import LiveMarkup.Signals.Value

/-!
# Scripts

Code that runs against a document, its signals and its tasks is written as data: a script is a list
of `Command`s, and a `Spec` describes a value for a hole of a template.  Objects are spoken of by
names that earlier commands have bound.  Handlers, effects, tasks and functions have scripts as
their bodies, so commands and specs contain one another.

Commands that run no other code are grouped by what they work on: the nodes of the page, signals,
tasks, templates, or cards.
-/

namespace LiveMarkup

/-! ### Nodes -/

/-- How one node is found from another. -/
inductive Relation where
  | child (index : Nat)
  | first
  | last
  | next
  | previous
  | parent
  | owner
  | closest (tag : String)
  | path (indices : List Nat)
  deriving DecidableEq, Repr

/-- What a new document is made of. -/
inductive DocumentSource where
  | markup (markup : String)
  | shell
  | empty
  deriving DecidableEq, Repr

/-- What is asked of the current event, or done to it. -/
inductive EventCommand where
  | stop
  | prevent
  | info
  | describe
  deriving DecidableEq, Repr

/-- Commands on nodes, documents and events. -/
inductive PageCommand where
  | element (tag as : String)
  | text (data as : String)
  | comment (data as : String)
  | fragment (as : String)
  | attr (name value as : String)
  | parse (markup : String) (as : Option String) (brief : Bool)
  | escape (s : String)
  | isVoid (tag : String)
  | markup (of : String)
  | rows (of : String)
  | describe (of : String)
  | info (of : String)
  | navigate (of : String) (relation : Relation) (as : Option String)
  | contains (of other : String)
  | same (a b : String)
  | weaken (of as : String)
  | upgrade (weak : String) (as : Option String)
  | append (parent node : String)
  | insertBefore (parent node : String) (reference : Option String)
  | removeChild (of node : String)
  | remove (node : String)
  | replaceWith (node : String) (others : List String)
  | normalize (of : String)
  | clone (of : String) (deep : Bool) (as : String)
  | setData (of data : String)
  | setValue (of value : String)
  | takeChildren (of : String) (as : List String)
  | getAttr (of name : String)
  | setAttr (of name value : String)
  | removeAttr (of name : String) (as : Option String)
  | attrNode (of name : String) (as : Option String)
  | setAttrNode (of attr : String) (as : Option String)
  | removeAttrNode (of attr : String)
  | setClass (of name : String)
  | unlisten (of id : String)
  | listenerCount (of event : String)
  | event (command : EventCommand)
  | setDocument (source : DocumentSource)
  | body (as : Option String)
  | query (selector : String) (as : Option String)
  | queryAll (selector : String)
  | describeDocument
  | selector (selector : String)
  | selects (selector of : String)
  | captured (slot : String) (as : Option String)
  | pathTo (target root : String) (attr : Option String)
  | descend (root : String) (paths : List Path)
  | coalesce (paths : List Path)
  | mountNew (container as : String)
  | mountFrom (settings container defaultClass : Option String) (as : String)
  | describeMount (mount : String)
  | save (mount as : Option String)
  | settings (source : String)
  deriving Repr

/-! ### Signals -/

/-- Ways of reading a signal: subscribing, or leaving no trace. -/
inductive ReadMode where
  | tracked
  | untracked
  deriving DecidableEq, Repr

/-- Commands on signals and observers that run no code of an observer; `half` stands for the halves
of a signal that only read or only write. -/
inductive SignalCommand where
  | create (as : String) (value : Value) (split : Bool)
  | read (signal : String) (mode : ReadMode) (half : Bool)
  | set (signal : String) (value : Value) (half : Bool)
  | update (signal : String) (arg : Value) (half : Bool)
  | subscriberCount (signal : String)
  | pendingCount
  | schedule (observer : String)
  | pushObserver (observer : Option String)
  | popObserver
  | currentObserver
  deriving Repr

/-! ### Templates -/

/-- Commands on the cache of compiled templates. -/
inductive CacheCommand where
  | size
  | clear
  | prune
  | evict (strings : String)
  deriving DecidableEq, Repr

/-- Commands on templates. -/
inductive TemplateCommand where
  | marker (ordinal : Nat)
  | findMarker (s : String)
  | compile (segments : List String)
  | strings (as : String) (segments : List String) (owned : Bool)
  | dropStrings (strings : String)
  | stringsInfo (strings : String)
  | template (strings as : String)
  | sameTemplate (a b : String)
  | templateMarkup (template : String)
  | cache (command : CacheCommand)
  deriving Repr

/-! ### Cards -/

/-- What is done with the entries of a store. -/
inductive EntryCommand where
  | get (key : String)
  | set (key value : String)
  | remove (key : String)
  | keys
  | clear
  | dump
  deriving DecidableEq, Repr

/-- Commands on cards and their stores. -/
inductive CardCommand where
  | store (as : String)
  | entries (store : String) (command : EntryCommand)
  | create (store format raw : String) (as : Option String)
  | edit (card : String) (name : Option String) (color : Option Nat) (id : Option String)
  | save (store card : String)
  | load (store id : String) (as : Option String)
  | delete (store id : String)
  | list (store : String)
  | info (card : String)
  | parseCard (source : String)
  | parseBarcode (source : String)
  | linear (format : String)
  | color (index : Nat)
  | bitmap (width height : Nat) (data : List Nat)
  | frameEmpty (width height : Nat)
  deriving Repr

/-! ### Tasks -/

/-- A value that may come later. -/
inductive Awaitable where
  | future (name : String)
  | channel (name : String)
  | ready (value : String)
  | never
  deriving DecidableEq, Repr

/-- Commands on channels and machines. -/
inductive TaskCommand where
  | channel (as : String)
  | dropSender (channel : String)
  | machine (as : String)
  | state (machine : String) (names : List String) (extras : List Awaitable) (as : String)
  | dropFuture (future : String)
  | fire (machine name value : String)
  | armed (machine : String)
  | isArmed (machine name : String)
  | describeMachine (machine : String)
  | takeErrors
  deriving Repr

/-- What an applier does with the values of a template after it has noted them. -/
inductive Applier where
  | apply
  | skip
  | fail
  deriving DecidableEq, Repr

/-- The text that a transition yields: a fixed one, or the value of a signal. -/
inductive TransitionText where
  | fixed (s : String)
  | signal (name : String)
  deriving DecidableEq, Repr

/-- Where a template is taken from: segments of its own, or bound strings. -/
inductive TemplateSource where
  | segments (segments : List String)
  | strings (name : String)
  deriving DecidableEq, Repr

mutual

/-- A command. -/
inductive Command where
  | page (command : PageCommand)
  | signal (command : SignalCommand)
  | template (command : TemplateCommand)
  | card (command : CardCommand)
  | log (message : String)
  | define (as : String) (body : List Command)
  | call (procedure : String)
  | drop (node : String)
  | listen (on event : String) (handler : Handler) (once : Bool) (as : Option String)
  | dispatch (on event : String)
  | callback (as : String) (body : List Command)
  | callCallback (callback on event : String)
  | effect (body : List Command) (as : Option String) (later : Bool)
  | runEffect (effect : String)
  | untrack (body : List Command)
  | microtask (body : List Command)
  | runMicrotasks
  | observer (as : String) (body : List Command)
  | flush
  | task (command : TaskCommand)
  | send (channel text : String) (value : Spec)
  | spawn (body : List Command) (fallible : Bool)
  | await (value : Awaitable) (arms : List (String × List Command))
  | fail (message : String)
  | runUntilStalled
  | blockOn (value : Awaitable)
  | transition (machine name : String) (step : Option TransitionStep) (as : String)
  | render (source : TemplateSource) (values : List Spec) (applier : Option Applier)
      (as : Option String)
  | apply (target : String) (value : Spec)
  | describeValue (value : Spec)
  | showValue (value : Spec)
  | mount (value : Spec) (cls : Option String) (mount : Option String)

/-- What handles an event: a script, or a bound callback. -/
inductive Handler where
  | script (body : List Command)
  | callback (name : String)

/-- How a transition makes its text: it runs a script first; unless `plain`, an empty text means
that the machine stays where it is. -/
inductive TransitionStep where
  | mk (body : List Command) (text : TransitionText) (plain : Bool)

/-- The description of a value for a hole of a template. -/
inductive Spec where
  | empty
  | text (s : String)
  /-- An integer of a type with so many bits. -/
  | integer (signed : Bool) (width : Nat) (n : Int)
  | single (bits : UInt32)
  | double (x : Double)
  | list (items : List Spec)
  | node (name : String)
  | element (tag : String)
  | attrNode (name value : String)
  | markup (segments : List String) (values : List Spec)
  | error (reason : String)
  | capability (name value : String)
  | function (as : Option String) (body : List Command) (result : Spec)
  | setAttr (name value : String)
  | listen (event : String) (handler : Handler) (once : Bool)
  | capture (slot : String)
  | live (value : Spec)
  | deferred (value : Spec)
  | received (channel : String)
  | signal (name : String) (mode : ReadMode)
  | untracked (value : Spec)
  | log (message : String) (value : Spec)
  | choose (signal : String) (value : Value) (same other : Spec)
  | concat (parts : List Spec)

end

instance : Inhabited Command := ⟨.flush⟩

instance : Inhabited Handler := ⟨.script []⟩

instance : Inhabited Spec := ⟨.empty⟩

/-- A list of commands. -/
abbrev Script := List Command

end LiveMarkup
