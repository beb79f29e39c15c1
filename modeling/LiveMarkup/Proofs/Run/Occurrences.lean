import LiveMarkup.Proofs.Page.Registry
import LiveMarkup.Proofs.Run.Visits

/-!
# What happens to listeners while scripts run

A script is eventful if all it does is to work on the page and on what runs no code of its own, to
listen to events and to dispatch them, to call procedures and callbacks, and to drop names.  Its
handlers may do the same: remove listeners, those of the event they handle included, dispatch
further events, stop them and move nodes.

`Run.occurrences` tells what happens to listeners while a job is done, also when it does not come to
an end.  A registry allows all that is told, and agrees with the world after it (`Run.recounts`); so
the laws of registries hold of every session of eventful scripts.
-/

namespace LiveMarkup

mutual

/-- Whether a command is one of an eventful script. -/
def Command.isEventful : Command → Bool
  | .page _ | .signal _ | .template _ | .card _ | .task _ | .send _ _ _ | .log _ => true
  | .call _ | .drop _ | .dispatch _ _ | .callCallback _ _ _ => true
  | .define _ commands => areEventful commands
  | .callback _ commands => areEventful commands
  | .listen _ _ h _ _ => h.isEventful
  | _ => false

/-- Whether a handler runs an eventful script. -/
def Handler.isEventful : Handler → Bool
  | .script commands => areEventful commands
  | .callback _ => true

/-- Whether all of several commands are ones of an eventful script. -/
def areEventful : List Command → Bool
  | [] => true
  | c :: cs => c.isEventful && areEventful cs

end

namespace Run

open Activity

/-! ### What is told -/

/-- What happens after something that has come to an end. -/
def onward {α : Type} (result : Option (α × World)) (next : α → World → List Occurrence) :
    List Occurrence :=
  match result with
  | some (a, w) => next a w
  | none => []

section

variable (tell : Job → World → List Occurrence) (run : Runner)

/-- What happens while a body runs. -/
def bodyOccurrences : Script → World → List Occurrence
  | [], _ => []
  | c :: cs, w =>
    tell (.command c) w ++
      onward (run (.command c) w) fun reply v => bodyOccurrences cs (v.note reply)

/-- What happens while listeners are invoked one after the other. -/
def handlersOccurrences : List Listener → World → List Occurrence
  | [], _ => [.leave]
  | l :: ls, w =>
    .invoke l :: (tell (.routine l.handler) w ++
      onward (run (.routine l.handler) w) fun _ v => handlersOccurrences ls v)

/-- What happens while the event that is being handled goes on from a node. -/
def bubbleOccurrences (n : NodeId) (w : World) : List Occurrence :=
  match w.page.events with
  | [] => []
  | e :: _ =>
    let ls := w.page.listenersFor n e.event
    .reach n e.event ls :: (handlersOccurrences tell run ls (w.arrive n e.event) ++
      onward (handlers run ls (w.arrive n e.event)) fun _ v =>
        if isStopped v then []
        else
          match v.forest.parent n with
          | some p => tell (.bubble p) v
          | none => [])

/-- What happens when a listener is registered, which needs a node. -/
def listenOccurrences (n : NodeId) (event : String) (once : Bool) (routine : Option Nat)
    (w : World) : List Occurrence :=
  match routine with
  | some k => if n < w.forest.size then [.listen n ⟨w.page.nextListener, event, once, k⟩] else []
  | none => []

/-- What happens while a command is carried out. -/
def commandOccurrences (w : World) : Command → List Occurrence
  | .page (.unlisten of id) =>
    match w.page.nodes.get? of, w.page.listeners.get? id with
    | some n, some l => [.unlisten n l (w.page.unlisten n l).1]
    | _, _ => []
  | .call procedure =>
    match w.procedures.get? procedure with
    | some commands => bodyOccurrences tell run commands w
    | none => []
  | .drop name =>
    [.release
      (World.lostNodes { w with page := { w.page with nodes := w.page.nodes.unbind name } })]
  | .listen on event h once _ =>
    match w.page.nodes.get? on with
    | some n => onward (handler h w) fun routine v => listenOccurrences n event once routine v
    | none => []
  | .dispatch on event =>
    match w.page.nodes.get? on with
    | some n => tell (.bubble n) (w.handle event n)
    | none => []
  | .callCallback name on event =>
    match w.page.nodes.get? on, w.callbacks.get? name with
    | some n, some k => tell (.routine k) (w.handle event n)
    | _, _ => []
  | _ => []

/-- What happens while a routine runs. -/
def routineOccurrences (k : Nat) (w : World) : List Occurrence :=
  match w.routines[k]? with
  | some (.script commands) => bodyOccurrences tell run commands w
  | _ => []

/-- What happens while a job is done. -/
def jobOccurrences : Job → World → List Occurrence
  | .command c, w => commandOccurrences tell run w c
  | .routine k, w => routineOccurrences tell run k w
  | .bubble n, w => bubbleOccurrences tell run n w
  | _, _ => []

end

/-- What happens while a job is done in which jobs are nested to a depth of at most `fuel`. -/
def occurrences : Nat → Job → World → List Occurrence
  | 0, _, _ => []
  | fuel + 1, j, w => jobOccurrences (occurrences fuel) (run fuel) j w

end Run

/-- What happens while commands are performed one after the other, and what nothing holds is
released after each. -/
def World.occurrencesAll (fuel : Nat) (w : World) : List Command → List Occurrence
  | [] => []
  | c :: cs =>
    Run.occurrences fuel (.command c) { w with log := [] } ++
      Run.onward (Run.run fuel (.command c) { w with log := [] }) fun _ v =>
        .release v.lostNodes :: v.release.occurrencesAll fuel cs

/-! ### Registries and worlds -/

variable {α β : Type} {r : Registry} {w w' : World} {os os' : List Occurrence}
  {p p' : List (List Listener)}

/-- A registry has the listeners of all nodes of a world in which only eventful scripts can run. -/
structure Registry.Describes (r : Registry) (w : World) : Prop where
  listeners_eq (n : NodeId) : w.forest.listeners n = r.listeners n
  next_le : r.next ≤ w.page.nextListener
  routine {k : Nat} {routine : Routine} : w.routines[k]? = some routine →
    ∃ commands, routine = .script commands ∧ areEventful commands = true
  procedures : w.procedures.All fun commands => areEventful commands = true

namespace Registry.Describes

/-- Where only other parts of the world change. -/
theorem congr (hr : r.Describes w)
    (hlisteners : ∀ n, w'.forest.listeners n = w.forest.listeners n)
    (hnext : w'.page.nextListener = w.page.nextListener) (hroutines : w'.routines = w.routines)
    (hprocedures : w'.procedures = w.procedures) : r.Describes w' where
  listeners_eq n := (hlisteners n).trans (hr.listeners_eq n)
  next_le := hnext ▸ hr.next_le
  routine := by
    rw [hroutines]
    exact hr.routine
  procedures := hprocedures ▸ hr.procedures

/-- Where the registry changes in what is to be invoked only. -/
theorem pending (hr : r.Describes w) (p : List (List Listener)) :
    Registry.Describes { r with pending := p } w :=
  ⟨hr.listeners_eq, hr.next_le, hr.routine, hr.procedures⟩

/-- Taking listeners from nodes. -/
theorem filter (hr : r.Describes w) {keep : NodeId × Listener → Bool}
    (hlisteners : ∀ n, w'.forest.listeners n =
      (w.forest.listeners n).filter fun l => keep (n, l))
    (hnext : w'.page.nextListener = w.page.nextListener) (hroutines : w'.routines = w.routines)
    (hprocedures : w'.procedures = w.procedures) :
    Registry.Describes { r with entries := r.entries.filter keep } w' where
  listeners_eq n := by
    rw [Registry.listeners_filter, ← hr.listeners_eq, hlisteners]
  next_le := hnext ▸ hr.next_le
  routine := by
    rw [hroutines]
    exact hr.routine
  procedures := hprocedures ▸ hr.procedures

theorem note (hr : r.Describes w) (reply : Reply) : r.Describes (w.note reply) := by
  unfold World.note
  split_ifs
  · exact hr
  · exact hr.congr (fun _ => rfl) rfl rfl rfl

theorem addRoutine (hr : r.Describes w) {commands : Script} (hcs : areEventful commands = true) :
    r.Describes (w.addRoutine (.script commands)).2 where
  listeners_eq := hr.listeners_eq
  next_le := hr.next_le
  routine {k routine} hk := by
    rw [World.addRoutine, Array.getElem?_push] at hk
    split_ifs at hk
    · exact ⟨commands, (Option.some.inj hk).symm, hcs⟩
    · exact hr.routine hk
  procedures := hr.procedures

/-- Releasing nodes. -/
theorem release (hr : r.Describes w) :
    (r.follow (.release w.lostNodes)).Describes w.release := by
  refine hr.filter (fun m => ?_) rfl rfl rfl
  refine (w.forest.listeners_foldl_takeApart (m := m) w.lostNodes).trans ?_
  by_cases hm : m ∈ w.lostNodes <;> simp [hm]

end Registry.Describes

namespace Run

open Activity

/-- What is told of something is allowed by a registry, and what it comes to, if it comes to an end,
is described by the registry after it, in which `p` is still to be invoked. -/
structure Follows (r : Registry) (os : List Occurrence) (result : Option (α × World))
    (p : List (List Listener)) : Prop where
  allows : r.Allows os
  describes {a : α} {w : World} : result = some (a, w) → (r.after os).Describes w
  pending {a : α} {w : World} : result = some (a, w) → (r.after os).pending = p

namespace Follows

variable {result : Option (α × World)}

theorem of_eq_some {a : α} (hresult : result = some (a, w)) (hallows : r.Allows os)
    (hw : (r.after os).Describes w) : Follows r os result (r.after os).pending :=
  ⟨hallows, fun h => (Prod.mk.inj (Option.some.inj (hresult.symm.trans h))).2 ▸ hw, fun _ => rfl⟩

/-- Nothing is told. -/
theorem nil {a : α} (hresult : result = some (a, w)) (hw : r.Describes w) :
    Follows r [] result r.pending := of_eq_some hresult trivial hw

/-- What comes to no end has to be allowed only. -/
theorem of_eq_none (hallows : r.Allows os) : Follows r os (none : Option (α × World)) p :=
  ⟨hallows, nofun, nofun⟩

/-- One thing before others. -/
theorem cons {o : Occurrence} (ho : r.Permits o) (h : Follows (r.follow o) os result p) :
    Follows r (o :: os) result p := ⟨⟨ho, h.allows⟩, h.describes, h.pending⟩

/-- One activity after another. -/
theorem bind {action : Activity α} {next : α → Activity β} {further : α → World → List Occurrence}
    (h : Follows r os (action w) p)
    (hnext : ∀ a v, action w = some (a, v) → (r.after os).Describes v →
      Follows (r.after os) (further a v) (next a v) p') :
    Follows r (os ++ onward (action w) further) ((action >>= next) w) p' := by
  cases haction : action w with
  | none =>
    rw [bind_of_eq_none haction, onward, List.append_nil]
    exact .of_eq_none h.allows
  | some result =>
    obtain ⟨a, v⟩ := result
    have hrest := hnext a v haction (h.describes haction)
    rw [bind_of_eq_some haction, onward]
    refine ⟨Registry.allows_append.2 ⟨h.allows, hrest.allows⟩, fun hu => ?_, fun hu => ?_⟩
    · rw [Registry.after_append]
      exact hrest.describes hu
    · rw [Registry.after_append]
      exact hrest.pending hu

/-- Something after which nothing more happens to listeners. -/
theorem bind_of_eq {action : Activity α} {next : α → Activity β}
    (h : Follows r os (action w) p)
    (hnext : ∀ a v, (r.after os).Describes v → ∃ b u, next a v = some (b, u) ∧
      (r.after os).Describes u) :
    Follows r os ((action >>= next) w) p := by
  have hbind : Follows r (os ++ onward (action w) fun _ _ => []) ((action >>= next) w) p := by
    refine h.bind fun a v hv hd => ?_
    obtain ⟨b, u, hb, hu⟩ := hnext a v hd
    rw [hb]
    exact ⟨trivial, fun h => (Prod.mk.inj (Option.some.inj h)).2 ▸ hu,
      fun _ => h.pending hv⟩
  have hnil : onward (action w) (fun _ _ => []) = [] := by
    cases action w <;> rfl
  rwa [hnil, List.append_nil] at hbind

end Follows

/-- What a runner of eventful scripts does to listeners is told. -/
structure Recounts (tell : Job → World → List Occurrence) (run : Runner) : Prop where
  command {r : Registry} {w : World} {c : Command} : r.Describes w → c.isEventful = true →
    Follows r (tell (.command c) w) (run (.command c) w) r.pending
  routine {r : Registry} {w : World} (k : Nat) : r.Describes w →
    Follows r (tell (.routine k) w) (run (.routine k) w) r.pending
  bubble {r : Registry} {w : World} (n : NodeId) : r.Describes w →
    Follows r (tell (.bubble n) w) (run (.bubble n) w) r.pending

variable {tell : Job → World → List Occurrence} {run : Runner}

/-- What runs while an event of its own is handled. -/
theorem follows_handling {os : List Occurrence} {action : Activity Unit} {event : String}
    {n : NodeId} (h : Follows r os (action (w.handle event n)) p) :
    Follows r os (Run.handling event n action w) p := by
  rw [Run.handling, modify_bind]
  refine h.bind_of_eq fun _ v hd => ?_
  cases v.page.events with
  | nil => exact ⟨_, _, rfl, hd⟩
  | cons e es => exact ⟨_, _, rfl, hd.congr (fun _ => rfl) rfl rfl rfl⟩

theorem withNode_of_some {name : String} {n : NodeId} (hn : w.page.nodes.get? name = some n)
    {action : NodeId → Activity Reply} : withNode name action w = action n w := by
  have hnode : node name w = some (.ok n, w) := by rw [node, hn]
  rw [withNode, bind_of_eq_some hnode]

theorem withNode_of_none {name : String} (hn : w.page.nodes.get? name = none)
    {action : NodeId → Activity Reply} :
    withNode name action w = some (.failure (.unbound name), w) := by
  have hnode : node name w = some (.error (.unbound name), w) := by rw [node, hn]
  rw [withNode, bind_of_eq_some hnode]
  rfl

section Commands

variable (hr : r.Describes w)

include hr

theorem follows_page (c : PageCommand) :
    Follows r (commandOccurrences tell run w (.page c)) (onPage c w) r.pending := by
  by_cases hc : ∀ of id, c ≠ .unlisten of id
  · have hnone : commandOccurrences tell run w (.page c) = [] := by
      cases c with
      | unlisten of id => exact absurd rfl (hc of id)
      | _ => rfl
    have htends := PageAction.tends_ofCommand c hc w.page
    rw [hnone]
    exact .nil rfl (hr.congr htends.listeners_eq htends.nextListener_eq rfl rfl)
  · push Not at hc
    obtain ⟨of, id, rfl⟩ := hc
    rw [commandOccurrences, onPage, PageAction.on_unlisten]
    cases w.page.nodes.get? of with
    | none => exact .nil rfl hr
    | some n =>
      cases w.page.listeners.get? id with
      | none => exact .nil rfl hr
      | some l =>
        have hfound : (w.page.unlisten n l).1 = (r.listeners n).any (·.id == l) := by
          rw [← hr.listeners_eq]
          rfl
        refine .cons hfound (.nil rfl (hr.filter (fun m => ?_) rfl rfl rfl))
        refine (w.forest.listeners_filter_listeners (m := m) (n := n) (·.id != l)).trans ?_
        by_cases hm : m = n
        · simp [hm, bne]
        · simp [hm, beq_false_of_ne hm]

theorem follows_listen (n : NodeId) (event : String) {h : Handler} (hh : h.isEventful = true)
    (once : Bool) (as : Option String) :
    Follows r (onward (handler h w) fun routine v => listenOccurrences n event once routine v)
      (listen n event h once as w) r.pending := by
  have hhandler : Follows r [] (handler h w) r.pending := by
    cases h with
    | script commands => exact .nil rfl (hr.addRoutine hh)
    | callback name => exact .nil rfl hr
  refine hhandler.bind fun routine v hv hd => ?_
  cases routine with
  | none => exact .nil rfl hd
  | some k =>
    rw [listenOccurrences]
    split_ifs with hn
    · refine .cons hd.next_le (.nil rfl ⟨fun m => ?_, le_rfl, hd.routine, hd.procedures⟩)
      rw [Registry.listeners_listen, ← hd.listeners_eq, ← hd.listeners_eq]
      exact v.forest.listeners_modify_listeners (· ++ [_]) hn
    · refine .nil rfl ⟨fun m => ?_, hd.next_le.trans (Nat.le_succ _), hd.routine, hd.procedures⟩
      refine Eq.trans ?_ (hd.listeners_eq m)
      exact congrArg Cell.listeners ((v.forest.cell_modify m n _).trans (if_neg fun h => hn h.2))

theorem follows_drop (name : String) :
    Follows r (commandOccurrences tell run w (.drop name)) (Run.drop name w) r.pending :=
  .cons trivial (.nil rfl (Registry.Describes.release (hr.congr (fun _ => rfl) rfl rfl rfl)))

end Commands

section Recounts

variable (ht : Recounts tell run) (hr : r.Describes w)

include ht hr

theorem Recounts.body {commands : Script} (hcs : areEventful commands = true) :
    Follows r (bodyOccurrences tell run commands w) (body run commands w) r.pending := by
  induction commands generalizing r w with
  | nil => exact .nil rfl hr
  | cons c commands ih =>
    obtain ⟨hc, hcs⟩ := Bool.and_eq_true_iff.1 hcs
    have hfirst := ht.command hr hc
    refine hfirst.bind fun reply v hv hd => ?_
    exact hfirst.pending hv ▸ ih (hd.note reply) hcs

theorem Recounts.handlers {ls : List Listener} {rest : List (List Listener)}
    (hp : r.pending = ls :: rest) :
    Follows r (handlersOccurrences tell run ls w) (handlers run ls w) rest := by
  induction ls generalizing r w with
  | nil =>
    refine .cons ⟨rest, hp⟩ ?_
    have hleave : (r.follow .leave).pending = rest := by rw [Registry.follow, hp, List.tail_cons]
    exact hleave ▸ .nil rfl (hr.pending _)
  | cons l ls ih =>
    have hinvoke : (r.follow (.invoke l)).pending = ls :: rest := by
      rw [Registry.follow, hp, List.modifyHead_cons, List.tail_cons]
    have hfirst : Follows (r.follow (.invoke l)) _ _ _ :=
      ht.routine l.handler (hr.pending _)
    refine .cons ⟨ls, rest, hp⟩ (hfirst.bind fun _ v hv hd => ih hd ?_)
    rw [hfirst.pending hv, hinvoke]

theorem Recounts.bubbles (n : NodeId) :
    Follows r (bubbleOccurrences tell run n w) (Run.bubble run n w) r.pending := by
  cases he : w.page.events with
  | nil =>
    have hevent (change : Event → Event) : w.page.modifyEvent change = w.page := by
      rw [Page.modifyEvent, he]
    have hbubble : Run.bubble run n w = some ((), w) := by
      rw [Run.bubble, modify_bind, hevent]
      have htake : takeListeners n w = some ([], w) := by rw [takeListeners, he]
      rw [bind_of_eq_some htake, bind_of_eq_some rfl, get_bind, isStopped, he]
      rfl
    rw [bubbleOccurrences, he]
    exact .nil hbubble hr
  | cons e es =>
    have hls : w.page.listenersFor n e.event = (r.listeners n).filter (·.event == e.event) := by
      rw [← hr.listeners_eq]
      rfl
    have hfilter : Registry.Describes { r with entries := r.entries.filter fun x =>
        !(x.1 == n && (x.2.once && x.2.event == e.event)) } (w.arrive n e.event) := by
      refine hr.filter (fun m => ?_) ?_ rfl rfl
      · rw [w.listeners_arrive]
        by_cases hm : m = n
        · simp [hm]
        · simp [hm, beq_false_of_ne hm]
      · unfold World.arrive Page.takeListeners Page.modifyEvent
        split <;> rfl
    have harrive : (r.follow (.reach n e.event (w.page.listenersFor n e.event))).Describes
        (w.arrive n e.event) := hfilter.pending _
    have hhandlers : Follows _ (handlersOccurrences tell run (w.page.listenersFor n e.event)
        (w.arrive n e.event)) _ r.pending := ht.handlers harrive rfl
    rw [bubble_of_events he, bubbleOccurrences, he]
    refine .cons hls (hhandlers.bind fun _ v hv hd => ?_)
    rw [ascend]
    have hp := hhandlers.pending hv
    split_ifs
    · exact hp ▸ .nil rfl hd
    · cases v.forest.parent n with
      | none => exact hp ▸ .nil rfl hd
      | some q => exact hp ▸ ht.bubble q hd

theorem Recounts.routines (k : Nat) :
    Follows r (routineOccurrences tell run k w) (Run.routine run k w) r.pending := by
  rw [Run.routine, get_bind, routineOccurrences]
  cases hk : w.routines[k]? with
  | none => exact .nil rfl hr
  | some routine =>
    obtain ⟨commands, rfl, hcs⟩ := hr.routine hk
    exact ht.body hr hcs

theorem Recounts.commands {c : Command} (hc : c.isEventful = true) :
    Follows r (commandOccurrences tell run w c) (Run.command run c w) r.pending := by
  cases c with
  | page c => exact follows_page hr c
  | signal | template | card | task | send | log =>
    exact .nil rfl (hr.congr (fun _ => rfl) rfl rfl rfl)
  | call procedure =>
    rw [Run.command, Run.call, get_bind, commandOccurrences]
    cases hp : w.procedures.get? procedure with
    | none => exact .nil rfl hr
    | some commands => exact (ht.body hr (hr.procedures.get? hp)).bind_of_eq fun _ v hd =>
        ⟨_, _, rfl, hd⟩
  | drop name => exact follows_drop hr name
  | dispatch on event =>
    rw [commandOccurrences]
    cases hon : w.page.nodes.get? on with
    | none =>
      rw [Run.command, withNode_of_none hon]
      exact .nil rfl hr
    | some n =>
      have hbubble := ht.bubble (w := w.handle event n) n (hr.congr (fun _ => rfl) rfl rfl rfl)
      rw [Run.command, withNode_of_some hon, Run.dispatch]
      exact (follows_handling hbubble).bind_of_eq fun _ v hd => ⟨_, _, rfl, hd⟩
  | callCallback name on event =>
    rw [commandOccurrences]
    cases hon : w.page.nodes.get? on with
    | none =>
      rw [Run.command, withNode_of_none hon]
      exact .nil rfl hr
    | some n =>
      rw [Run.command, withNode_of_some hon, Run.callCallback, get_bind]
      cases w.callbacks.get? name with
      | none => exact .nil rfl hr
      | some k =>
        have hroutine := ht.routine (w := w.handle event n) k
          (hr.congr (fun _ => rfl) rfl rfl rfl)
        exact (follows_handling hroutine).bind_of_eq fun _ v hd => ⟨_, _, rfl, hd⟩
  | define as commands =>
    exact .nil rfl ⟨hr.listeners_eq, hr.next_le, hr.routine, hr.procedures.bind as hc⟩
  | callback as commands =>
    exact .nil rfl ((hr.addRoutine hc).congr (fun _ => rfl) rfl rfl rfl)
  | listen on event h once as =>
    rw [commandOccurrences]
    cases hon : w.page.nodes.get? on with
    | none =>
      rw [Run.command, withNode_of_none hon]
      exact .nil rfl hr
    | some n =>
      rw [Run.command, withNode_of_some hon]
      exact follows_listen hr n event hc once as
  | _ => cases hc

end Recounts

/-- At every depth all that happens to listeners is told. -/
theorem recounts (fuel : Nat) : Recounts (occurrences fuel) (Run.run fuel) := by
  induction fuel with
  | zero =>
    exact ⟨fun _ _ => .of_eq_none trivial, fun _ _ => .of_eq_none trivial,
      fun _ _ => .of_eq_none trivial⟩
  | succ fuel ih =>
    exact ⟨fun hr hc => ih.commands hr hc, fun k hr => ih.routines hr k,
      fun n hr => ih.bubbles hr n⟩

end Run

/-! ### Sessions -/

open Run in
theorem follows_performAll (fuel : Nat) (watch : List String) (hr : r.Describes w)
    {cs : List Command} (hcs : areEventful cs = true) :
    r.Allows (w.occurrencesAll fuel cs) ∧ ∀ reports v,
      w.performAll fuel watch cs = some (reports, v) →
        (r.after (w.occurrencesAll fuel cs)).Describes v := by
  induction cs generalizing r w with
  | nil =>
    refine ⟨trivial, fun reports v hv => ?_⟩
    obtain ⟨-, rfl⟩ := Prod.mk.inj (Option.some.inj hv)
    exact hr
  | cons c cs ih =>
    obtain ⟨hc, hcs⟩ := Bool.and_eq_true_iff.1 hcs
    have hlog : r.Describes { w with log := [] } := hr.congr (fun _ => rfl) rfl rfl rfl
    have hfirst := (recounts fuel).command hlog hc
    rw [World.occurrencesAll, World.performAll, World.perform]
    cases hrun : Run.run fuel (.command c) { w with log := [] } with
    | none =>
      rw [onward, List.append_nil]
      exact ⟨hfirst.allows, nofun⟩
    | some result =>
      obtain ⟨reply, v⟩ := result
      obtain ⟨hallows, hrest⟩ := ih (hfirst.describes hrun).release hcs
      refine ⟨Registry.allows_append.2 ⟨hfirst.allows, trivial, hallows⟩, fun reports u hu => ?_⟩
      dsimp only at hu
      rw [onward, Registry.after_append]
      cases hlast : v.release.performAll fuel watch cs with
      | none => rw [hlast] at hu; cases hu
      | some result =>
        rw [hlast] at hu
        obtain ⟨-, rfl⟩ := Prod.mk.inj (Option.some.inj hu)
        exact hrest _ _ hlast

theorem describes_fresh (base : String) : Registry.empty.Describes (World.fresh base) := by
  refine ⟨fun n => ?_, le_rfl, fun hk => by simp [World.fresh] at hk, nofun⟩
  exact (Forest.listeners_of_changes (.plant .refl (Page.bodyTree Page.shellMarkup)) n).trans
    (Forest.listeners_of_size_le n.zero_le)

end LiveMarkup
