import LiveMarkup.Script.Command
import LiveMarkup.Script.Reply
import LiveMarkup.Script.Table

/-!
# Commands on cards

Stores and cards with the names that scripts have given them.
-/

namespace LiveMarkup

/-- Named stores and cards. -/
structure Cabinet where
  stores : Table Store
  cards : Table Card

namespace Cabinet

/-- No stores and no cards. -/
def empty : Cabinet := ⟨[], []⟩

/-- The store bound to a name. -/
def store? (c : Cabinet) (name : String) : Except Failure Store :=
  match c.stores.get? name with
  | some s => .ok s
  | none => .error (.unbound name)

/-- The card bound to a name. -/
def card? (c : Cabinet) (name : String) : Except Failure Card :=
  match c.cards.get? name with
  | some card => .ok card
  | none => .error (.unbound name)

/-- Changes a store. -/
def putStore (c : Cabinet) (name : String) (s : Store) : Cabinet :=
  { c with stores := c.stores.bind name s }

/-- Names a card if a name is given. -/
def bindCard (c : Cabinet) (name : Option String) (card : Card) : Cabinet :=
  { c with cards := c.cards.bindTo name card }

/-- Carries out a command on the entries of a store. -/
def runEntries (s : Store) : EntryCommand → Reply × Store
  | .get key => (.ofOption (s.get? key), s)
  | .set key value => (.count (s.set key value).size, s.set key value)
  | .remove key => (.count (s.erase key).size, s.erase key)
  | .keys => (.texts s.keys, s)
  | .clear => (.flag true, .empty)
  | .dump => (.list (s.entries.map fun e => .texts [e.1, e.2]), s)

/-- Carries out a command on cards. -/
def run (c : Cabinet) : CardCommand → Reply × Cabinet
  | .store as => (.nothing, c.putStore as .empty)
  | .entries name command =>
    match c.store? name with
    | .error f => (.failure f, c)
    | .ok s =>
      let (reply, s) := runEntries s command
      (reply, c.putStore name s)
  | .create name format raw as =>
    match c.store? name with
    | .error f => (.failure f, c)
    | .ok s =>
      match Wallet.create s ⟨format, raw⟩ with
      | (.ok card, s) => (.card card, (c.putStore name s).bindCard as card)
      | (.error fault, s) => (.failure (.card fault), c.putStore name s)
  | .edit name newName color id =>
    match c.card? name with
    | .error f => (.failure f, c)
    | .ok card =>
      (.nothing,
        c.bindCard (some name)
          { card with
            name := newName.getD card.name
            color := color.getD card.color
            id := id.getD card.id })
  | .save name card =>
    match c.store? name, c.card? card with
    | .ok s, .ok card => (.nothing, c.putStore name (Wallet.save s card))
    | .error f, _ => (.failure f, c)
    | _, .error f => (.failure f, c)
  | .load name id as =>
    match c.store? name with
    | .error f => (.failure f, c)
    | .ok s =>
      match Wallet.load s id with
      | .ok card => (.card card, c.bindCard as card)
      | .error fault => (.failure (.card fault), c)
  | .delete name id =>
    match c.store? name with
    | .error f => (.failure f, c)
    | .ok s => (.nothing, c.putStore name (Wallet.delete s id))
  | .list name =>
    match c.store? name with
    | .error f => (.failure f, c)
    | .ok s =>
      match Wallet.cards s with
      | .ok cards => (.list (cards.map .card), c)
      | .error fault => (.failure (.card fault), c)
  | .info name =>
    match c.card? name with
    | .error f => (.failure f, c)
    | .ok card => (.cardInfo card.shown card.paletteColor.name card.barcode.record card.record, c)
  | .parseCard source =>
    match Card.ofRecord? source with
    | some card => (.list [.card card, .text card.shown, .text card.paletteColor.name], c)
    | none => (.failure (.card .unreadable), c)
  | .parseBarcode source =>
    match Barcode.ofRecord? source with
    | some b =>
      (.list [.text b.format, .text b.rawValue, .flag (isLinearFormat b.format)], c)
    | none => (.failure (.card .unreadable), c)
  | .linear format => (.list [.flag (isLinearFormat format), .texts linearFormats], c)
  | .color index =>
    match palette[index]? with
    | some color => (.color color, c)
    | none => (.nothing, c)
  | .bitmap width height data =>
    match Bitmap.ofModules width height data with
    | .ok b => (.bitmap b, c)
    | .error fault => (.failure (.card fault), c)
  | .frameEmpty width height => (.flag (Bitmap.isEmptyFrame width height), c)

end Cabinet

end LiveMarkup
