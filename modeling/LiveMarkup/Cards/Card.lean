/-!
# Cards

A card shows a barcode: a format with the text that it encodes.  It has an identifier, a name and
the index of a colour of the palette.  Text in a linear format is shown after a number sign.
-/

namespace LiveMarkup

/-- A barcode: its format, and the text that it encodes. -/
structure Barcode where
  format : String
  rawValue : String
  deriving DecidableEq, Repr, Inhabited

/-- A card of the wallet; `color` is an index into the palette, of 64 bits. -/
structure Card where
  id : String
  format : String
  rawValue : String
  name : String
  color : Nat
  deriving DecidableEq, Repr, Inhabited

/-- A colour of the palette, with its shades for dark and for light surroundings. -/
structure CardColor where
  name : String
  display : String
  value : String
  deriving DecidableEq, Repr

/-- The formats whose barcodes are rows of bars. -/
def linearFormats : List String :=
  ["code_128", "code_39", "ean_13", "ean_8", "itf", "upc_a", "upc_e"]

/-- Whether the barcodes of a format are rows of bars. -/
def isLinearFormat (format : String) : Bool := linearFormats.contains format

/-- The colour of cards whose index is outside the palette. -/
def firstColor : CardColor := ⟨"Blue", "#608DFF", "#0031AF"⟩

/-- The colours of cards. -/
def palette : List CardColor :=
  [firstColor, ⟨"Purple", "#D9A7FF", "#681CA2"⟩, ⟨"Pink", "#FFB9EB", "#A82783"⟩,
    ⟨"Golden", "#FFD056", "#B8992B"⟩, ⟨"Green", "#C1FF90", "#4D871F"⟩,
    ⟨"Teal", "#92DEFF", "#1A779F"⟩, ⟨"Red", "#FE8D8D", "#A70E0E"⟩,
    ⟨"Brown", "#FFAC7D", "#96491F"⟩, ⟨"Lime", "#E8F34F", "#696E1C"⟩,
    ⟨"Tosca", "#78F4C7", "#2B8665"⟩]

namespace Card

/-- A card that shows a barcode, without a name and in the first colour. -/
def ofBarcode (id : String) (b : Barcode) : Card := ⟨id, b.format, b.rawValue, "", 0⟩

/-- The barcode of a card. -/
def barcode (c : Card) : Barcode := ⟨c.format, c.rawValue⟩

/-- The colour of a card. -/
def paletteColor (c : Card) : CardColor := (palette[c.color]?).getD firstColor

/-- The text of a card as it is shown. -/
def shown (c : Card) : String := if isLinearFormat c.format then "#" ++ c.rawValue else c.rawValue

end Card

end LiveMarkup
