import LiveMarkup.Cards.Wallet

/-!
# Bitmaps of barcodes

A bitmap holds one byte for each module of a barcode, row by row; a zero is a dark module.
-/

namespace LiveMarkup

/-- The modules of a barcode, row by row. -/
structure Bitmap where
  width : Nat
  height : Nat
  data : List Nat
  deriving DecidableEq, Repr

namespace Bitmap

/-- The number of modules of a bitmap; a number beyond 64 bits counts as the largest. -/
def moduleCount (width height : Nat) : Nat := min (width * height) largest64

/-- The bitmap with the given modules, which must be as many as the width and the height say. -/
def ofModules (width height : Nat) (data : List Nat) : Except CardFault Bitmap :=
  if width * height ≤ largest64 ∧ data.length = width * height then .ok ⟨width, height, data⟩
  else .error (.bitmap width height (moduleCount width height) data.length)

/-- Whether the bitmap is a row of bars. -/
def isLinear (b : Bitmap) : Bool := b.height == 1

/-- The height at which a row of bars is drawn. -/
def barHeight (b : Bitmap) : Nat := b.width / 2

/-- The places of the zeros in a list that begins at the given place. -/
def darkFrom (place : Nat) : List Nat → List Nat
  | [] => []
  | m :: ms => if m = 0 then place :: darkFrom (place + 1) ms else darkFrom (place + 1) ms

/-- The places of the dark modules of the first row. -/
def bars (b : Bitmap) : List Nat := darkFrom 0 (b.data.take b.width)

/-- The picture of the bitmap: four bytes for each module, black and opaque if it is dark, otherwise
transparent. -/
def rgba (b : Bitmap) : List Nat :=
  b.data.flatMap fun m => [0, 0, 0, if m = 0 then 255 else 0]

/-- Whether a picture of the given size holds nothing. -/
def isEmptyFrame (width height : Nat) : Bool := width == 0 || height == 0

end Bitmap

end LiveMarkup
