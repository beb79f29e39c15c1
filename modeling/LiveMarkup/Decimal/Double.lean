/-!
# Double precision numbers

A `Double` is the bit pattern of a number in the binary format of 64 bits.  Its comparison is that
of numbers: a value that is not a number differs from itself, and the two zeros are equal.
-/

namespace LiveMarkup

/-- A number in the binary format of 64 bits. -/
structure Double where
  bits : UInt64
  deriving DecidableEq, Repr, Inhabited

namespace Double

/-- The sign bit. -/
def isNegative (x : Double) : Bool := x.bits >>> 63 == 1

/-- The biased exponent. -/
def exponentField (x : Double) : Nat := ((x.bits >>> 52) &&& 0x7ff).toNat

/-- The bits of the fraction. -/
def fractionField (x : Double) : Nat := (x.bits &&& 0xfffffffffffff).toNat

/-- Whether the value is not a number. -/
def isNaN (x : Double) : Bool := x.exponentField == 0x7ff && x.fractionField != 0

/-- Whether the value is one of the two infinities. -/
def isInfinite (x : Double) : Bool := x.exponentField == 0x7ff && x.fractionField == 0

/-- Whether the value is one of the two zeros. -/
def isZero (x : Double) : Bool := x.exponentField == 0 && x.fractionField == 0

/-- The bit `2 ^ 52` that a significand has without its being stored, except in the values nearest
to zero. -/
def hiddenBit : Nat := 0x10000000000000

/-- The bit of the sign. -/
def signBit : Nat := 0x8000000000000000

/-- The significand `m` of a finite value `m * 2 ^ q`. -/
def significand (x : Double) : Nat :=
  if x.exponentField = 0 then x.fractionField else x.fractionField + hiddenBit

/-- The exponent `q` of a finite value `m * 2 ^ q`. -/
def exponent (x : Double) : Int := (max x.exponentField 1 : Nat) - 1075

/-- Whether two values are equal as numbers. -/
def equal (x y : Double) : Bool :=
  !x.isNaN && !y.isNaN && (x == y || (x.isZero && y.isZero))

/-- The value with the sign bit, the significand `m` below `2 ^ 53` and the exponent `q`; exact when
the value can be represented. -/
def ofParts (negative : Bool) (m : Nat) (q : Int) : Double :=
  let sign : Nat := if negative then signBit else 0
  if m = 0 then ⟨UInt64.ofNat sign⟩
  else
    let shift := 52 - m.log2
    let field := (q - shift + 1075).toNat
    ⟨UInt64.ofNat (sign + field * hiddenBit + ((m <<< shift) - hiddenBit))⟩

/-- An integer below `2 ^ 53` in absolute value. -/
def ofInt (n : Int) : Double := ofParts (decide (n < 0)) n.natAbs 0

/-- The value of a number in the binary format of 32 bits. -/
def ofSingle (bits : UInt32) : Double :=
  let negative := bits >>> 31 == 1
  let field := ((bits >>> 23) &&& 0xff).toNat
  let fraction := (bits &&& 0x7fffff).toNat
  if field = 0xff then
    let sign : Nat := if negative then signBit else 0
    ⟨UInt64.ofNat (sign + 0x7ff * hiddenBit + (fraction <<< 29))⟩
  else
    let m := if field = 0 then fraction else fraction + 0x800000
    ofParts negative m ((max field 1 : Nat) - 150)

end Double

end LiveMarkup
