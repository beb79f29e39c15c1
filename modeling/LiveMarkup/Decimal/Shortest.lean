import LiveMarkup.Decimal.Double

/-!
# The shortest decimal of a number

`shortest m q` is the decimal with the fewest digits among those that round to the double
`m * 2 ^ q`, and of those the one nearest to it; when two are equally near, the larger.  A decimal
is a number of `digits` times a power of ten.
-/

namespace LiveMarkup

/-- The decimal `digits * 10 ^ exponent`. -/
structure Decimal where
  digits : Nat
  exponent : Int
  deriving DecidableEq, Repr

namespace Decimal

/-- A fraction of natural numbers. -/
structure Ratio where
  num : Nat
  den : Nat
  deriving Repr

/-- The fraction `n * 2 ^ e`. -/
def Ratio.ofBinary (n : Nat) (e : Int) : Ratio := ⟨n <<< e.toNat, 1 <<< (-e).toNat⟩

/-- The fraction `r / 10 ^ e`. -/
def Ratio.scaled (r : Ratio) (e : Int) : Ratio :=
  ⟨r.num * Nat.pow 10 (-e).toNat, r.den * Nat.pow 10 e.toNat⟩

/-- Whether `r ≤ n`, or `r < n` where the end does not count. -/
def Ratio.below (r : Ratio) (n : Nat) (ends : Bool) : Bool :=
  if ends then r.num ≤ n * r.den else r.num < n * r.den

/-- Whether `n ≤ r`, or `n < r` where the end does not count. -/
def Ratio.above (r : Ratio) (n : Nat) (ends : Bool) : Bool :=
  if ends then n * r.den ≤ r.num else n * r.den < r.num

/-- The number of zeros after the point before the first digit of a fraction below one. -/
def leadingZeros (r : Ratio) : Nat → Nat → Nat
  | 0, count => count
  | fuel + 1, count =>
    if r.den ≤ r.num * Nat.pow 10 (count + 1) then count else leadingZeros r fuel (count + 1)

/-- The exponent `e` with `10 ^ e ≤ r < 10 ^ (e + 1)`. -/
def magnitude (r : Ratio) : Int :=
  if r.den ≤ r.num then ((Nat.toDigits 10 (r.num / r.den)).length : Int) - 1
  else -(leadingZeros r 400 0 : Int) - 1

/-- The numbers that round to a double: its value and the two ends, which count when `ends`
holds. -/
structure Interval where
  low : Ratio
  value : Ratio
  high : Ratio
  ends : Bool

/-- The interval of `m * 2 ^ q`; below a power of two the next double is nearer. -/
def interval (m : Nat) (q : Int) : Interval :=
  let narrow := m = Double.hiddenBit ∧ q ≠ -1074
  ⟨.ofBinary (4 * m - if narrow then 1 else 2) (q - 2), .ofBinary m q,
    .ofBinary (4 * m + 2) (q - 2), m % 2 == 0⟩

/-- The decimal `n * 10 ^ e` if it lies in the interval, for the two `n` next to the value; the
nearer one if both do. -/
def onGrid? (i : Interval) (e : Int) : Option Decimal :=
  let value := i.value.scaled e
  let down := value.num / value.den
  let up := down + 1
  let downIn := (i.low.scaled e).below down i.ends
  let upIn := (i.high.scaled e).above up i.ends
  let upNearer := value.den ≤ 2 * (value.num % value.den)
  if downIn && !(upIn && upNearer) then some ⟨down, e⟩
  else if upIn then some ⟨up, e⟩
  else none

/-- The first hit on the grids with more and more digits. -/
def search (i : Interval) (top : Int) : Nat → Nat → Decimal
  | 0, _ => ⟨0, 0⟩
  | fuel + 1, count => (onGrid? i (top - count)).getD (search i top fuel (count + 1))

/-- The decimal without the zeros at its end. -/
def trimmed : Nat → Decimal → Decimal
  | 0, d => d
  | fuel + 1, d =>
    if d.digits % 10 = 0 ∧ d.digits ≠ 0 then trimmed fuel ⟨d.digits / 10, d.exponent + 1⟩ else d

/-- The shortest decimal that rounds to the double `m * 2 ^ q`, for positive `m`. -/
def shortest (m : Nat) (q : Int) : Decimal :=
  let i := interval m q
  trimmed 20 (search i (magnitude i.value) 18 0)

/-! ### Written forms -/

/-- The decimal in positional notation. -/
def positional (d : Decimal) : String :=
  let digits := Nat.toDigits 10 d.digits
  if 0 ≤ d.exponent then String.ofList (digits ++ List.replicate d.exponent.toNat '0')
  else
    let places := (-d.exponent).toNat
    let padded := List.replicate (places + 1 - digits.length) '0' ++ digits
    String.ofList (padded.take (padded.length - places)) ++ "." ++
      String.ofList (padded.drop (padded.length - places))

/-- The decimal with one digit before the point and an exponent. -/
def scientific (d : Decimal) : String :=
  match Nat.toDigits 10 d.digits with
  | [] => ""
  | first :: rest =>
    let exponent := d.exponent + rest.length
    let fraction := if rest.isEmpty then "" else "." ++ String.ofList rest
    first.toString ++ fraction ++ "e" ++ toString exponent

end Decimal

namespace Double

/-- The shortest decimal of a finite value other than zero, without its sign. -/
def decimal (x : Double) : Decimal := Decimal.shortest x.significand x.exponent

/-- The value as text: the shortest decimal in positional notation, no sign for zero, and words for
what is no finite number. -/
def text (x : Double) : String :=
  if x.isNaN then "NaN"
  else
    let sign := if x.isNegative then "-" else ""
    if x.isInfinite then sign ++ "Infinity"
    else if x.isZero then "0"
    else sign ++ x.decimal.positional

/-- The description of a value: always with a point, and with an exponent from `10 ^ 16` up and
below `10 ^ (-4)`. -/
def described (x : Double) : String :=
  if x.isNaN then "NaN"
  else
    let sign := if x.isNegative then "-" else ""
    if x.isInfinite then sign ++ "inf"
    else if x.isZero then sign ++ "0.0"
    else
      let d := x.decimal
      let top := d.exponent + (Nat.toDigits 10 d.digits).length
      if 17 ≤ top ∨ top < -3 then sign ++ d.scientific
      else if 0 ≤ d.exponent then sign ++ d.positional ++ ".0"
      else sign ++ d.positional

end Double

end LiveMarkup
