/-!
# Digits

The values of digits in bases up to sixteen, and the numbers that digits write.  `readNatural?`
reads a number of 64 bits: digits with an optional plus sign before them.
-/

namespace LiveMarkup

/-- The value of a character as a digit in base sixteen, in small or in capital letters. -/
def hexValue? (c : Char) : Option Nat :=
  if c.isDigit then some (c.toNat - '0'.toNat)
  else if 'a' ≤ c ∧ c ≤ 'f' then some (c.toNat - 'a'.toNat + 10)
  else if 'A' ≤ c ∧ c ≤ 'F' then some (c.toNat - 'A'.toNat + 10)
  else none

/-- The value of a character as a digit in base `base`. -/
def digitIn? (base : Nat) (c : Char) : Option Nat := (hexValue? c).filter (· < base)

/-- Whether a character is a digit in base `base`. -/
def isDigitIn (base : Nat) (c : Char) : Bool := (digitIn? base c).isSome

/-- The number whose digits in base `base` have the given values. -/
def ofDigitValues (base : Nat) (values : List Nat) : Nat :=
  values.foldl (fun n d => n * base + d) 0

/-- The number that digits write in base ten. -/
def decimalValue (digits : List Char) : Nat := Nat.ofDigitChars 10 digits 0

/-- The largest number of 64 bits. -/
def largest64 : Nat := 0xffffffffffffffff

/-- Reads a number of 64 bits from its digits. -/
def ofDecimalDigits? (digits : List Char) : Option Nat :=
  if digits.isEmpty || !digits.all Char.isDigit then none
  else if decimalValue digits ≤ largest64 then some (decimalValue digits)
  else none

/-- Reads a number of 64 bits. -/
def readNatural? (s : String) : Option Nat :=
  match s.toList with
  | '+' :: digits => ofDecimalDigits? digits
  | digits => ofDecimalDigits? digits

end LiveMarkup
