import LiveMarkup.Decimal.Double

/-!
# Values of signals

A signal holds text, an integer of 64 bits, or a double.  Values are equal when they are of one kind
and equal in it; doubles are compared as numbers.
-/

namespace LiveMarkup

/-- What a signal holds. -/
inductive Value where
  | text (s : String)
  | int (n : Int)
  | double (x : Double)
  deriving DecidableEq, Repr, Inhabited

namespace Value

/-- Whether two values are equal. -/
def equal : Value → Value → Bool
  | text a, text b => a == b
  | int a, int b => a == b
  | double a, double b => a.equal b
  | _, _ => false

/-- The value after an update with an argument: text is appended, integers are added in 64 bits, and
everything else stays as it is. -/
def updated : Value → Value → Value
  | text a, text b => text (a ++ b)
  | int a, int b => int ((a + b).bmod (Nat.pow 2 64))
  | v, _ => v

end Value

end LiveMarkup
