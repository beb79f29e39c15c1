import LiveMarkup.Text.Printed

/-!
# Quoted text

Error messages and descriptions quote the text they speak of: between double quotes, with the double
quote and the backslash escaped, the common controls by a letter, and every other character without
a glyph of its own by its code.
-/

namespace LiveMarkup.Text

/-- The digits of a number in base sixteen, in small letters. -/
def hexadecimal (n : Nat) : String := String.ofList (Nat.toDigits 16 n)

/-- The form of a character inside quoted text. -/
def quotedChar : Char → String
  | '\x00' => "\\0"
  | '\t' => "\\t"
  | '\n' => "\\n"
  | '\r' => "\\r"
  | '"' => "\\\""
  | '\\' => "\\\\"
  | c => if isPrinted c then c.toString else "\\u\x7b" ++ hexadecimal c.toNat ++ "\x7d"

/-- Text between double quotes. -/
def quoted (s : String) : String := "\"" ++ String.join (s.toList.map quotedChar) ++ "\""

end LiveMarkup.Text
