import PointsTo.Text.Numeral
import PointsTo.Text.Printable

/-!
# Quoted texts

A quoted text stands between double quotes. The double quote, the backslash and four control
characters have a short escape; every other character that is not printable is written with its
code point in hexadecimal.
-/

namespace PointsTo.Text

/-- How one character is written between the quotes. -/
def escaped (c : Char) : String :=
  if c = '"' then "\\\""
  else if c = '\\' then "\\\\"
  else if c = '\n' then "\\n"
  else if c = '\r' then "\\r"
  else if c = '\t' then "\\t"
  else if c.toNat = 0 then "\\0"
  else if isPrintable c then String.singleton c
  else "\\u\x7b" ++ hexadecimal c.toNat ++ "\x7d"

/-- The text between double quotes. -/
def quoted (s : String) : String :=
  "\"" ++ String.join (s.toList.map escaped) ++ "\""

end PointsTo.Text
