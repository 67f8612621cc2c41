/-!
# Numerals

* `decimal` and `signed` are the decimal numerals of natural numbers and of integers;
* `hexadecimal` has the digits `0`–`9` and `a`–`f`, and `byte` is a byte as `0x` and two of them;
* `number?` reads decimal digits, `value?` a decimal numeral without leading zeros.
-/

namespace PointsTo.Text

/-- The decimal numeral of `n`, without leading zeros. -/
def decimal (n : Nat) : String :=
  String.ofList (Nat.toDigits 10 n)

/-- The decimal numeral of an integer, with a minus sign when it is negative. -/
def signed (i : Int) : String :=
  if i < 0 then "-" ++ decimal i.natAbs else decimal i.natAbs

/-- The hexadecimal numeral of `n`, without leading zeros. -/
def hexadecimal (n : Nat) : String :=
  String.ofList (Nat.toDigits 16 n)

/-- A byte written as `0x` and two hexadecimal digits. -/
def byte (b : UInt8) : String :=
  "0x" ++ (if b < 16 then "0" else "") ++ hexadecimal b.toNat

/-- The number that a string of decimal digits stands for. -/
def digitsValue (digits : List Char) : Nat :=
  digits.foldl (fun n d => 10 * n + (d.toNat - '0'.toNat)) 0

/-- The value of a non-empty string of decimal digits. -/
def number? (digits : List Char) : Option Nat :=
  if !digits.isEmpty && digits.all Char.isDigit then some (digitsValue digits) else none

/-- The value of a non-empty string of decimal digits that does not start with zero. -/
def value? (digits : List Char) : Option Nat :=
  match digits with
  | [] => none
  | d :: _ =>
    if d != '0' && digits.all Char.isDigit then some (digitsValue digits) else none

end PointsTo.Text
