import PointsTo.Decimal.Shortest
import PointsTo.Text.Numeral

/-!
# Decimal text of binary64 numbers

A finite number is written with its shortest decimal, always in positional form and without a
point when it is whole. The sign of zero is kept.

* `positional` writes `d * 10 ^ k`;
* `binary64` writes the number with a given bit pattern.
-/

namespace PointsTo.Decimal

open Text

/-- `d * 10 ^ k` in positional form. -/
def positional (d : Nat) (k : Int) : String :=
  let digits := (decimal d).toList
  let places := (-k).toNat
  if 0 ≤ k then String.ofList (digits ++ List.replicate k.toNat '0')
  else if places < digits.length then
    String.ofList (digits.take (digits.length - places) ++
      '.' :: digits.drop (digits.length - places))
  else String.ofList ('0' :: '.' :: List.replicate (places - digits.length) '0' ++ digits)

/-- The text of the binary64 number with the given bits. -/
def binary64 (bits : UInt64) : String :=
  let sign := if bits.toNat / Nat.pow 2 63 = 1 then "-" else ""
  let exponent := bits.toNat / Nat.pow 2 52 % Nat.pow 2 11
  let fraction := bits.toNat % Nat.pow 2 52
  if exponent = 2047 then
    if fraction = 0 then sign ++ "inf" else "NaN"
  else
    let m := if exponent = 0 then fraction else Nat.pow 2 52 + fraction
    let q : Int := (if exponent = 0 then 1 else exponent : Nat) - 1075
    if m = 0 then sign ++ "0"
    else
      match shortest? (.ofBinary m q (fraction == 0 && 1 < exponent)) with
      | some (d, k) => sign ++ positional d k
      | none => sign ++ "0"

end PointsTo.Decimal
