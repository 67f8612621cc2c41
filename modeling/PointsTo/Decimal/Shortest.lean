/-!
# Shortest decimals

A finite binary number is `m * 2 ^ q`. The reals that round to it form an interval around it, and
its shortest decimal is the number with the fewest digits in that interval, the nearest one if
there are several.

* `Window` is the interval, with all three numbers over one denominator;
* `Window.onGrid?` is the best multiple of a power of ten in the interval;
* `shortest?` takes the coarsest grid of powers of ten that meets the interval.
-/

namespace PointsTo.Decimal

/-- A number `value / unit` with the bounds of the interval of reals that round to it. -/
structure Window where
  /-- The lower bound, as a multiple of `1 / unit`. -/
  lo : Nat
  /-- The number itself. -/
  value : Nat
  /-- The upper bound. -/
  hi : Nat
  /-- The common denominator. -/
  unit : Nat
  /-- Whether the bounds round to the number too. -/
  closed : Bool

/-- The window of `m * 2 ^ q`. Neighbours lie `2 ^ q` away, except that the lower one is half as
far when `tight` holds. The bounds belong to the window when `m` is even. -/
def Window.ofBinary (m : Nat) (q : Int) (tight : Bool) : Window :=
  let scale := Nat.pow 2 (q - 2).toNat
  { lo := (4 * m - if tight then 1 else 2) * scale
    value := 4 * m * scale
    hi := (4 * m + 2) * scale
    unit := Nat.pow 2 (2 - q).toNat
    closed := m % 2 == 0 }

/-- Whether `d * 10 ^ k` lies in the window. -/
def Window.holds (w : Window) (d : Nat) (k : Int) : Bool :=
  let n := d * Nat.pow 10 k.toNat * w.unit
  let scale := Nat.pow 10 (-k).toNat
  if w.closed then w.lo * scale ≤ n && n ≤ w.hi * scale
  else w.lo * scale < n && n < w.hi * scale

/-- The multiple `d * 10 ^ k` in the window that is nearest to the number, the greater one of two
that are equally near. -/
def Window.onGrid? (w : Window) (k : Int) : Option Nat :=
  let num := w.value * Nat.pow 10 (-k).toNat
  let den := w.unit * Nat.pow 10 k.toNat
  let d := num / den
  match w.holds d k, w.holds (d + 1) k with
  | true, true => if 2 * (num % den) < den then some d else some (d + 1)
  | true, false => some d
  | false, true => some (d + 1)
  | false, false => none

/-- The first hit on the grids `10 ^ k`, `10 ^ (k - 1)`, …, at most `n` of them. -/
def shortestFrom (w : Window) : (n : Nat) → (k : Int) → Option (Nat × Int)
  | 0, _ => none
  | n + 1, k =>
    match w.onGrid? k with
    | some d => some (d, k)
    | none => shortestFrom w n (k - 1)

/-- Digits `d` and exponent `k` of the shortest decimal `d * 10 ^ k` in the window, for numbers
between `10 ^ (-350)` and `10 ^ 310`. -/
def shortest? (w : Window) : Option (Nat × Int) :=
  shortestFrom w 660 310

end PointsTo.Decimal
