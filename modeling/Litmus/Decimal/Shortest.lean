/-!
# The shortest decimal of a binary fraction

A floating-point number stands for the fraction `m * 2 ^ q`. Every decimal closer to it than to its
neighbours reads back as the same number, so it is enough to write the shortest of these, and of
several the one nearest to the fraction.

The search goes through the grids of decimals with 1, 2, … 17 digits. If a grid has any point in the
interval that reads back, then one of the two grid points around the fraction itself lies there, so
only these two are tried.
-/

namespace Litmus.Decimal

/-- A positive fraction with its rounding interval, all four over one denominator. The ends of the
interval belong to it when `closed` holds. -/
structure Interval where
  /-- The lower end. -/
  low : Nat
  /-- The fraction itself. -/
  mid : Nat
  /-- The upper end. -/
  high : Nat
  /-- The common denominator. -/
  den : Nat
  /-- Whether the ends read back as well. -/
  closed : Bool

/-- The interval of the reals that round to `m * 2 ^ q`. The gap below is half as wide when `m` is
the smallest mantissa of its binade, which `narrow` says. -/
def Interval.ofBinary (m : Nat) (q : Int) (narrow : Bool) : Interval :=
  let up := Nat.pow 2 q.toNat
  { low := 4 * m * up - (if narrow then 1 else 2) * up
    mid := 4 * m * up
    high := 4 * m * up + 2 * up
    den := 4 * Nat.pow 2 (-q).toNat
    closed := m % 2 == 0 }

/-- Whether the decimal `c * 10 ^ e` lies in the interval. -/
def Interval.contains (i : Interval) (c : Nat) (e : Int) : Bool :=
  let x := c * Nat.pow 10 e.toNat * i.den
  let s := Nat.pow 10 (-e).toNat
  if i.closed then i.low * s ≤ x && x ≤ i.high * s else i.low * s < x && x < i.high * s

/-- The integer `k` with `10 ^ (k - 1) ≤ mid / den < 10 ^ k`, found between -400 and 400, which is
wide enough for every double-precision number. -/
def Interval.magnitude (i : Interval) : Int :=
  let below (k : Int) : Bool := i.mid * Nat.pow 10 (-k).toNat < Nat.pow 10 k.toNat * i.den
  (((List.range 800).map fun n : Nat ↦ (n : Int) - 400).find? below).getD 400

/-- The point of the grid `10 ^ e` that reads back and is nearest to the fraction, if the grid has
one. A tie goes to the even neighbour. -/
def Interval.onGrid? (i : Interval) (e : Int) : Option Nat :=
  let num := i.mid * Nat.pow 10 (-e).toNat
  let den := i.den * Nat.pow 10 e.toNat
  let c := num / den
  let twice := 2 * (num % den)
  let first := if twice < den ∨ (twice = den ∧ c % 2 = 0) then c else c + 1
  let second := if first = c then c + 1 else c
  if i.contains first e then some first else if i.contains second e then some second else none

/-- The shortest decimal in the interval, as a number `c` and a power of ten `e`: the value is
`c * 10 ^ e`. -/
def Interval.shortest (i : Interval) : Nat × Int :=
  let k := i.magnitude
  let grids := (List.range 17).map fun n : Nat ↦ k - n - 1
  (grids.findSome? fun e ↦ (i.onGrid? e).map fun c ↦ (c, e)).getD (0, 0)

end Litmus.Decimal
