import ScriptLift.Number.Binary64

/-!
# Number — shortest decimals

The decimal of a number is the shortest that reads back as that number, of the shortest ones the
nearest, and of two nearest ones the even.  A finite number `m · 2 ^ q` is what every real within
half a step of it rounds to; the ends of that interval round to it when `m` is even.  For one
digit, two digits and so on the two neighbours of the number on the decimal grid of that length
are tried, in exact arithmetic, and the first grid with a neighbour inside the interval wins.
-/

namespace ScriptLift

/-- A decimal: `digits`, read as a whole number, times ten to the `exponent`. -/
structure Decimal where
  digits : Nat
  exponent : Int
  deriving DecidableEq, Repr

namespace Binary64

/-- The position of the leading decimal digit of `m · 2 ^ q`, for positive `m`: the largest `k`
with `10 ^ k ≤ m · 2 ^ q`.  Four hundred places are more than the least number has. -/
def leadingPlace (m : Nat) (q : Int) : Int :=
  (Nat.toDigits 10 (m * Nat.pow 10 400 * Nat.pow 2 q.toNat / Nat.pow 2 (-q).toNat)).length - 401

/-- The interval that rounds to `m · 2 ^ q`, in units of `2 ^ (q - 2)`.  Below a power of two the
numbers stand closer together, except at the least exponent. -/
def interval (m : Nat) (q : Int) : Nat × Nat :=
  (if m = Nat.pow 2 52 && q ≠ -1074 then 4 * m - 1 else 4 * m - 2, 4 * m + 2)

/-- The better of the two grid points next to `m · 2 ^ q` at `10 ^ e`, if either is in the interval
of the number. -/
def gridPoint? (m : Nat) (q : Int) (e : Int) : Option Nat :=
  let unit := Nat.pow 2 (q - 2).toNat * Nat.pow 10 (-e).toNat
  let grid := Nat.pow 10 e.toNat * Nat.pow 2 (2 - q).toNat
  let (low, high) := interval m q
  let inside (c : Nat) : Bool :=
    (low * unit < c * grid && c * grid < high * unit)
      || (m % 2 = 0 && (low * unit = c * grid || c * grid = high * unit))
  let below := 4 * m * unit / grid
  let above := below + 1
  if inside below && inside above then
    let down := 4 * m * unit - below * grid
    let up := above * grid - 4 * m * unit
    some (if down < up || (down = up && below % 2 = 0) then below else above)
  else if inside below then some below
  else if inside above then some above
  else none

/-- The first of `tries` grids, from `digits` digits on, that has a point in the interval.  A point
at the next power of ten is written with one digit less. -/
def shortestFrom (m : Nat) (q place : Int) : Nat → Nat → Decimal
  | _, 0 => ⟨0, 0⟩
  | digits, tries + 1 =>
    let e := place - digits + 1
    match gridPoint? m q e with
    | some c => if c = Nat.pow 10 digits then ⟨Nat.pow 10 (digits - 1), e + 1⟩ else ⟨c, e⟩
    | none => shortestFrom m q place (digits + 1) tries

/-- The shortest decimal that reads back as `m · 2 ^ q`.  Seventeen digits always suffice. -/
def shortest (m : Nat) (q : Int) : Decimal :=
  shortestFrom m q (leadingPlace m q) 1 17

end Binary64

end ScriptLift
