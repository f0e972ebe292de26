/-!
# Number — binary64

A floating-point number is its sixty-four bits: a sign, eleven bits of exponent and fifty-two of
fraction.  Numbers are told apart by these bits, so the two zeros differ and every number is equal
to itself.  A finite number is `m · 2 ^ q` up to its sign (`Binary64.parts`).

Narrow numbers, of thirty-two bits, are widened without rounding (`Binary64.widen`), and a decimal
`m · 10 ^ e` is taken to the nearest number, a tie to the even one (`Binary64.ofDecimal`).
-/

namespace ScriptLift

/-- A number by its bits: sign, eleven of exponent, fifty-two of fraction. -/
structure Binary64 where
  bits : UInt64
  deriving DecidableEq, Repr, Inhabited

namespace Binary64

/-- The sign bit is set; zero has a sign too. -/
def negative (x : Binary64) : Bool :=
  Nat.pow 2 63 ≤ x.bits.toNat

/-- The exponent field. -/
def exponent (x : Binary64) : Nat :=
  x.bits.toNat / Nat.pow 2 52 % Nat.pow 2 11

/-- The fraction field. -/
def fraction (x : Binary64) : Nat :=
  x.bits.toNat % Nat.pow 2 52

/-- The bits are those of no number. -/
def isNaN (x : Binary64) : Bool :=
  x.exponent = 0x7FF && x.fraction != 0

/-- The bits are those of one of the infinities. -/
def isInfinite (x : Binary64) : Bool :=
  x.exponent = 0x7FF && x.fraction = 0

/-- One of the two zeros. -/
def isZero (x : Binary64) : Bool :=
  x.exponent = 0 && x.fraction = 0

/-- Without its sign, a finite number is `m · 2 ^ q` for `(m, q) = x.parts`. -/
def parts (x : Binary64) : Nat × Int :=
  if x.exponent = 0 then (x.fraction, -1074)
  else (x.fraction + Nat.pow 2 52, x.exponent - 1075)

/-- The number with the given sign and the remaining sixty-three bits. -/
def ofSign (negative : Bool) (rest : Nat) : Binary64 :=
  ⟨UInt64.ofNat (if negative then Nat.pow 2 63 + rest else rest)⟩

/-- The bits of an infinity, its sign apart. -/
def infinityBits : Nat :=
  0x7FF * Nat.pow 2 52

/-- The number that thirty-two bits stand for. -/
def widen (narrow : Nat) : Binary64 :=
  let sign := decide (Nat.pow 2 31 ≤ narrow)
  let exponent := narrow / Nat.pow 2 23 % Nat.pow 2 8
  let fraction := narrow % Nat.pow 2 23
  if exponent = 0xFF then ofSign sign (infinityBits + fraction * Nat.pow 2 29)
  else if exponent ≠ 0 then ofSign sign ((exponent + 896) * Nat.pow 2 52 + fraction * Nat.pow 2 29)
  else if fraction = 0 then ofSign sign 0
  else
    let top := fraction.log2
    ofSign sign ((top + 874) * Nat.pow 2 52 + (fraction - Nat.pow 2 top) * Nat.pow 2 (52 - top))

/-- The whole number nearest to `num / den`, a tie to the even one. -/
def roundDiv (num den : Nat) : Nat :=
  let quotient := num / den
  let twice := 2 * (num % den)
  if twice < den || (twice = den && quotient % 2 = 0) then quotient else quotient + 1

/-- The largest `k` with `2 ^ k ≤ num / den`. -/
def floorLog2 (num den : Nat) : Int :=
  let guess : Int := (num.log2 : Int) - den.log2
  if den * Nat.pow 2 guess.toNat ≤ num * Nat.pow 2 (-guess).toNat then guess else guess - 1

/-- The bits of the number nearest to the positive `num / den`, its sign apart. -/
def nearestBits (num den : Nat) : Nat :=
  let q := max (floorLog2 num den - 52) (-1074)
  let m := roundDiv (num * Nat.pow 2 (-q).toNat) (den * Nat.pow 2 q.toNat)
  min infinityBits ((q + 1074).toNat * Nat.pow 2 52 + m)

/-- The number nearest to `m · 10 ^ e` with the given sign.  Beyond four hundred places on either
side of the point the result is an infinity or a zero, whatever the digits. -/
def ofDecimal (negative : Bool) (m : Nat) (e : Int) : Binary64 :=
  if m = 0 then ofSign negative 0
  else
    let places := (Nat.toDigits 10 m).length + e
    if 400 < places then ofSign negative infinityBits
    else if places < -400 then ofSign negative 0
    else ofSign negative (nearestBits (m * Nat.pow 10 e.toNat) (Nat.pow 10 (-e).toNat))

end Binary64

end ScriptLift
