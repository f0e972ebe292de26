import ScriptLift.Number.Shortest

/-!
# Number — floating-point text

The text of a number is laid out from its shortest decimal: positionally when the leading digit is
at a place from `10 ^ -4` up to `10 ^ 15`, with at least one digit behind the point, and otherwise
in scientific form, whose exponent has a sign and at least two digits.
-/

namespace ScriptLift

/-- How a number is laid out. -/
structure FloatFormat where
  /-- The least place of the leading digit that is written positionally. -/
  lowest : Int
  /-- The greatest one. -/
  highest : Int
  /-- The digits of a scientific exponent, at least. -/
  exponentDigits : Nat
  nan : String
  infinity : String

/-- Numbers of the pseudo-code and of the dictionaries are written this way. -/
def FloatFormat.standard : FloatFormat :=
  ⟨-4, 15, 2, "nan", "inf"⟩

namespace FloatFormat

/-- Digits with the point behind the first `place + 1` of them, padded by zeros as needed. -/
def positional (place : Int) (ds : List Char) : List Char :=
  if place < 0 then '0' :: '.' :: List.replicate (-place - 1).toNat '0' ++ ds
  else
    let whole := place.toNat + 1
    if ds.length ≤ whole then ds ++ List.replicate (whole - ds.length) '0' ++ ['.', '0']
    else ds.take whole ++ '.' :: ds.drop whole

/-- The first digit, the others behind a point, and the exponent. -/
def scientific (f : FloatFormat) (place : Int) (ds : List Char) : List Char :=
  let mantissa := if ds.length ≤ 1 then ds else ds.take 1 ++ '.' :: ds.drop 1
  let exponent := Nat.toDigits 10 place.natAbs
  mantissa ++ 'e' :: (if place < 0 then '-' else '+')
    :: List.replicate (f.exponentDigits - exponent.length) '0' ++ exponent

/-- The text of a decimal. -/
def decimal (f : FloatFormat) (d : Decimal) : List Char :=
  let ds := Nat.toDigits 10 d.digits
  let place := d.exponent + ds.length - 1
  if f.lowest ≤ place && place ≤ f.highest then positional place ds else f.scientific place ds

/-- The text of a number; a number that is not one has no sign. -/
def text (f : FloatFormat) (x : Binary64) : String :=
  if x.isNaN then f.nan
  else
    let sign := if x.negative then "-" else ""
    if x.isInfinite then sign ++ f.infinity
    else if x.isZero then sign ++ "0.0"
    else sign ++ .ofList (f.decimal (Binary64.shortest x.parts.1 x.parts.2))

end FloatFormat

/-- The text of a number in the standard format. -/
def Binary64.text (x : Binary64) : String :=
  FloatFormat.standard.text x

end ScriptLift
