/-!
# Text — base sixteen

Addresses and hashes are written in upper-case base sixteen.  The sign of a negative number stands
before its digits and counts toward the width, so `-1` in width six is `-00001`.
-/

namespace ScriptLift.Text

/-- The upper-case base-sixteen digits of `n`, without leading zeros. -/
def hexDigits (n : Nat) : List Char :=
  (Nat.toDigits 16 n).map Char.toUpper

/-- Zeros before `cs`, up to `width` characters in all. -/
def zeroPad (width : Nat) (cs : List Char) : List Char :=
  List.replicate (width - cs.length) '0' ++ cs

/-- Upper-case base sixteen in at least `width` characters, the sign included. -/
def hex (width : Nat) : Int → String
  | .ofNat n => .ofList (zeroPad width (hexDigits n))
  | .negSucc n => .ofList ('-' :: zeroPad (width - 1) (hexDigits (n + 1)))

/-- Lower-case base sixteen in at least `width` digits, as escapes are written. -/
def lowerHex (width n : Nat) : List Char :=
  zeroPad width (Nat.toDigits 16 n)

end ScriptLift.Text
