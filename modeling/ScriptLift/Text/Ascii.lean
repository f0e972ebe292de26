import ScriptLift.Text.Hex

/-!
# Text — ASCII string literals

A string constant of the pseudo-code is written between double quotes in plain ASCII: the quote
and the backslash behind a backslash, five controls by letter, and every other character outside
the range from blank to tilde as its sixteen-bit units, two of them above `0xFFFF`.
-/

namespace ScriptLift.Text

/-- One sixteen-bit unit, in four lower-case digits. -/
def unitEscape (unit : Nat) : List Char :=
  '\\' :: 'u' :: lowerHex 4 unit

/-- The sixteen-bit units of a code point. -/
def units (n : Nat) : List Nat :=
  if n < 0x10000 then [n]
  else [0xD800 + (n - 0x10000) / 0x400, 0xDC00 + (n - 0x10000) % 0x400]

/-- One character between quotes; one outside the printable ASCII range is written by its units. -/
def asciiChar (c : Char) : List Char :=
  if c = '"' then ['\\', '"']
  else if c = '\\' then ['\\', '\\']
  else if c = '\n' then ['\\', 'n']
  else if c = '\r' then ['\\', 'r']
  else if c = '\t' then ['\\', 't']
  else if c = '\x0c' then ['\\', 'f']
  else if c = '\x08' then ['\\', 'b']
  else if 0x20 ≤ c.val && c.val ≤ 0x7E then [c]
  else (units c.toNat).flatMap unitEscape

/-- The ASCII literal for a text, quotes included. -/
def asciiQuoted (s : String) : String :=
  .ofList ('"' :: s.toList.flatMap asciiChar ++ ['"'])

end ScriptLift.Text
