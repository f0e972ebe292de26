import ScriptLift.Text.Hex
import ScriptLift.Text.Printable

/-!
# Text — quoted literals

A text is shown between single quotes, or between double quotes when it holds a single quote and
no double one.  The quote in use and the backslash are written behind a backslash, tab and line
ends by letter, and every character that is not printable by its code point: two digits below
`0x100`, four below `0x10000`, eight above.  Bytes are shown the same way behind a `b`, with every
byte outside plain ASCII by its value.
-/

namespace ScriptLift.Text

/-- The quote around `cs`: a double one only where that avoids an escape. -/
def quoteFor (cs : List Char) : Char :=
  if cs.contains '\'' && !cs.contains '"' then '"' else '\''

/-- The code point of `c` behind the letter for its size. -/
def codePointEscape (c : Char) : List Char :=
  if c.toNat < 0x100 then '\\' :: 'x' :: lowerHex 2 c.toNat
  else if c.toNat < 0x10000 then '\\' :: 'u' :: lowerHex 4 c.toNat
  else '\\' :: 'U' :: lowerHex 8 c.toNat

/-- One character of a literal in `quote`, with `plain` deciding what stands as it is. -/
def quoteChar (plain : Char → Bool) (quote c : Char) : List Char :=
  if c = quote || c = '\\' then ['\\', c]
  else if c = '\t' then ['\\', 't']
  else if c = '\n' then ['\\', 'n']
  else if c = '\r' then ['\\', 'r']
  else if plain c then [c]
  else codePointEscape c

/-- The literal for `cs`, quotes included. -/
def quoteChars (plain : Char → Bool) (cs : List Char) : List Char :=
  let quote := quoteFor cs
  quote :: cs.flatMap (quoteChar plain quote) ++ [quote]

/-- The literal for a text. -/
def quoted (s : String) : String :=
  .ofList (quoteChars isPrintable s.toList)

/-- Between the blank and the tilde. -/
def isPlainAscii (c : Char) : Bool :=
  0x20 ≤ c.val && c.val ≤ 0x7E

/-- The literal for a string of bytes. -/
def quotedBytes (bs : List UInt8) : String :=
  .ofList ('b' :: quoteChars isPlainAscii (bs.map fun b => Char.ofNat b.toNat))

end ScriptLift.Text
