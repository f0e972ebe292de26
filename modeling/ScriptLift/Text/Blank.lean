/-!
# Text — blanks

The characters that trimming removes: every character with the white-space property, and the four
information separators.  Trimming is stated on lists of characters and carried to strings.
-/

namespace ScriptLift.Text

/-- The code points of the blanks, in increasing order. -/
def blanks : List Nat :=
  [0x9, 0xA, 0xB, 0xC, 0xD, 0x1C, 0x1D, 0x1E, 0x1F, 0x20, 0x85, 0xA0, 0x1680, 0x2000, 0x2001,
   0x2002, 0x2003, 0x2004, 0x2005, 0x2006, 0x2007, 0x2008, 0x2009, 0x200A, 0x2028, 0x2029, 0x202F,
   0x205F, 0x3000]

/-- A character that trimming removes. -/
def isBlank (c : Char) : Bool :=
  blanks.contains c.toNat

/-- An information separator: a blank of running text that does not surround a number. -/
def isSeparator (c : Char) : Bool :=
  0x1C ≤ c.toNat && c.toNat ≤ 0x1F

/-- The longest end of `cs` that `p` holds of throughout is dropped. -/
def dropTail (p : Char → Bool) (cs : List Char) : List Char :=
  (cs.reverse.dropWhile p).reverse

/-- Both ends of `cs` lose the characters that `p` holds of. -/
def strip (p : Char → Bool) (cs : List Char) : List Char :=
  dropTail p (cs.dropWhile p)

/-- Without the blanks at the end. -/
def trimEnd (s : String) : String :=
  .ofList (dropTail isBlank s.toList)

/-- Without the blanks at either end. -/
def trim (s : String) : String :=
  .ofList (strip isBlank s.toList)

end ScriptLift.Text
