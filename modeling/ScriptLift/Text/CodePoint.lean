import ScriptLift.Text.Quoted

/-!
# Text — code points

An escape can spell half of a surrogate pair without the other half, and no character is one.  A
text that may hold such halves is a list of code points (`CodeText`).  It is shown with a
replacement for each half, and can be written to a file only if it has none
(`CodeText.isEncodable`).
-/

namespace ScriptLift

/-- A code point of a text that need not be a string. -/
inductive CodePoint where
  | char (c : Char)
  /-- Half of a surrogate pair. -/
  | half (unit : Nat)
  deriving DecidableEq, Repr

namespace CodePoint

/-- The code point is a character. -/
def isChar : CodePoint → Bool
  | char _ => true
  | half _ => false

/-- The character that shows a code point. -/
def shown : CodePoint → Char
  | char c => c
  | half _ => '\ufffd'

/-- The code point that one sixteen-bit unit stands for on its own. -/
def ofUnit (u : Nat) : CodePoint :=
  if u < 0xD800 || 0xE000 ≤ u then char (Char.ofNat u) else half u

/-- The code points that sixteen-bit units stand for. -/
def ofUnits : List Nat → List CodePoint
  | [] => []
  | [u] => [ofUnit u]
  | u :: v :: us =>
    if 0xD800 ≤ u && u < 0xDC00 && 0xDC00 ≤ v && v < 0xE000 then
      char (Char.ofNat (0x10000 + (u - 0xD800) * 0x400 + (v - 0xDC00))) :: ofUnits us
    else ofUnit u :: ofUnits (v :: us)

/-- One code point of a literal in `quote`; a half is written by its value. -/
def quote (quote : Char) : CodePoint → List Char
  | char c => Text.quoteChar Text.isPrintable quote c
  | half u => '\\' :: 'u' :: Text.lowerHex 4 u

end CodePoint

/-- A text that can hold half of a surrogate pair. -/
structure CodeText where
  points : List CodePoint
  deriving DecidableEq, Repr

namespace CodeText

/-- A string is a text of characters. -/
def ofString (s : String) : CodeText :=
  ⟨s.toList.map .char⟩

/-- The characters that show a text. -/
def shown (t : CodeText) : List Char :=
  t.points.map CodePoint.shown

/-- The string that shows a text. -/
def text (t : CodeText) : String :=
  .ofList t.shown

/-- The text holds characters only. -/
def isEncodable (t : CodeText) : Bool :=
  t.points.all CodePoint.isChar

/-- The literal for a text. -/
def quoted (t : CodeText) : String :=
  let quote := Text.quoteFor t.shown
  .ofList (quote :: t.points.flatMap (CodePoint.quote quote) ++ [quote])

@[simp]
theorem shown_ofString (s : String) : (ofString s).shown = s.toList := by
  simp [shown, ofString, Function.comp_def, CodePoint.shown]

@[simp]
theorem text_ofString (s : String) : (ofString s).text = s := by
  simp [text]

@[simp]
theorem isEncodable_ofString (s : String) : (ofString s).isEncodable = true := by
  simp [isEncodable, ofString, CodePoint.isChar]

/-- Without halves the literal is that of the characters. -/
@[simp]
theorem quoted_ofString (s : String) : (ofString s).quoted = Text.quoted s := by
  rw [quoted, shown_ofString]
  simp [ofString, Text.quoted, Text.quoteChars, List.flatMap_map, CodePoint.quote]

end CodeText

end ScriptLift
