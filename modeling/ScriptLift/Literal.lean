import ScriptLift.DataType
import ScriptLift.Number.Scientific
import ScriptLift.Text.Ascii
import ScriptLift.Text.Quoted

/-!
# Literals

The constants an instruction pushes.  A literal has two texts: `text`, its spelling in the
pseudo-code, and `shown`, its spelling in a listing of instructions.
-/

namespace ScriptLift

/-- A constant of the code; `absent` is the one without a value. -/
inductive Literal where
  | int (value : Int)
  | float (value : Binary64)
  | string (value : String)
  | bool (value : Bool)
  | absent
  deriving DecidableEq, Repr, Inhabited

namespace Literal

/-- The type a constant has by itself. -/
def type : Literal → DataType
  | int _ => .int
  | float _ => .float
  | string _ => .string
  | bool _ => .bool
  | absent => .unknown

/-- The spelling in the pseudo-code; `inHex` asks for a whole number in base sixteen. -/
def text (inHex : Bool) : Literal → String
  | int n => if inHex then "0x" ++ Text.hex 0 n else toString n
  | float x => x.text ++ "f"
  | string s => Text.asciiQuoted s
  | bool b => if b then "true" else "false"
  | absent => "None"

/-- Only an absent value has no spelling in base sixteen. -/
def hasText (inHex : Bool) : Literal → Bool
  | absent => !inHex
  | _ => true

/-- The spelling in a listing of instructions. -/
def shown : Literal → String
  | int n => toString n
  | float x => x.text
  | string s => Text.quoted s
  | bool b => if b then "True" else "False"
  | absent => "None"

end Literal

end ScriptLift
