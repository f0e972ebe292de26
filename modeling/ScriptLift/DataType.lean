import ScriptLift.Text.Blank

/-!
# Data types

The types of the pseudo-code.  A location or an expression whose type nothing has settled is
`unknown`, and knowledge only grows: `refine` keeps a type that is known and takes a new one where
there was none.
-/

namespace ScriptLift

/-- The types a value can have; `unknown` is the one that nothing is known of. -/
inductive DataType where
  | void
  | int
  | float
  | bool
  | string
  | unknown
  deriving DecidableEq, Repr, Inhabited

namespace DataType

/-- The spelling in the pseudo-code. -/
def text : DataType → String
  | void => "void"
  | int => "int"
  | float => "float"
  | bool => "bool"
  | string => "char*"
  | unknown => "var"

/-- The type a dictionary means by a name already trimmed and in lower case. -/
def ofLowerName : String → DataType
  | "void" => void
  | "int" | "any" | "hash" | "entity" | "ped" | "vehicle" | "object" | "player" => int
  | "float" => float
  | "bool" => bool
  | "char*" | "const char*" | "string" => string
  | _ => unknown

/-- The type a dictionary means by a name, blanks around it and case apart.  Lowering the ASCII
letters is enough: a name holding any other letter is none of the names known. -/
def ofName (name : String) : DataType :=
  ofLowerName (.ofList ((Text.strip Text.isBlank name.toList).map Char.toLower))

/-- The type of a name that may be absent. -/
def ofName? : Option String → DataType
  | some name => ofName name
  | none => unknown

/-- What is known after learning `new`: the first type known stays. -/
def refine : DataType → DataType → DataType
  | unknown, new => new
  | known, _ => known

/-- Learning `new` settles an open type. -/
def Settles (known new : DataType) : Prop :=
  known = unknown ∧ new ≠ unknown

/-- Learning `new` contradicts a type that is known. -/
def Contradicts (known new : DataType) : Prop :=
  known ≠ unknown ∧ new ≠ unknown ∧ new ≠ known

instance (known new : DataType) : Decidable (Settles known new) :=
  inferInstanceAs (Decidable (_ ∧ _))

instance (known new : DataType) : Decidable (Contradicts known new) :=
  inferInstanceAs (Decidable (_ ∧ _))

end DataType

end ScriptLift
