import ScriptLift.Text.CodePoint

/-!
# Natives

What a dictionary knows about one native, a function of the game that scripts call by its hash.
-/

namespace ScriptLift

/-- What a dictionary says of a native. -/
structure Native where
  hash : Int
  name : CodeText
  space : String
  resultType : Option String
  deriving DecidableEq, Repr

end ScriptLift
