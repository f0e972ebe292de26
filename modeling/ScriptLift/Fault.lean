/-!
# Faults

Why lifting stops.  Only `returnCount` and `endOfCode` have a wording of their own; the others
say that the instructions or the caller broke a rule of the machine.
-/

namespace ScriptLift

/-- What stops the lifting of a program. -/
inductive Fault where
  /-- The operands do not fit the operation. -/
  | badOperands
  /-- The entry address is not the address of an instruction. -/
  | noEntry
  /-- A position outside a list. -/
  | badPosition
  /-- An address without a block. -/
  | noBlock (address : Int)
  /-- Reading on behind the last instruction. -/
  | endOfCode (position : Nat)
  /-- A return of neither no value nor one. -/
  | returnCount (routine : String) (count : Int)
  /-- A literal without a text. -/
  | noText
  /-- More calls inside calls than there may be. -/
  | tooDeep
  /-- A template with more or fewer holes than arguments. -/
  | badTemplate
  deriving DecidableEq, Repr

namespace Fault

/-- The text of a fault; most have none. -/
def message : Fault → String
  | endOfCode position => "eof when peeking instruction " ++ toString position
  | returnCount routine count =>
    "unable to infer return value of function " ++ routine ++ ": " ++ toString count
      ++ " return values"
  | _ => ""

end Fault

end ScriptLift
