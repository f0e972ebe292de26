import ScriptLift.Literal
import ScriptLift.Opcode
import ScriptLift.Text.CodePoint

/-!
# Instructions

An instruction is an address, a kind and operands.  The three are independent: what an operation
makes of operands of another shape is decided where the operation is carried out.
-/

namespace ScriptLift

/-- What an instruction carries besides its operation. -/
inductive Operands where
  | none
  /-- Constants, pushed in order. -/
  | push (values : List Literal)
  /-- The slot of a variable. -/
  | slot (index : Int)
  /-- The address a jump goes to. -/
  | branch (target : Int)
  /-- The counts of a return. -/
  | ret (args returns : Int)
  /-- The head of a routine. -/
  | enter (args locals : Int) (name : String)
  /-- A call into the game: its counts, its hash, and what a dictionary knows about it. -/
  | native (args returns hash : Int) (name : Option CodeText) (resultType : Option String)
  /-- The address of a routine called. -/
  | call (target : Int)
  deriving DecidableEq, Repr, Inhabited

/-- A name that may be absent, where an empty one counts as absent. -/
def givenName? : Option String → Option String
  | some name => if name = "" then none else some name
  | none => none

namespace Operands

/-- The operands as a listing shows them. -/
def text : Operands → String
  | none => ""
  | push values => ", ".intercalate (values.map Literal.shown)
  | slot index => "index=" ++ toString index
  | branch target => "@" ++ Text.hex 6 target
  | ret args returns => "num_args=" ++ toString args ++ " num_returns=" ++ toString returns
  | enter args locals name =>
    "num_args=" ++ toString args ++ " num_locals=" ++ toString locals ++ " name=" ++ name
  | native _ _ hash name _ => (givenName? (name.map (·.text))).getD ("0x" ++ Text.hex 16 hash)
  | call target => "@" ++ Text.hex 6 target

/-- The text holds characters only. -/
def isEncodable : Operands → Bool
  | native _ _ _ (some name) _ => name.isEncodable
  | _ => true

end Operands

/-- An instruction: where it is, what it does, and what it does it with. -/
structure Instruction where
  address : Int
  kind : Kind
  operands : Operands
  deriving DecidableEq, Repr

namespace Instruction

/-- The instruction ends its block. -/
def isTransfer (i : Instruction) : Bool :=
  i.kind.isTransfer

/-- The instruction tests a condition, and has two ways to go on. -/
def isConditional (i : Instruction) : Bool :=
  i.kind.isConditional

/-- The address in a jump's operands, whatever the kind. -/
def branchTarget? (i : Instruction) : Option Int :=
  match i.operands with
  | .branch target => some target
  | _ => none

/-- One line of a listing. -/
def text (i : Instruction) : String :=
  Text.trimEnd (Text.hex 6 i.address ++ ": " ++ i.kind.name ++ " " ++ i.operands.text)

end Instruction

end ScriptLift
