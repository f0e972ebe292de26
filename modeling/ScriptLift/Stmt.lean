import ScriptLift.Expr
import ScriptLift.Fault
import ScriptLift.Text.Template

/-!
# Statements

The statements lifting emits into a block.  A branch and a jump name blocks by address; how those
blocks are placed is decided when the routine is laid out.
-/

namespace ScriptLift

/-- A statement of a block. -/
inductive Stmt where
  | assign (target : Reference) (value : Expr)
  | call (call : Expr)
  | ret (values : List Expr)
  | declare (ref : Reference)
  | comment (text : String)
  /-- A condition and the blocks of its two outcomes; both meet again at the join. -/
  | branch (condition : Expr) (thenBlock : Int) (join elseBlock : Option Int)
  | goto (target : Int)
  deriving Repr, Inhabited

/-- The name of the label at an address. -/
def labelName (address : Int) : String :=
  "label_" ++ Text.hex 0 address

namespace Stmt

/-- The text, without indentation or end mark. -/
def text (known : Place → DataType) : Stmt → String
  | assign target value => target.name ++ " = " ++ value.text
  | call e => e.text
  | ret [] => "return"
  | ret values => "return " ++ ", ".intercalate (Expr.texts values)
  | declare r => (known r.place).text ++ " " ++ r.name
  | comment s => "// " ++ s
  | branch condition .. => "if (" ++ condition.text ++ ")"
  | goto target => "goto " ++ labelName target

/-- The comment that a template and its arguments give. -/
def commentOf (template : String) (args : List String) : Except Fault Stmt :=
  match Text.fill? template args with
  | some s => .ok (comment s)
  | none => .error .badTemplate

/-- A semicolon ends the statement. -/
def isTerminated : Stmt → Bool
  | comment _ => false
  | branch .. => false
  | _ => true

/-- Every literal in the statement has a text. -/
def hasText : Stmt → Bool
  | assign _ value => value.hasText
  | call e => e.hasText
  | ret values => Expr.allHaveText values
  | branch condition .. => condition.hasText
  | _ => true

end Stmt

end ScriptLift
