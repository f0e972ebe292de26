import ScriptLift.Literal

/-!
# Expressions

The expressions of the pseudo-code.  A variable is referred to by the place it is stored at and
its identifier; its type is not part of the expression, so what is learnt about a place is seen by
every expression that mentions it (`Expr.type`).

In the text of an expression an operand that is itself a binary expression stands in parentheses,
and nothing else does.

An expression has a text however deep it is and however many digits its constants have.  How deep it
may be to be written is a matter of its own (`Expr.depth`).  A limit on the digits of an integer is
kept where one is read (`Number.digitLimit`), and left out where one is written.
-/

namespace ScriptLift

/-- Where a variable is stored.  The first two are positions in the routine at hand. -/
inductive Place where
  | input (position : Nat)
  | auto (position : Nat)
  | static (index : Int)
  | global (index : Int)
  /-- A variable that belongs to no routine and no script, known by its identifier alone. -/
  | loose (name : String)
  deriving DecidableEq, Repr

/-- A place and the identifier written for it. -/
structure Reference where
  place : Place
  name : String
  deriving DecidableEq, Repr

namespace Reference

/-- A static variable, named by its index. -/
def static (index : Int) : Reference :=
  ⟨.static index, "static_" ++ toString index⟩

/-- A global variable, named by its index. -/
def global (index : Int) : Reference :=
  ⟨.global index, "global_" ++ toString index⟩

/-- A variable that is only a name. -/
def loose (name : String) : Reference :=
  ⟨.loose name, name⟩

end Reference

/-- An expression.  An operator is held as the text it is written with. -/
inductive Expr where
  | literal (value : Literal) (type : DataType) (inHex : Bool)
  | var (ref : Reference)
  | binary (left : Expr) (op : String) (right : Expr) (type : DataType)
  | unary (op : String) (operand : Expr) (type : DataType)
  | call (name : String) (args : List Expr) (type : DataType)
  deriving Repr, Inhabited

namespace Expr

/-- A constant of its own type. -/
def ofLiteral (v : Literal) : Expr :=
  literal v v.type false

/-- What stands for a value that the operand stack did not have. -/
def underflow : Expr :=
  literal (.int 0xBABE) .int true

/-- The type, given what is known of each place. -/
def type (known : Place → DataType) : Expr → DataType
  | literal _ t _ => t
  | var r => known r.place
  | binary _ _ _ t => t
  | unary _ _ t => t
  | call _ _ t => t

/-- The expression is a call: to drop it leaves a statement behind. -/
def isCall : Expr → Bool
  | call .. => true
  | _ => false

/-- The text `s` of the operand `e`, in parentheses if `e` is binary. -/
def wrap (e : Expr) (s : String) : String :=
  match e with
  | binary .. => "(" ++ s ++ ")"
  | _ => s

mutual

/-- The text of an expression. -/
def text : Expr → String
  | literal v _ inHex => v.text inHex
  | var r => r.name
  | binary l op r _ => l.wrap l.text ++ " " ++ op ++ " " ++ r.wrap r.text
  | unary op e _ => op ++ e.wrap e.text
  | call name args _ => name ++ "(" ++ ", ".intercalate (texts args) ++ ")"

/-- The texts of several. -/
def texts : List Expr → List String
  | [] => []
  | e :: es => e.text :: texts es

end

mutual

/-- Every literal in the expression has a text. -/
def hasText : Expr → Bool
  | literal v _ inHex => v.hasText inHex
  | var _ => true
  | binary l _ r _ => l.hasText && r.hasText
  | unary _ e _ => e.hasText
  | call _ args _ => allHaveText args

/-- Every literal in several expressions has a text. -/
def allHaveText : List Expr → Bool
  | [] => true
  | e :: es => e.hasText && allHaveText es

end

end Expr

end ScriptLift
