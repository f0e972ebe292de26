import ScriptLift.Event
import ScriptLift.Expr

/-!
# The operand stack

The stack of symbolic values during lifting, top first.  Taking a value from an empty stack is
reported and gives `Expr.underflow`; the stack stays empty.  Several values are taken at once in
the order they were pushed (`popMany`).
-/

namespace ScriptLift

/-- The values on the stack, top first. -/
abbrev OperandStack : Type :=
  List Expr

namespace OperandStack

/-- The top value, what is left, and what is reported. -/
def pop : OperandStack → Expr × OperandStack × List Event
  | [] => (.underflow, [], [.underflow])
  | e :: s => (e, s, [])

/-- The top value, left in place. -/
def peek : OperandStack → Expr × List Event
  | [] => (.underflow, [.underflow])
  | e :: _ => (e, [])

/-- The top `n` values, deepest first. -/
def popMany : Nat → OperandStack → List Expr × OperandStack × List Event
  | 0, s => ([], s, [])
  | n + 1, s =>
    let (e, s', events) := pop s
    let (es, s'', more) := popMany n s'
    (es ++ [e], s'', events ++ more)

end OperandStack

end ScriptLift
