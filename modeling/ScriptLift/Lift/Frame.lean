import ScriptLift.Program

/-!
# Frames

A frame is the state in which the instructions of one block are carried out: the program and the
routine around it, the block itself with the statements emitted so far, the operand stack, and the
events reported.  `Lift` is a computation on a frame that may stop with a fault; the frame stays
as it was at that point.
-/

namespace ScriptLift

/-- What an instruction can read and change: the program, the routine and block it is in, the
operand stack, and the events so far. -/
structure Frame where
  program : Program
  routine : Routine
  block : Block
  stack : OperandStack
  events : List Event
  deriving Repr

/-- A computation on a frame. -/
abbrev Lift : Type → Type :=
  ExceptT Fault (StateM Frame)

namespace Frame

/-- What is known of a place. -/
def typeOf (f : Frame) : Place → DataType :=
  f.program.typeOf f.routine

/-- The frame with more events. -/
def report (f : Frame) (events : List Event) : Frame :=
  { f with events := f.events ++ events }

/-- The frame after learning `new` about the type of a variable. -/
def learn (f : Frame) (ref : Reference) (new : DataType) : Frame :=
  let (program, routine, events) := f.program.learn f.routine ref new
  { f.report events with program, routine }

end Frame

namespace Lift

/-- The value or fault of a computation, and the frame it leaves. -/
def exec {α : Type} (m : Lift α) (f : Frame) : Except Fault α × Frame :=
  StateT.run (ExceptT.run m) f

/-- Push an expression. -/
def push (e : Expr) : Lift Unit :=
  modify fun f => { f with stack := e :: f.stack }

/-- Take the top of the stack, or the placeholder of an empty one, which is reported. -/
def pop : Lift Expr := do
  let f ← get
  let (e, stack, events) := f.stack.pop
  set { f.report events with stack }
  return e

/-- Take `count` values; none if it is negative. -/
def popMany (count : Int) : Lift (List Expr) := do
  let f ← get
  let (es, stack, events) := OperandStack.popMany count.toNat f.stack
  set { f.report events with stack }
  return es

/-- The top of the stack, which stays; on an empty stack as for `pop`. -/
def peek : Lift Expr := do
  let f ← get
  let (e, events) := OperandStack.peek f.stack
  set (f.report events)
  return e

/-- Report one event. -/
def report (event : Event) : Lift Unit :=
  modify fun f => f.report [event]

/-- Write a statement behind those of the block. -/
def emit (s : Stmt) : Lift Unit :=
  modify fun f => { f with block := f.block.emit s }

end Lift

end ScriptLift
