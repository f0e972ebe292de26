import ScriptLift.Assoc
import ScriptLift.Fault
import ScriptLift.OperandStack
import ScriptLift.Position

/-!
# Tapes

A tape is a run of instructions under a reading head.  Each time the head moves on, the operand
stack at hand is recorded with the instruction read before, so that after a full pass every
instruction carries the stack it left behind.  Moving back to the start keeps what was recorded.

A tape has a table of the addresses on it.  An address is entered when its first instruction is
appended, with the index of that instruction, and no other operation changes the table.
-/

namespace ScriptLift

/-- An instruction and the operand stack recorded behind it. -/
structure Cell where
  instruction : Instruction
  stack : OperandStack
  deriving Repr

/-- The cells on both sides of the reading head, and where each address is found. -/
structure Tape where
  /-- The cells read, last first. -/
  read : List Cell := []
  /-- The cells still to be read. -/
  unread : List Cell := []
  /-- The index of the first instruction at each address. -/
  index : List (Int × Nat) := []
  deriving Repr, Inhabited

namespace Tape

/-- All cells in order. -/
def cells (t : Tape) : List Cell :=
  t.read.reverse ++ t.unread

/-- The index of the instruction to be read next. -/
def position (t : Tape) : Nat :=
  t.read.length

/-- The instructions in order. -/
def instructions (t : Tape) : List Instruction :=
  t.cells.map (·.instruction)

/-- The number of instructions. -/
def length (t : Tape) : Nat :=
  t.cells.length

/-- Put an instruction at the end, and enter its address in the table if it is new. -/
def append (t : Tape) (i : Instruction) : Tape :=
  { t with
    unread := t.unread ++ [⟨i, []⟩]
    index := Assoc.putNew i.address t.length t.index }

/-- The table with the addresses of instructions entered, the first of them at index `n`. -/
def enter (index : List (Int × Nat)) (n : Nat) : List Instruction → List (Int × Nat)
  | [] => index
  | i :: rest => enter (Assoc.putNew i.address n index) (n + 1) rest

/-- The tape of `code`, its head at the start. -/
def ofList (code : List Instruction) : Tape where
  unread := code.map fun i => ⟨i, []⟩
  index := enter [] 0 code

@[simp]
theorem cells_append (t : Tape) (i : Instruction) :
    (t.append i).cells = t.cells ++ [⟨i, []⟩] := by
  simp [append, cells]

theorem foldl_append (t : Tape) (code : List Instruction) :
    code.foldl append t
      = ⟨t.read, t.unread ++ code.map fun i => ⟨i, []⟩, enter t.index t.length code⟩ := by
  induction code generalizing t with
  | nil => simp [enter]
  | cons i code ih =>
    have hlength : (t.append i).length = t.length + 1 := by simp [length]
    rw [List.foldl_cons, ih, hlength]
    simp [append, enter]

/-- A tape is made by appending. -/
theorem ofList_eq_foldl (code : List Instruction) : ofList code = code.foldl append {} := by
  rw [foldl_append]
  rfl

/-- The tape of some code holds its instructions, each with the empty stack. -/
theorem cells_ofList (code : List Instruction) :
    (ofList code).cells = code.map fun i => ⟨i, []⟩ := rfl

@[simp]
theorem instructions_ofList (code : List Instruction) : (ofList code).instructions = code := by
  simp [instructions, cells_ofList, Function.comp_def]

/-- No instruction is left to read. -/
def atEnd (t : Tape) : Bool :=
  t.unread.isEmpty

/-- The instruction under the head. -/
def peek (t : Tape) : Except Fault Instruction :=
  match t.unread with
  | c :: _ => .ok c.instruction
  | [] => .error (.endOfCode t.position)

/-- Record a stack with the instruction read last, if there is one. -/
def record (t : Tape) (stack : OperandStack) : Tape :=
  match t.read with
  | [] => t
  | c :: cs => { t with read := { c with stack } :: cs }

/-- Record a stack, then read on.  At the end the stack is recorded and the head stays. -/
def next (t : Tape) (stack : OperandStack) : Except Fault Instruction × Tape :=
  let t := t.record stack
  match t.unread with
  | c :: cs => (.ok c.instruction, { t with read := c :: t.read, unread := cs })
  | [] => (.error (.endOfCode t.position), t)

/-- Move the head back to the start. -/
def rewind (t : Tape) : Tape :=
  { t with read := [], unread := t.cells }

/-- The index that the table has for an address. -/
def indexOf? (t : Tape) (address : Int) : Option Nat :=
  t.index.lookup address

/-- The cell at a position, which may count from the end. -/
def cell (t : Tape) (position : Int) : Except Fault Cell :=
  match atPosition? t.cells position with
  | some c => .ok c
  | none => .error .badPosition

/-- The cell of the first instruction at an address. -/
def cellAt? (t : Tape) (address : Int) : Option Cell :=
  (t.indexOf? address).bind fun n => t.cells[n]?

end Tape

end ScriptLift
