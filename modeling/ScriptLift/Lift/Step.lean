import ScriptLift.Lift.Frame
import ScriptLift.Routine.Returns

/-!
# Carrying out instructions

What each operation does to a frame.  An operation takes its operands from the stack and pushes an
expression for its result, or emits a statement.  Operands of the wrong shape stop the lift.

A conditional jump is taken when its condition fails.  It becomes a branch whose first part is the
block behind the jump.  Where the code before the jump's target ends in a jump further forward,
the target is the second part and that jump leads to the join; otherwise the target is the join.
-/

namespace ScriptLift

namespace UnaryOp

/-- The type of what an operator gives. -/
def type : UnaryOp → DataType
  | intNot => .bool
  | intNeg => .int
  | floatNeg => .float
  | toFloat => .float
  | toInt => .int

end UnaryOp

namespace Instruction

/-- The slot in the operands. -/
def slot (i : Instruction) : Except Fault Int :=
  match i.operands with
  | .slot index => .ok index
  | _ => .error .badOperands

/-- The address that a jump goes to. -/
def target (i : Instruction) : Except Fault Int :=
  match i.branchTarget? with
  | some target => .ok target
  | none => .error .badOperands

end Instruction

/-- The second part and the join of a branch whose first part is at `thenBlock` and which jumps to
`target`. -/
def Routine.elseBranch (r : Routine) (thenBlock target : Int) : Option Int × Int :=
  match r.indexOf? target with
  | none | some 0 => (none, target)
  | some (n + 1) =>
    match r.code[n]? with
    | some ⟨address, .op .jump, .branch join⟩ =>
      if target < join && thenBlock ≤ address && r.hasAddress join then (some target, join)
      else (none, target)
    | _ => (none, target)

namespace Lift

/-- The variable that an instruction means in the given storage. -/
def locate (s : Storage) (i : Instruction) : Lift Reference := do
  let index ← i.slot
  match s with
  | .local =>
    let f ← get
    let (ref, routine) ← f.routine.slot index
    set { f with routine }
    return ref
  | .static => return .static index
  | .global => return .global index

/-- Store the top value into a variable, which learns its type. -/
def store (ref : Reference) : Lift Unit := do
  let value ← pop
  modify fun f => f.learn ref (value.type f.typeOf)
  emit (.assign ref value)

/-- A binary operation on the two top values. -/
def binary (op : String) (type : DataType) : Lift Unit := do
  let right ← pop
  let left ← pop
  push (.binary left op right type)

/-- A call, as a statement if it has no result and otherwise as a value. -/
def invoke (name : String) (args returns : Int) (type : DataType) : Lift Unit := do
  let call := .call name (← popMany args) type
  if returns = 0 then emit (.call call)
  else
    if 1 < returns then report (.foldedReturns name returns)
    push call

/-- Learn from a return site about the result of the routine. -/
def inferReturn (count : Int) (values : List Expr) : Lift Unit := do
  let f ← get
  let top := match values.getLast? with
    | some e => e.type f.typeOf
    | none => .unknown
  let (routine, events) ← f.routine.inferReturn count top
  set { f.report events with routine }

/-- A return; more values than one are refused before any is taken. -/
def leave (returns : Int) : Lift Unit := do
  if 1 < returns then inferReturn returns []
  let values ← popMany returns
  inferReturn returns values
  emit (.ret values)

/-- A jump to the target of `i`, taken when `condition` fails. -/
def branch (i : Instruction) (condition : Expr) : Lift Unit := do
  let target ← i.target
  let f ← get
  match f.block.fallthrough with
  | none =>
    emit (.comment ("conditional jump to 0x" ++ Text.hex 0 target ++ " at end of function"))
    emit (.goto target)
  | some thenBlock =>
    let (elseBlock, join) := f.routine.elseBranch thenBlock target
    emit (.branch condition thenBlock (some join) elseBlock)
    modify fun f => { f with block := { f.block with continuation := some join } }

/-- Call the routine at an address. -/
def callRoutine (target : Int) : Lift Unit := do
  match (← get).program.callee? target with
  | some callee => invoke callee.name callee.args callee.returns .unknown
  | none =>
    report (.unknownCallee target)
    emit (.comment ("call to unknown function at 0x" ++ Text.hex 0 target))

/-- Carry out an operation. -/
def execute (o : Opcode) (i : Instruction) : Lift Unit := do
  match o with
  | .nop | .enter => return
  | .push =>
    match i.operands with
    | .push values => values.forM fun v => push (.ofLiteral v)
    | _ => throw .badOperands
  | .dup => push (← peek)
  | .drop =>
    let e ← pop
    if e.isCall then emit (.call e)
  | .load s => push (.var (← locate s i))
  | .store s => store (← locate s i)
  | .int o => binary o.symbol .int
  | .float o => binary o.symbol .float
  | .intCompare r => binary r.symbol .bool
  | .floatCompare r => binary r.symbol .bool
  | .unary o => push (.unary o.symbol (← pop) o.type)
  | .native =>
    match i.operands with
    | .native args returns hash name resultType =>
      invoke ((givenName? (name.map (·.text))).getD ("native_0x" ++ Text.hex 16 hash)) args returns
        (if returns = 0 then .void else .ofName? resultType)
    | _ => throw .badOperands
  | .call =>
    match i.operands with
    | .call target => callRoutine target
    | _ => throw .badOperands
  | .leave =>
    match i.operands with
    | .ret _ returns => leave returns
    | _ => throw .badOperands
  | .jump => emit (.goto (← i.target))
  | .jumpIfZero => branch i (← pop)
  | .compareJump r =>
    let right ← pop
    let left ← pop
    branch i (.binary left r.symbol right .bool)

/-- Keep an instruction as a comment. -/
def skip (i : Instruction) : Lift Unit := do
  report (.unhandled (← get).routine.name i)
  emit (.comment ("unhandled instruction " ++ i.text))

/-- Carry out an instruction, if the program has its operation carried out. -/
def step (i : Instruction) : Lift Unit := do
  match i.kind with
  | .op o => if o ∈ (← get).program.handled then execute o i else skip i
  | .other _ => skip i

/-- Read the next instruction, recording the stack with the one before. -/
def next : Lift Instruction := do
  let f ← get
  let (i, tape) := f.block.tape.next f.stack
  set { f with block := { f.block with tape } }
  i

/-- Carry out the next `n` instructions, and record the stack behind the last. -/
def steps : Nat → Lift Unit
  | 0 => modify fun f =>
    { f with block := { f.block with tape := f.block.tape.record f.stack } }
  | n + 1 => do
    step (← next)
    steps n

/-- Carry out the instructions of the block from its start. -/
def runBlock : Lift Unit := do
  modify fun f => { f with block := { f.block with tape := f.block.tape.rewind } }
  steps (← get).block.tape.length

end Lift

end ScriptLift
