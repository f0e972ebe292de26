import ScriptLift.Layout
import ScriptLift.Lift.Step

/-!
# Structured programs

Programs with `if`, `if`/`else` and `while`, the code they are compiled to, and their text.

Code is made up of *pieces* that run from one point where the operand stack is empty to the next: a
simple statement, a test with its conditional jump, a jump, a return (`Act`).  A branch or a loop is
compiled to pieces that jump over or around those of its parts (`Body.acts`).  Jumps name positions
in the code; `place` gives each position its address.

The text is that of the program itself, but for a loop, which is written as a branch with a label
before it and a jump back at its end (`Body.lines`).
-/

namespace ScriptLift.Structured

/-- A function of the game, as a call to it shows it. -/
structure Native where
  hash : Int
  name : Option CodeText
  resultType : Option String

/-- A variable. -/
inductive Var where
  | local (slot : Nat)
  | static (index : Int)
  | global (index : Int)

/-- An operation on two values. -/
inductive BinaryOp where
  | int (o : IntOp)
  | float (o : FloatOp)
  | intCompare (r : Relation)
  | floatCompare (r : Relation)

/-- The terms of the source language. -/
inductive Term where
  | int (value : Int)
  | var (v : Var)
  | binary (o : BinaryOp) (left right : Term)
  | unary (o : UnaryOp) (operand : Term)
  /-- A call with one result. -/
  | native (f : Native) (args : List Term)

/-- A statement without control flow. -/
inductive Simple where
  | store (v : Var) (e : Term)
  /-- A call without a result. -/
  | call (f : Native) (args : List Term)
  /-- A call whose result is dropped. -/
  | drop (f : Native) (args : List Term)

/-- A statement and what follows it. -/
inductive Body where
  | done
  | act (s : Simple) (next : Body)
  /-- `if (c) { body }` -/
  | branch (c : Term) (body next : Body)
  /-- `if (c) { yes } else { no }` -/
  | choice (c : Term) (yes no next : Body)
  /-- `while (c) { body }` -/
  | loop (c : Term) (body next : Body)

/-- The second part of every choice has a statement. -/
def Body.IsProper : Body → Prop
  | done => True
  | act _ next => next.IsProper
  | branch _ body next => body.IsProper ∧ next.IsProper
  | choice _ yes no next => no ≠ done ∧ yes.IsProper ∧ no.IsProper ∧ next.IsProper
  | loop _ body next => body.IsProper ∧ next.IsProper

/-- What stands at the head of a routine's code. -/
structure Head where
  args : Int
  locals : Int
  name : String

/-- A program: a body and the value returned behind it, if there is one. -/
structure Source where
  head : Option Head
  body : Body
  /-- The number of arguments, as the return gives it. -/
  args : Int
  result : Option Term
  isProper : body.IsProper

/-! ### Code -/

/-- An operation with its operands. -/
structure Op where
  code : Opcode
  operands : Operands

/-- The instruction at an address. -/
def Op.instruction (x : Op) (address : Int) : Instruction :=
  ⟨address, .op x.code, x.operands⟩

namespace Native

/-- The operands of a call. -/
def operands (f : Native) (args : Nat) (returns : Int) : Operands :=
  .native args returns f.hash f.name f.resultType

/-- The name written for the function. -/
def text (f : Native) : String :=
  (givenName? (f.name.map (·.text))).getD ("native_0x" ++ Text.hex 16 f.hash)

end Native

namespace Var

/-- Where a variable is kept. -/
def storage : Var → Storage
  | «local» _ => .local
  | static _ => .static
  | global _ => .global

/-- The operand of its loads and stores. -/
def slot : Var → Int
  | «local» slot => slot
  | static index => index
  | global index => index

end Var

namespace BinaryOp

/-- The operation an operator compiles to. -/
def opcode : BinaryOp → Opcode
  | int o => .int o
  | float o => .float o
  | intCompare r => .intCompare r
  | floatCompare r => .floatCompare r

/-- The sign an operator is written with. -/
def symbol : BinaryOp → String
  | int o => o.symbol
  | float o => o.symbol
  | intCompare r => r.symbol
  | floatCompare r => r.symbol

/-- The type of what an operator gives. -/
def type : BinaryOp → DataType
  | int _ => .int
  | float _ => .float
  | intCompare _ => .bool
  | floatCompare _ => .bool

end BinaryOp

namespace Term

mutual

/-- The operations that leave the value of a term on the stack: operands first. -/
def ops : Term → List Op
  | int value => [⟨.push, .push [.int value]⟩]
  | var v => [⟨.load v.storage, .slot v.slot⟩]
  | binary o left right => left.ops ++ (right.ops ++ [⟨o.opcode, .none⟩])
  | unary o operand => operand.ops ++ [⟨.unary o, .none⟩]
  | native f args => opsAll args ++ [⟨.native, f.operands args.length 1⟩]

/-- The operations for several terms, one after the other. -/
def opsAll : List Term → List Op
  | [] => []
  | e :: es => e.ops ++ opsAll es

end

end Term

/-- The operations of a simple statement. -/
def Simple.ops : Simple → List Op
  | store v e => e.ops ++ [⟨.store v.storage, .slot v.slot⟩]
  | call f args => Term.opsAll args ++ [⟨.native, f.operands args.length 0⟩]
  | drop f args => Term.opsAll args ++ [⟨.native, f.operands args.length 1⟩, ⟨.drop, .none⟩]

/-- A piece of code; `test` jumps to a position when its condition fails. -/
inductive Act where
  | enter (h : Head)
  | run (s : Simple)
  | test (c : Term) (target : Nat)
  | jump (target : Nat)
  | ret (args : Int) (result : Option Term)

/-- The operations of an act; `address` says where each act is. -/
def Act.ops (address : Nat → Int) : Act → List Op
  | enter h => [⟨.enter, .enter h.args h.locals h.name⟩]
  | run s => s.ops
  | test c target => c.ops ++ [⟨.jumpIfZero, .branch (address target)⟩]
  | jump target => [⟨.jump, .branch (address target)⟩]
  | ret args result => Term.opsAll result.toList ++ [⟨.leave, .ret args result.toList.length⟩]

/-- The operations of several pieces, one after the other. -/
def opsOf (address : Nat → Int) (acts : List Act) : List Op :=
  acts.flatMap (·.ops address)

/-- The operations as instructions, from a position on. -/
def place (address : Nat → Int) (k : Nat) : List Op → List Instruction
  | [] => []
  | x :: rest => x.instruction (address k) :: place address (k + 1) rest

namespace Body

/-- The number of instructions. -/
def size : Body → Nat
  | done => 0
  | act s next => s.ops.length + next.size
  | branch c body next => c.ops.length + 1 + body.size + next.size
  | choice c yes no next => c.ops.length + 1 + yes.size + 1 + no.size + next.size
  | loop c body next => c.ops.length + 1 + body.size + 1 + next.size

/-- The pieces of a body that starts at position `k`. -/
def acts (k : Nat) : Body → List Act
  | done => []
  | act s next => .run s :: next.acts (k + s.ops.length)
  | branch c body next =>
    let first := k + c.ops.length + 1
    let exit := first + body.size
    .test c exit :: (body.acts first ++ next.acts exit)
  | choice c yes no next =>
    let first := k + c.ops.length + 1
    let second := first + yes.size + 1
    let exit := second + no.size
    .test c second :: (yes.acts first ++ .jump exit :: (no.acts second ++ next.acts exit))
  | loop c body next =>
    let first := k + c.ops.length + 1
    let exit := first + body.size + 1
    .test c exit :: (body.acts first ++ .jump k :: next.acts exit)

end Body

namespace Source

/-- The position of the body. -/
def first (s : Source) : Nat :=
  s.head.toList.length

/-- The acts of a whole source: its head, its body, and the return at the end. -/
def acts (s : Source) : List Act :=
  s.head.toList.map .enter ++ (s.body.acts s.first ++ [.ret s.args s.result])

/-- The code of a program, with its instructions at the given addresses. -/
def code (address : Nat → Int) (s : Source) : List Instruction :=
  place address 0 (opsOf address s.acts)

end Source

/-! ### Text -/

/-- The reference to a variable, given those of the local ones. -/
def Var.ref (locals : Nat → Reference) : Var → Reference
  | «local» slot => locals slot
  | static index => .static index
  | global index => .global index

namespace Term

mutual

/-- The expression of a term. -/
def expr (locals : Nat → Reference) : Term → Expr
  | int value => .ofLiteral (.int value)
  | var v => .var (v.ref locals)
  | binary o left right => .binary (left.expr locals) o.symbol (right.expr locals) o.type
  | unary o operand => .unary o.symbol (operand.expr locals) o.type
  | native f args => .call f.text (exprAll locals args) (.ofName? f.resultType)

/-- The expressions of several terms. -/
def exprAll (locals : Nat → Reference) : List Term → List Expr
  | [] => []
  | e :: es => e.expr locals :: exprAll locals es

end

end Term

/-- The statement that a simple statement is lifted to. -/
def Simple.stmt (locals : Nat → Reference) : Simple → Stmt
  | store v e => .assign (v.ref locals) (e.expr locals)
  | call f args => .call (.call f.text (Term.exprAll locals args) .void)
  | drop f args => .call (.call f.text (Term.exprAll locals args) (.ofName? f.resultType))

/-- The lines of a body that starts at position `k`. -/
def Body.lines (locals : Nat → Reference) (address : Nat → Int) (k : Nat) (indent : Int) :
    Body → List Line
  | done => []
  | act s next =>
    .simple indent (s.stmt locals) :: next.lines locals address (k + s.ops.length) indent
  | branch c body next =>
    let first := k + c.ops.length + 1
    .opening indent (c.expr locals) :: (body.lines locals address first (indent + 1)
      ++ .closing indent :: next.lines locals address (first + body.size) indent)
  | choice c yes no next =>
    let first := k + c.ops.length + 1
    let second := first + yes.size + 1
    .opening indent (c.expr locals) :: (yes.lines locals address first (indent + 1)
      ++ .otherwise indent :: (no.lines locals address second (indent + 1)
        ++ .closing indent :: next.lines locals address (second + no.size) indent))
  | loop c body next =>
    let first := k + c.ops.length + 1
    .label (max (indent - 1) 0) (address k) :: .opening indent (c.expr locals) ::
      (body.lines locals address first (indent + 1)
        ++ .goto (indent + 1) (address k) :: .closing indent ::
          next.lines locals address (first + body.size + 1) indent)

/-- The lines of a program. -/
def Source.lines (locals : Nat → Reference) (address : Nat → Int) (s : Source) : List Line :=
  s.body.lines locals address s.first 1
    ++ [.simple 1 (.ret (Term.exprAll locals s.result.toList))]

end ScriptLift.Structured
