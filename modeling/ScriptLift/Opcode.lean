/-!
# Operations

The operations that lifting gives a meaning to, each with its mnemonic.  The kind of an
instruction is one of these operations or a mnemonic that lifting does not know
(`Kind.ofName`, `Kind.name`).
-/

namespace ScriptLift

/-- Where a variable is stored: in the routine, in the script, or in the game. -/
inductive Storage where
  | local
  | static
  | global
  deriving DecidableEq, Repr

/-- Arithmetic on whole numbers. -/
inductive IntOp where
  | add
  | sub
  | mul
  | div
  | mod
  | and
  | or
  | xor
  deriving DecidableEq, Repr

/-- Arithmetic on floating-point numbers. -/
inductive FloatOp where
  | add
  | sub
  | mul
  | div
  | mod
  deriving DecidableEq, Repr

/-- The comparisons, one set for integers and for floats. -/
inductive Relation where
  | eq
  | ne
  | gt
  | ge
  | lt
  | le
  deriving DecidableEq, Repr

/-- Operations on one operand. -/
inductive UnaryOp where
  | intNot
  | intNeg
  | floatNeg
  | toFloat
  | toInt
  deriving DecidableEq, Repr

/-- The operations of the machine. -/
inductive Opcode where
  | nop
  | push
  | dup
  | drop
  | load (s : Storage)
  | store (s : Storage)
  | int (o : IntOp)
  | float (o : FloatOp)
  | intCompare (r : Relation)
  | floatCompare (r : Relation)
  | unary (o : UnaryOp)
  | native
  | call
  | enter
  | leave
  | jump
  | jumpIfZero
  | compareJump (r : Relation)
  deriving DecidableEq, Repr

/-! ### Spellings -/

namespace Storage

/-- The middle of the mnemonics of loads and stores. -/
def mnemonic : Storage → String
  | .local => "LOCAL"
  | .static => "STATIC"
  | .global => "GLOBAL"

end Storage

namespace IntOp

/-- The sign of an integer operator in expressions. -/
def symbol : IntOp → String
  | add => "+"
  | sub => "-"
  | mul => "*"
  | div => "/"
  | mod => "%"
  | and => "&"
  | or => "|"
  | xor => "^"

/-- The mnemonic of an integer operation. -/
def mnemonic : IntOp → String
  | add => "IADD"
  | sub => "ISUB"
  | mul => "IMUL"
  | div => "IDIV"
  | mod => "IMOD"
  | and => "IAND"
  | or => "IOR"
  | xor => "IXOR"

end IntOp

namespace FloatOp

/-- The sign of a float operator in expressions. -/
def symbol : FloatOp → String
  | add => "+"
  | sub => "-"
  | mul => "*"
  | div => "/"
  | mod => "%"

/-- The mnemonic of a float operation. -/
def mnemonic : FloatOp → String
  | add => "FADD"
  | sub => "FSUB"
  | mul => "FMUL"
  | div => "FDIV"
  | mod => "FMOD"

end FloatOp

namespace Relation

/-- The sign of a comparison in expressions. -/
def symbol : Relation → String
  | eq => "=="
  | ne => "!="
  | gt => ">"
  | ge => ">="
  | lt => "<"
  | le => "<="

/-- The mnemonic without the letter for the operand type. -/
def mnemonic : Relation → String
  | eq => "EQ"
  | ne => "NE"
  | gt => "GT"
  | ge => "GE"
  | lt => "LT"
  | le => "LE"

end Relation

namespace UnaryOp

/-- The sign of a unary operator; a conversion is written as a cast. -/
def symbol : UnaryOp → String
  | intNot => "!"
  | intNeg => "-"
  | floatNeg => "-"
  | toFloat => "(float)"
  | toInt => "(int)"

/-- The mnemonic of a unary operation. -/
def mnemonic : UnaryOp → String
  | intNot => "INOT"
  | intNeg => "INEG"
  | floatNeg => "FNEG"
  | toFloat => "I2F"
  | toInt => "F2I"

end UnaryOp

namespace Opcode

/-- The mnemonic of an operation. -/
def mnemonic : Opcode → String
  | nop => "NOP"
  | push => "PUSH"
  | dup => "DUP"
  | drop => "DROP"
  | load s => s.mnemonic ++ "_LOAD"
  | store s => s.mnemonic ++ "_STORE"
  | int o => o.mnemonic
  | float o => o.mnemonic
  | intCompare r => "I" ++ r.mnemonic
  | floatCompare r => "F" ++ r.mnemonic
  | unary o => o.mnemonic
  | native => "NATIVE"
  | call => "CALL"
  | enter => "ENTER"
  | leave => "LEAVE"
  | jump => "J"
  | jumpIfZero => "JZ"
  | compareJump r => "I" ++ r.mnemonic ++ "_JZ"

/-- Every operation, once. -/
def all : List Opcode :=
  let relations : List Relation := [.eq, .ne, .gt, .ge, .lt, .le]
  let storages : List Storage := [.local, .static, .global]
  [nop, push, dup, drop, native, call, enter, leave, jump, jumpIfZero]
    ++ storages.map load ++ storages.map store
    ++ [.add, .sub, .mul, .div, .mod, .and, .or, .xor].map int
    ++ [.add, .sub, .mul, .div, .mod].map float
    ++ relations.map intCompare ++ relations.map floatCompare
    ++ [.intNot, .intNeg, .floatNeg, .toFloat, .toInt].map unary
    ++ relations.map compareJump

theorem mem_all (o : Opcode) : o ∈ all := by
  cases o with
  | load s | store s => cases s <;> decide
  | int o => cases o <;> decide
  | float o => cases o <;> decide
  | unary o => cases o <;> decide
  | intCompare r | floatCompare r | compareJump r => cases r <;> decide
  | _ => decide

/-- The operation with a given mnemonic. -/
def ofMnemonic? (s : String) : Option Opcode :=
  all.find? fun o => o.mnemonic = s

/-- A jump that is taken or not by the value on the stack. -/
def isConditional : Opcode → Bool
  | jumpIfZero | compareJump _ => true
  | _ => false

/-- The operations after which the next instruction need not follow. -/
def isTransfer : Opcode → Bool
  | jump | leave => true
  | o => o.isConditional

end Opcode

/-- What an instruction does: an operation with a meaning, or a mnemonic without one. -/
inductive Kind where
  | op (o : Opcode)
  | other (name : String)
  deriving DecidableEq, Repr

namespace Kind

/-- The operation of a name, or the name itself if no operation has it. -/
def ofName (s : String) : Kind :=
  match Opcode.ofMnemonic? s with
  | some o => op o
  | none => other s

/-- The name an instruction is listed with. -/
def name : Kind → String
  | op o => o.mnemonic
  | other s => s

/-- As for operations; an unknown instruction tests nothing. -/
def isConditional : Kind → Bool
  | op o => o.isConditional
  | other _ => false

/-- As for operations; an unknown instruction is followed by the next. -/
def isTransfer : Kind → Bool
  | op o => o.isTransfer
  | other _ => false

theorem name_ofName (s : String) : (ofName s).name = s := by
  unfold ofName
  split
  next o h => simpa [name] using List.find?_some h
  next => rfl

end Kind

end ScriptLift
