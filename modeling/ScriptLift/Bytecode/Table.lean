import ScriptLift.Instruction

/-!
# The table of opcodes

An instruction is encoded as an opcode byte and operands.  The table gives, for each opcode in
use, the operation it stands for and the format of its operands.
-/

namespace ScriptLift.Bytecode

/-- A field of an encoding, by its width and reading. -/
inductive Field where
  | u8
  | u16
  | s16
  | u24
  | u32
  | f32
  deriving DecidableEq, Repr

namespace Field

/-- The number of bytes. -/
def width : Field → Nat
  | u8 => 1
  | u16 | s16 => 2
  | u24 => 3
  | u32 | f32 => 4

end Field

/-- The format of the operands behind an opcode. -/
inductive Format where
  | none
  /-- Constants, one for each field. -/
  | push (fields : List Field)
  /-- A constant that the opcode itself stands for. -/
  | constant (value : Literal)
  | slot (field : Field)
  /-- A distance from the next instruction. -/
  | branch
  | call
  /-- The counts of a routine and its name, whose length is encoded before it. -/
  | enter
  | leave
  /-- Two counts in one byte, and an index into the natives of the script. -/
  | native
  deriving DecidableEq, Repr

/-- The opcodes in use.  The last nine push the floating-point numbers from -1 to 7. -/
def table : List (UInt8 × Opcode × Format) :=
  [(0, .nop, .none),
   (1, .int .add, .none), (2, .int .sub, .none), (3, .int .mul, .none), (4, .int .div, .none),
   (5, .int .mod, .none), (6, .unary .intNot, .none), (7, .unary .intNeg, .none),
   (8, .intCompare .eq, .none), (9, .intCompare .ne, .none), (10, .intCompare .gt, .none),
   (11, .intCompare .ge, .none), (12, .intCompare .lt, .none), (13, .intCompare .le, .none),
   (14, .float .add, .none), (15, .float .sub, .none), (16, .float .mul, .none),
   (17, .float .div, .none), (18, .float .mod, .none), (19, .unary .floatNeg, .none),
   (20, .floatCompare .eq, .none), (21, .floatCompare .ne, .none), (22, .floatCompare .gt, .none),
   (23, .floatCompare .ge, .none), (24, .floatCompare .lt, .none), (25, .floatCompare .le, .none),
   (31, .int .and, .none), (32, .int .or, .none), (33, .int .xor, .none),
   (34, .unary .toFloat, .none), (35, .unary .toInt, .none),
   (37, .push, .push [.u8]), (38, .push, .push [.u8, .u8]), (39, .push, .push [.u8, .u8, .u8]),
   (40, .push, .push [.u32]), (41, .push, .push [.f32]),
   (42, .dup, .none), (43, .drop, .none),
   (44, .native, .native), (45, .enter, .enter), (46, .leave, .leave),
   (56, .load .local, .slot .u8), (57, .store .local, .slot .u8),
   (59, .load .static, .slot .u8), (60, .store .static, .slot .u8),
   (67, .push, .push [.s16]),
   (77, .load .local, .slot .u16), (78, .store .local, .slot .u16),
   (80, .load .static, .slot .u16), (81, .store .static, .slot .u16),
   (83, .load .global, .slot .u16), (84, .store .global, .slot .u16),
   (85, .jump, .branch), (86, .jumpIfZero, .branch),
   (87, .compareJump .eq, .branch), (88, .compareJump .ne, .branch),
   (89, .compareJump .gt, .branch), (90, .compareJump .ge, .branch),
   (91, .compareJump .lt, .branch), (92, .compareJump .le, .branch),
   (93, .call, .call),
   (109, .push, .constant (.int (-1))),
   (110, .push, .constant (.int 0)), (111, .push, .constant (.int 1)),
   (112, .push, .constant (.int 2)), (113, .push, .constant (.int 3)),
   (114, .push, .constant (.int 4)), (115, .push, .constant (.int 5)),
   (116, .push, .constant (.int 6)), (117, .push, .constant (.int 7)),
   (118, .push, .constant (.float ⟨0xBFF0000000000000⟩)),
   (119, .push, .constant (.float ⟨0x0000000000000000⟩)),
   (120, .push, .constant (.float ⟨0x3FF0000000000000⟩)),
   (121, .push, .constant (.float ⟨0x4000000000000000⟩)),
   (122, .push, .constant (.float ⟨0x4008000000000000⟩)),
   (123, .push, .constant (.float ⟨0x4010000000000000⟩)),
   (124, .push, .constant (.float ⟨0x4014000000000000⟩)),
   (125, .push, .constant (.float ⟨0x4018000000000000⟩)),
   (126, .push, .constant (.float ⟨0x401C000000000000⟩))]

/-- What an opcode byte stands for. -/
def lookup (opcode : UInt8) : Option (Opcode × Format) :=
  table.lookup opcode

end ScriptLift.Bytecode
