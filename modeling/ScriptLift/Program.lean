import ScriptLift.Routine.Basic

/-!
# Programs

A program is the code of one script, the operations that lifting carries out in it, and what its
routines share: the table of routines that can be called and the types of static and global
variables.

The code is cut into routines at every `ENTER`; code before the first one is a routine too.  Each
routine is entered in the table under its address, a later one in place of an earlier one.
-/

namespace ScriptLift

/-- What a call needs to know of a routine. -/
structure Callee where
  name : String
  args : Nat
  returns : Int
  deriving DecidableEq, Repr

/-- A program to lift: its code, what is known of its routines, and of the places they share. -/
structure Program where
  name : String
  code : List Instruction
  /-- The operations carried out; any other instruction is kept as a comment. -/
  handled : List Opcode := Opcode.all
  callees : List (Int × Callee) := []
  typing : Typing := {}
  deriving Repr

namespace Program

/-- The last routine entered in the table under an address. -/
def callee? (p : Program) (address : Int) : Option Callee :=
  p.callees.lookup address

/-- What is known of a place, seen from one of the routines. -/
def typeOf (p : Program) (r : Routine) : Place → DataType :=
  r.typeOf p.typing

/-- The program and the routine after learning `new` about the type of a variable, and what is
reported. -/
def learn (p : Program) (r : Routine) (ref : Reference) (new : DataType) :
    Program × Routine × List Event :=
  ({ p with typing := p.typing.learnShared ref.place new }, r.learn ref.place new,
    learnEvents ref.name (p.typeOf r ref.place) new)

end Program

namespace Instruction

/-- The instruction heads a routine. -/
def isEnter (i : Instruction) : Bool :=
  i.kind = .op .enter

/-- The number of values that a return gives back. -/
def returns? (i : Instruction) : Option Int :=
  match i.kind, i.operands with
  | .op .leave, .ret _ returns => some returns
  | _, _ => none

end Instruction

/-- The code in pieces, cut before every `ENTER`. -/
def chunks : List Instruction → List (List Instruction)
  | [] => []
  | i :: rest =>
    match chunks rest with
    | [] => [[i]]
    | c :: cs => if c.head?.any (·.isEnter) then [i] :: c :: cs else (i :: c) :: cs

/-- The number of values that the first return in a piece of code gives back. -/
def declaredReturns (code : List Instruction) : Int :=
  (code.findSome? (·.returns?)).getD 0

/-- The inputs of a routine with `count` arguments. -/
def inputsFor (count : Int) : List Variable :=
  (List.range count.toNat).map fun i => .fresh ("arg_" ++ toString i)

/-- The routine made of the `k`-th piece of code. -/
def Routine.ofChunk (k : Nat) (code : List Instruction) : Routine :=
  let numbered := "func_" ++ toString k
  match code with
  | ⟨_, .op .enter, .enter args _ name⟩ :: _ =>
    .ofCode ((givenName? (some name)).getD numbered) code (inputsFor args)
  | _ => .ofCode numbered code []

/-- What a call of the routine needs to know. -/
def Routine.callee (r : Routine) : Callee :=
  ⟨r.name, r.inputs.length, declaredReturns r.code⟩

namespace Program

/-- The routines of the program, in the order of the code. -/
def routines (p : Program) : List Routine :=
  (chunks p.code).mapIdx Routine.ofChunk

/-- The program with the given routines entered in its table. -/
def register (p : Program) (rs : List Routine) : Program :=
  rs.foldl (fun p r => { p with callees := (r.address, r.callee) :: p.callees }) p

end Program

end ScriptLift
