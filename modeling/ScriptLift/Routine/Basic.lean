import ScriptLift.Block
import ScriptLift.Variable

/-!
# Routines

A routine is a run of instructions with an entry address, the variables of its own, what is known
of its result, and the graph of its blocks.  Slots number the variables of a routine: the inputs
first, the locals behind them.  A slot behind the last local is made up on first use as
`local_<slot>`, and so is every slot that this skips; a skipped one stays undeclared until it is
used itself (`Routine.slot`).
-/

namespace ScriptLift

/-- A local variable of a routine. -/
structure Local extends Variable where
  /-- Something referred to the variable, or it was there from the start. -/
  declared : Bool
  deriving DecidableEq, Repr

/-- What the return sites seen so far say about the result. -/
structure Result where
  /-- The number of values returned. -/
  count : Int
  type : DataType
  deriving DecidableEq, Repr

/-- A routine: its code, what is known of its variables and its result, and its blocks. -/
structure Routine where
  name : String
  /-- The entry. -/
  address : Int
  code : List Instruction
  inputs : List Variable := []
  locals : List Local := []
  result : Option Result := none
  graph : Graph := {}
  /-- The blocks a walk that was broken off has been to, in order. -/
  visited : List Int := []
  /-- The addresses that the last layout put labels on. -/
  labels : List Int := []
  deriving Repr, Inhabited

namespace Routine

/-- The routine made of `code`, entered at its first instruction. -/
def ofCode (name : String) (code : List Instruction) (inputs : List Variable) : Routine :=
  { name, address := (code.head?.map (·.address)).getD 0, code, inputs }

/-- The index of the first instruction at an address. -/
def indexOf? (r : Routine) (address : Int) : Option Nat :=
  r.code.findIdx? fun i => i.address = address

/-- Some instruction of the routine is at the address. -/
def hasAddress (r : Routine) (address : Int) : Bool :=
  r.code.any fun i => i.address = address

/-- A one-line description. -/
def summary (r : Routine) : String :=
  "Function(" ++ Text.quoted r.name ++ ", address=0x" ++ Text.hex 0 r.address ++ ", blocks="
    ++ toString r.graph.blocks.length ++ ")"

/-! ### Variables -/

/-- The local made up for the slot with a given position among the locals. -/
def placeholder (r : Routine) (position : Nat) : Local :=
  { Variable.fresh ("local_" ++ toString (r.inputs.length + position)) with declared := false }

/-- The locals, with at least `count` of them. -/
def grownLocals (r : Routine) (count : Nat) : List Local :=
  r.locals
    ++ (List.range' r.locals.length (count - r.locals.length)).map r.placeholder

/-- The routine with the local at `position` made where needed, and declared. -/
def declareLocal (r : Routine) (position : Nat) : Routine :=
  { r with
    locals := (r.grownLocals (position + 1)).modify position fun l => { l with declared := true } }

/-- The variable that a slot means, and the routine with that variable in it.  A negative slot
counts from the end of the inputs. -/
def slot (r : Routine) (n : Int) : Except Fault (Reference × Routine) :=
  if n < r.inputs.length then
    match resolve? r.inputs.length n with
    | some position => .ok (⟨.input position, (r.inputs[position]?.getD default).name⟩, r)
    | none => .error .badPosition
  else
    let position := (n - r.inputs.length).toNat
    let r := r.declareLocal position
    .ok (⟨.auto position, ((r.locals[position]?.map (·.name)).getD "")⟩, r)

/-- The variable of a given identifier: an input before a local, and the first of several. -/
def named? (r : Routine) (name : String) : Option Reference :=
  match r.inputs.findIdx? fun v => v.name = name with
  | some position => some ⟨.input position, name⟩
  | none =>
    (r.locals.findIdx? fun v => v.name = name).map fun position => ⟨.auto position, name⟩

/-- The locals that something referred to. -/
def declaredLocals (r : Routine) : List Variable :=
  (r.locals.filter (·.declared)).map (·.toVariable)

/-- What is known of a place, with `shared` for the places outside the routine. -/
def typeOf (r : Routine) (shared : Typing) : Place → DataType
  | .input position => ((r.inputs[position]?).map (·.type)).getD .unknown
  | .auto position => ((r.locals[position]?).map (·.type)).getD .unknown
  | place => shared.get place

/-- The routine after learning `new` about one of its own places. -/
def learn (r : Routine) (place : Place) (new : DataType) : Routine :=
  match place with
  | .input position => { r with inputs := r.inputs.modify position (·.learn new) }
  | .auto position =>
    { r with
      locals := r.locals.modify position fun l => { l with type := l.type.refine new } }
  | _ => r

end Routine

/-- The typing of the shared places after learning `new` about one of them. -/
def Typing.learnShared (t : Typing) (place : Place) (new : DataType) : Typing :=
  match place with
  | .input _ | .auto _ => t
  | _ => t.learn place new

end ScriptLift
