import ScriptLift.Lift.Step
import ScriptLift.Routine.Discovery

/-!
# Lifting routines

A routine is lifted by finding its blocks and carrying each of them out once, first come first
served from the entry.  A block starts with the operand stack that the first block carried out
before it left behind; a later way in with a stack of another depth is reported.

A program is lifted routine by routine.  The types of shared variables pass from one routine to
the next.
-/

namespace ScriptLift

/-- A routine in its program, with the events reported so far. -/
structure Stage where
  program : Program
  routine : Routine
  events : List Event
  deriving Repr

namespace Stage

/-- Carry out a block, which is put back into the graph whatever happens.  The value is the stack
it leaves behind. -/
def runBlock (s : Stage) (b : Block) : Except Fault OperandStack × Stage :=
  let (value, f) := Lift.runBlock.exec ⟨s.program, s.routine, b, b.entryStack, s.events⟩
  (value.map fun _ => f.stack,
    ⟨f.program, { f.routine with graph := f.routine.graph.update b.start fun _ => f.block },
      f.events⟩)

/-- Hand a stack on to a block: as its entry stack, or to be compared with the one it has. -/
def seed (s : Stage) (source : Int) (stack : OperandStack) (b : Block) : Stage :=
  if b.seeded then
    if b.entryStack.length = stack.length then s
    else
      { s with
        events := s.events ++ [.joinMismatch b.start stack.length source b.entryStack.length] }
  else
    { s with
      routine := { s.routine with
        graph := s.routine.graph.update b.start fun b =>
          { b with entryStack := stack, seeded := true } } }

/-- Hand a stack on to the blocks at several addresses, in order. -/
def seedAll (source : Int) (stack : OperandStack) :
    List Int → Stage → Except Fault Unit × Stage
  | [], s => (.ok (), s)
  | a :: rest, s =>
    match s.routine.graph.block? a with
    | some b => seedAll source stack rest (s.seed source stack b)
    | none => (.error (.noBlock a), s)

/-- Carry out the block at an address and hand its stack on.  The value is the addresses it was
handed to. -/
def visit (s : Stage) (a : Int) : Except Fault (List Int) × Stage :=
  match s.routine.graph.block? a with
  | none => (.error (.noBlock a), s)
  | some b =>
    match s.runBlock b with
    | (.error f, s) => (.error f, s)
    | (.ok stack, s) =>
      match seedAll a stack b.successors s with
      | (.error f, s) => (.error f, s)
      | (.ok _, s) => (.ok b.successors, s)

/-- Visit the blocks in `queue` and what they lead to; `keys` are the starts of all blocks.  A
walk that is broken off leaves a trace of where it has been. -/
def walk (keys : List Int) (s : Stage) (visited : List Int) :
    List Int → Except Fault Unit × Stage
  | [] => (.ok (), { s with routine := { s.routine with visited := [] } })
  | a :: queue =>
    if a ∈ visited then walk keys s visited queue
    else if a ∈ keys then
      match s.visit a with
      | (.error f, s) =>
        (.error f, { s with routine := { s.routine with visited := visited ++ [a] } })
      | (.ok found, s) =>
        walk keys s (visited ++ [a]) (queue ++ found.filter fun b => b ∉ visited ++ [a])
    else (.error (.noBlock a), { s with routine := { s.routine with visited := visited ++ [a] } })
termination_by queue => (unvisited keys visited, queue.length)
decreasing_by
  · exact Prod.Lex.right _ (by simp)
  · exact Prod.Lex.left _ _ (unvisited_append_lt (by assumption) (by assumption))

/-- Carry out all blocks that the entry leads to.  Without an entry block there is nothing to
do. -/
def interpret (s : Stage) : Except Fault Unit × Stage :=
  match s.routine.graph.block? s.routine.address with
  | none => (.ok (), s)
  | some b =>
    let graph := s.routine.graph.update b.start fun b =>
      { b with entryStack := [], seeded := true }
    walk graph.starts { s with routine := { s.routine with graph } } [] [b.start]

end Stage

namespace Program

/-- Lift one routine. -/
def lift (p : Program) (r : Routine) : Outcome (Program × Routine) Unit :=
  match r.discover with
  | ⟨.error f, r, events⟩ => ⟨.error f, (p, r), events⟩
  | ⟨.ok _, r, events⟩ =>
    let (value, s) := Stage.interpret ⟨p, r, events⟩
    ⟨value, (s.program, s.routine), s.events⟩

/-- Lift several routines, one after the other. -/
def liftAll (p : Program) : List Routine → Outcome Program (List Routine)
  | [] => ⟨.ok [], p, []⟩
  | r :: rs =>
    match p.lift r with
    | ⟨.error f, (p, _), events⟩ => ⟨.error f, p, events⟩
    | ⟨.ok _, (p, r), events⟩ =>
      let more := liftAll p rs
      ⟨more.value.map (r :: ·), more.state, events ++ more.events⟩

/-- Lift all routines of the program. -/
def decompile (p : Program) : Outcome Program (List Routine) :=
  (p.register p.routines).liftAll p.routines

end Program

end ScriptLift
