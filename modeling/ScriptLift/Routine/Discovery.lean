import ScriptLift.Outcome
import ScriptLift.Routine.Basic
import ScriptLift.Walk

/-!
# Discovery of blocks

The code of a routine is cut into blocks and the blocks are linked.  A *leader* is an address that
a block has to start at: the entry, the target of any branch, and whatever follows a transfer of
control.  A block runs from its start to the first instruction that transfers control or that a
leader follows.

Discovery goes from block to block, first come first served, starting at the entry; it looks only
at blocks that can be reached.  An edge is made where the address gone to is in the code, and an
address outside the code is reported.  Blocks of an earlier discovery are dropped.
-/

namespace ScriptLift

/-- The leaders that the instructions themselves call for. -/
def leadersWithin : List Instruction → List Int
  | [] => []
  | i :: rest =>
    i.branchTarget?.toList
      ++ (if i.isTransfer then (rest.head?.map (·.address)).toList else [])
      ++ leadersWithin rest

/-- Every address that must start a block. -/
def leaders (entry : Int) (code : List Instruction) : List Int :=
  entry :: leadersWithin code

/-- The instructions of the block that starts here, and the code behind it. -/
def cutBlock (leaders : List Int) : List Instruction → List Instruction × List Instruction
  | [] => ([], [])
  | i :: rest =>
    if i.isTransfer || rest.head?.any (·.address ∈ leaders) then ([i], rest)
    else
      let (run, behind) := cutBlock leaders rest
      (i :: run, behind)

/-- The addresses that control can go to behind a block, given its last instruction and the
address of the next. -/
def exits (last : Instruction) (next : Option Int) : List Int :=
  if last.kind = .op .leave then []
  else if last.kind = .op .jump then last.branchTarget?.toList
  else if last.isConditional then next.toList ++ last.branchTarget?.toList
  else next.toList

/-- The block with its instructions, and with where it goes on when it does not jump. -/
def Block.fill (b : Block) (run : List Instruction) (last : Instruction) (next : Option Int) :
    Block :=
  { b with
    tape := .ofList run
    fallthrough := if last.kind = .op .leave || last.kind = .op .jump then none else next
    continuation := if last.isTransfer then none else next }

/-- What is fixed during the discovery in one routine. -/
structure Survey where
  name : String
  code : List Instruction
  leaders : List Int

namespace Survey

/-- The addresses of the code. -/
def addresses (s : Survey) : List Int :=
  s.code.map (·.address)

/-- There is an instruction at an address. -/
def has (s : Survey) (a : Int) : Bool :=
  s.code.any fun i => i.address = a

@[simp]
theorem has_iff {s : Survey} {a : Int} : s.has a = true ↔ a ∈ s.addresses := by
  simp [has, addresses]

/-- The block at `a`: its instructions, the last of them, and the address behind it. -/
def blockAt? (s : Survey) (a : Int) : Option (List Instruction × Instruction × Option Int) :=
  let (run, behind) := cutBlock s.leaders (s.code.dropWhile fun i => i.address ≠ a)
  run.getLast?.map fun last => (run, last, behind.head?.map (·.address))

/-- Edges from `source` to each of `targets`, in order. -/
def linkAll (source : Int) (targets : List Int) (g : Graph) : Graph :=
  targets.foldl (fun g target => (g.ensure target).link source target) g

/-- The graph with the block at `a` in it, the addresses in the code that it goes to, and the
reports on the others. -/
def explore (s : Survey) (a : Int) (g : Graph) : Graph × List Int × List Event :=
  match s.blockAt? a with
  | none => (g, [], [])
  | some (run, last, next) =>
    let found := (exits last next).filter fun target => s.has target
    let lost := (exits last next).filter fun target => !s.has target
    (linkAll a found ((g.ensure a).update a fun b => b.fill run last next), found,
      lost.map fun target => .leavesRoutine s.name a target)

/-- Visit the addresses in `queue` and what they lead to.  The result is the graph, the addresses
in the order they were visited, and the reports. -/
def walk (s : Survey) (g : Graph) (visited : List Int) (events : List Event) :
    List Int → Graph × List Int × List Event
  | [] => (g, visited, events)
  | a :: queue =>
    if a ∈ visited then s.walk g visited events queue
    else if s.has a then
      let (g, found, reports) := s.explore a g
      s.walk g (visited ++ [a]) (events ++ reports)
        (queue ++ found.filter fun target => target ∉ visited ++ [a])
    else s.walk g visited events queue
termination_by queue => (unvisited s.addresses visited, queue.length)
decreasing_by
  · exact Prod.Lex.right _ (by simp)
  · exact Prod.Lex.left _ _ (unvisited_append_lt (has_iff.mp (by assumption)) (by assumption))
  · exact Prod.Lex.right _ (by simp)

end Survey

namespace Routine

/-- The survey of a routine. -/
def survey (r : Routine) : Survey :=
  ⟨r.name, r.code, leaders r.address r.code⟩

/-- Find the blocks of a routine; the value is their starts in the order of discovery.  An entry
outside the code leaves a block without instructions. -/
def discover (r : Routine) : Outcome Routine (List Int) :=
  if r.code.isEmpty then ⟨.ok [], r, []⟩
  else if r.hasAddress r.address then
    let (graph, order, events) := r.survey.walk {} [] [] [r.address]
    ⟨.ok order, { r with graph, visited := [] }, events ++ [.discovered r.name order.length]⟩
  else
    ⟨.error .noEntry,
      { r with graph := Graph.ensure {} r.address, visited := [r.address] }, []⟩

end Routine

end ScriptLift
