import ScriptLift.Stmt
import ScriptLift.Tape

/-!
# Basic blocks

A block is a run of instructions entered at its first and left at its last, with the statements
lifted from them.  Blocks know their neighbours by address, on both sides of an edge: the blocks
gone to in the order the edges were made, the same as a set, and the set and the number of ways in.
-/

namespace ScriptLift

/-- A basic block: the instructions from its start on, what was lifted from them, and its edges. -/
structure Block where
  start : Int
  tape : Tape := {}
  statements : List Stmt := []
  /-- The starts of the blocks with an edge to this one. -/
  ins : List Int := []
  /-- The starts of the blocks this one has an edge to. -/
  outs : List Int := []
  /-- The targets of the edges out, in the order they were made. -/
  successors : List Int := []
  /-- The number of edges in. -/
  inEdges : Nat := 0
  /-- The address behind the last instruction, where it can be reached from it. -/
  fallthrough : Option Int := none
  /-- Where the layout goes on behind the statements of the block. -/
  continuation : Option Int := none
  entryStack : OperandStack := []
  /-- The entry stack has been settled. -/
  seeded : Bool := false
  deriving Repr, Inhabited

/-- A set of addresses with one more. -/
def insertNew (a : Int) (xs : List Int) : List Int :=
  if a ∈ xs then xs else xs ++ [a]

/-- The addresses in increasing order. -/
def sorted (xs : List Int) : List Int :=
  xs.mergeSort fun a b => decide (a ≤ b)

namespace Block

/-- One more statement, behind those there are. -/
def emit (b : Block) (s : Stmt) : Block :=
  { b with statements := b.statements ++ [s] }

/-- The block with an edge out to `target`. -/
def addOut (b : Block) (target : Int) : Block :=
  { b with outs := insertNew target b.outs, successors := b.successors ++ [target] }

/-- The block with an edge in from `source`. -/
def addIn (b : Block) (source : Int) : Block :=
  { b with ins := insertNew source b.ins, inEdges := b.inEdges + 1 }

/-- Every literal in the statements has a text. -/
def hasText (b : Block) : Bool :=
  b.statements.all (·.hasText)

/-- A one-line description. -/
def summary (b : Block) : String :=
  "BasicBlock(start=0x" ++ Text.hex 0 b.start ++ ", instructions=" ++ toString b.tape.length
    ++ ", outs=[" ++ ", ".intercalate ((sorted b.outs).map toString) ++ "])"

end Block

/-- The blocks of a routine in the order they were made, at most one for each start. -/
structure Graph where
  blocks : List Block := []
  deriving Repr, Inhabited

namespace Graph

/-- The block that starts at an address. -/
def block? (g : Graph) (a : Int) : Option Block :=
  g.blocks.find? fun b => b.start = a

/-- The starts of the blocks. -/
def starts (g : Graph) : List Int :=
  g.blocks.map (·.start)

/-- The graph with a block at `a`, made now if there is none. -/
def ensure (g : Graph) (a : Int) : Graph :=
  if a ∈ g.starts then g else ⟨g.blocks ++ [{ start := a }]⟩

/-- The graph with the block at `a` changed by `f`. -/
def update (g : Graph) (a : Int) (f : Block → Block) : Graph :=
  ⟨g.blocks.map fun b => if b.start = a then f b else b⟩

/-- An edge between two blocks, recorded on both sides. -/
def link (g : Graph) (source target : Int) : Graph :=
  (g.update source (·.addOut target)).update target (·.addIn source)

/-- An edge between two addresses, whose blocks are made where they are missing. -/
def connect (g : Graph) (source target : Int) : Graph :=
  ((g.ensure source).ensure target).link source target

end Graph

end ScriptLift
