import ScriptLift.Routine.Basic

/-!
# Drawings

The graph of a routine in the DOT language: a node for each block in the order of addresses, with
its instructions as left-justified lines, followed by the edges out of it.  The entry has a double
border, a block with several ways in is coloured, and an edge that does not go forward is dashed.
-/

namespace ScriptLift.Dot

/-- One character inside a quoted string. -/
def escapeChar (c : Char) : List Char :=
  if c = '\\' || c = '"' then ['\\', c] else [c]

/-- A text inside a quoted string. -/
def escape (s : String) : String :=
  .ofList (s.toList.flatMap escapeChar)

/-- The name of a block's node. -/
def nodeName (a : Int) : String :=
  "\"b" ++ Text.hex 0 a ++ "\""

/-- The lines inside a block's node. -/
def nodeLines (b : Block) : List String :=
  ("block_" ++ Text.hex 0 b.start) :: b.tape.instructions.map (·.text)

/-- A label of left-justified lines. -/
def label (ls : List String) : String :=
  "\\l".intercalate (ls.map escape) ++ "\\l"

/-- The attributes of a block's node. -/
def attributes (entry : Int) (b : Block) : List String :=
  ("label=\"" ++ label (nodeLines b) ++ "\"")
    :: (if b.start = entry then ["peripheries=2"]
      else if 1 < b.ins.length then ["color=\"#2a6f97\""]
      else [])

/-- The line of a block. -/
def nodeLine (entry : Int) (b : Block) : String :=
  "  " ++ nodeName b.start ++ " [" ++ ", ".intercalate (attributes entry b) ++ "];"

/-- The line of an edge, dashed if it does not go forward. -/
def edgeLine (source target : Int) : String :=
  "  " ++ nodeName source ++ " -> " ++ nodeName target
    ++ (if target ≤ source then " [style=dashed]" else "") ++ ";"

/-- The blocks in the order of their starts. -/
def ordered (g : Graph) : List Block :=
  g.blocks.mergeSort fun a b => decide (a.start ≤ b.start)

/-- The lines for a block and its edges. -/
def blockLines (entry : Int) (b : Block) : List String :=
  nodeLine entry b :: (sorted b.outs).map (edgeLine b.start)

/-- The lines in front of the nodes: the defaults for a drawing, and its title. -/
def openingLines (title : String) : List String :=
  ["digraph CFG \x7b",
   "  graph [rankdir=TB, splines=true, nodesep=0.6, fontname=Helvetica, fontsize=10];",
   "  node [shape=box, style=rounded, fontname=Courier, fontsize=9];",
   "  edge [fontname=Helvetica, fontsize=8];",
   "  label=\"" ++ escape title ++ "\";",
   "  labelloc=\"t\";"]

end ScriptLift.Dot

namespace ScriptLift

/-- The drawing of a routine's graph can be written to a file. -/
def Routine.isDrawingEncodable (r : Routine) : Bool :=
  r.graph.blocks.all fun b => b.tape.instructions.all fun i => i.operands.isEncodable

/-- The drawing of a routine's graph.  An absent or empty title gives way to the routine's name. -/
def Routine.dot (r : Routine) (title : Option String) : String :=
  "\n".intercalate
    (Dot.openingLines ((givenName? title).getD r.name)
      ++ (Dot.ordered r.graph).flatMap (Dot.blockLines r.address) ++ ["\x7d"]) ++ "\n"

end ScriptLift
