import ScriptLift.Routine.Returns
import ScriptLift.Walk

/-!
# Layout

The statements of a routine are laid out as lines by following the blocks from the entry.  A block
is placed where it is first met; a later mention of it becomes a `goto`, and so does a mention of
an address without a block.  The two parts of a branch are placed inside braces and end at the
join, where the block around them goes on.

The work still to be done is a list of tasks, and the layout is the list of steps that do it: a line
written or a block placed.  Placing a block uses it up, and every other task is replaced by smaller
ones, so the layout ends (`Layout.lay`).

A body is laid out twice: the first time tells which addresses are jumped to, and the second time
puts labels on those (`Routine.lines`).

There is no limit here on how deep regions may be inside each other, nor on the digits of an integer
that is written.  What a limit on the calls open at once does to a text is told in terms of this
layout (`Routine.text?`); the one on digits is kept for reading only (`Number.digitLimit`).
-/

namespace ScriptLift

/-- A line of the body of a routine; a negative indentation is none. -/
inductive Line where
  | simple (indent : Int) (s : Stmt)
  | opening (indent : Int) (condition : Expr)
  | otherwise (indent : Int)
  | closing (indent : Int)
  | label (indent : Int) (address : Int)
  | goto (indent : Int) (address : Int)
  deriving Repr, Inhabited

namespace Line

/-- Four blanks for each step. -/
def pad (indent : Int) : String :=
  .ofList (List.replicate (4 * indent.toNat) ' ')

/-- The text of a line; a declaration is written with the type known by then. -/
def text (known : Place → DataType) : Line → String
  | simple indent s => pad indent ++ s.text known ++ (if s.isTerminated then ";" else "")
  | opening indent condition => pad indent ++ "if (" ++ condition.text ++ ") \x7b"
  | otherwise indent => pad indent ++ "\x7d else \x7b"
  | closing indent => pad indent ++ "\x7d"
  | label indent address => pad indent ++ labelName address ++ ":"
  | goto indent address => pad indent ++ "goto " ++ labelName address ++ ";"

/-- Every literal in the line has a text. -/
def hasText : Line → Bool
  | simple _ s => s.hasText
  | opening _ condition => condition.hasText
  | _ => true

/-- The address that a line jumps to. -/
def target? : Line → Option Int
  | goto _ address => some address
  | _ => none

end Line

theorem Graph.mem_starts_of_block? {g : Graph} {a : Int} {b : Block} (h : g.block? a = some b) :
    a ∈ g.starts := by
  have hb := List.find?_some h
  simp only [decide_eq_true_eq] at hb
  exact List.mem_map.mpr ⟨b, List.mem_of_find?_eq_some h, hb⟩

namespace Layout

/-- What is still to be laid out.  Statements and regions end where they meet the `stop`. -/
inductive Task where
  | line (l : Line)
  | statements (ss : List Stmt) (indent : Int) (stop : Option Int)
  /-- The blocks from an address on, as far as each goes on to the next. -/
  | region (address : Option Int) (indent : Int) (stop : Option Int)
  deriving Repr

/-- A task weighs more than what replaces it. -/
def Task.weight : Task → Nat
  | line _ => 1
  | statements ss _ _ => 8 * ss.length + 1
  | region .. => 2

/-- The weight of all tasks, which each step of a layout lowers. -/
def weight : List Task → Nat
  | [] => 0
  | t :: ts => t.weight + weight ts

/-- The tasks of a branch behind its first line. -/
def branchTasks (thenBlock : Int) (join elseBlock : Option Int) (indent : Int) : List Task :=
  .region (some thenBlock) (indent + 1) join
    :: (match elseBlock with
      | some a => [.line (.otherwise indent), .region (some a) (indent + 1) join]
      | none => [])
    ++ [.line (.closing indent)]

theorem weight_branchTasks_le (thenBlock : Int) (join elseBlock : Option Int) (indent : Int) :
    weight (branchTasks thenBlock join elseBlock indent) ≤ 6 := by
  cases elseBlock <;> simp [branchTasks, weight, Task.weight]

theorem weight_append (ts us : List Task) : weight (ts ++ us) = weight ts + weight us := by
  induction ts with
  | nil => simp [weight]
  | cons t ts ih => simp [weight, ih, Nat.add_assoc]

theorem weight_cons (t : Task) (ts : List Task) : weight (t :: ts) = t.weight + weight ts :=
  rfl

/-- What is done to lay out tasks: a line is written, or the block at an address placed. -/
inductive Step where
  | line (l : Line)
  | place (address : Int)
  deriving Repr

namespace Step

/-- The line a step writes. -/
def line? : Step → Option Line
  | line l => some l
  | place _ => none

/-- The block a step places. -/
def placed? : Step → Option Int
  | line _ => none
  | place a => some a

/-- The step writes no line with a literal that has no text. -/
def hasText : Step → Bool
  | line l => l.hasText
  | place _ => true

end Step

/-- The label line of a block, if it needs one. -/
def labelLine (labels : List Int) (a : Int) (indent : Int) : List Step :=
  if a ∈ labels then [.line (.label (max (indent - 1) 0) a)] else []

/-- Lay out the tasks in order; the blocks in `visited` have been placed before. -/
def lay (g : Graph) (labels visited : List Int) : List Task → List Step
  | [] => []
  | .line l :: tasks => .line l :: lay g labels visited tasks
  | .statements [] _ _ :: tasks => lay g labels visited tasks
  | .statements (s :: ss) indent stop :: tasks =>
    match s with
    | .branch condition thenBlock join elseBlock =>
      .line (.opening indent condition) :: lay g labels visited
        (branchTasks thenBlock join elseBlock indent ++ .statements ss indent stop :: tasks)
    | .goto a =>
      if stop = some a then lay g labels visited (.statements ss indent stop :: tasks)
      else if a ∈ visited then
        .line (.goto indent a) :: lay g labels visited (.statements ss indent stop :: tasks)
      else
        lay g labels visited (.region (some a) indent stop :: .statements ss indent stop :: tasks)
    | s => .line (.simple indent s) :: lay g labels visited (.statements ss indent stop :: tasks)
  | .region none _ _ :: tasks => lay g labels visited tasks
  | .region (some a) indent stop :: tasks =>
    if stop = some a then lay g labels visited tasks
    else
      match _h : g.block? a with
      | none => .line (.goto indent a) :: lay g labels visited tasks
      | some b =>
        if a ∈ visited then .line (.goto indent a) :: lay g labels visited tasks
        else
          .place a :: labelLine labels a indent ++ lay g labels (visited ++ [a])
            (.statements b.statements indent stop :: .region b.continuation indent stop :: tasks)
termination_by tasks => (unvisited g.starts visited, weight tasks)
decreasing_by
  all_goals first
    | exact Prod.Lex.left _ _
        (unvisited_append_lt (Graph.mem_starts_of_block? (by assumption)) (by assumption))
    | (apply Prod.Lex.right
       have := weight_branchTasks_le
       simp only [weight_append, weight_cons, Task.weight, List.length_cons]
       grind)

/-- The lines that are written. -/
def lines (steps : List Step) : List Line :=
  steps.filterMap Step.line?

/-- The blocks that are placed up to the first line without a text, which ends the writing. -/
def placed (steps : List Step) : List Int :=
  (steps.takeWhile Step.hasText).filterMap Step.placed?

end Layout

namespace Routine

/-- Lay out tasks with the labels of the last layout.  The result is the lines, and the addresses of
all blocks placed by then; the blocks in `visited` count as placed before. -/
def layTasks (r : Routine) (tasks : List Layout.Task) : List Line × List Int :=
  let steps := Layout.lay r.graph r.labels r.visited tasks
  (Layout.lines steps, r.visited ++ Layout.placed steps)

/-- Lay out the blocks from an address on. -/
def layRegion (r : Routine) (address : Int) (indent : Int) (stop : Option Int) :
    List Line × List Int :=
  r.layTasks [.region (some address) indent stop]

/-- Lay out statements. -/
def layStatements (r : Routine) (ss : List Stmt) (indent : Int) (stop : Option Int) :
    List Line × List Int :=
  r.layTasks [.statements ss indent stop]

/-- The body with the given labels. -/
def body (r : Routine) (labels : List Int) : List Line :=
  if (r.graph.block? r.address).isSome then
    Layout.lines (Layout.lay r.graph labels [] [.region (some r.address) 1 none])
  else []

/-- The addresses that need a label: those that the body jumps to. -/
def neededLabels (r : Routine) : List Int :=
  (r.body []).filterMap Line.target?

/-- The lines of the body. -/
def lines (r : Routine) : List Line :=
  r.body r.neededLabels

/-- The routine after its text was made: it remembers its labels. -/
def laidOut (r : Routine) : Routine :=
  { r with labels := r.neededLabels, visited := [] }

/-- The line before the body. -/
def header (r : Routine) : String :=
  r.returnType.text ++ " " ++ r.name ++ "(" ++ ", ".intercalate (r.inputs.map (·.text)) ++ ") \x7b"

/-- The declarations of the locals, and an empty line behind them if there are any. -/
def declarationLines (r : Routine) : List String :=
  match r.declaredLocals with
  | [] => []
  | vs => vs.map (fun v => Line.pad 1 ++ v.text ++ ";") ++ [""]

/-- The text of the routine; `shared` is what is known of the places outside it. -/
def text (r : Routine) (shared : Typing) : String :=
  "\n".intercalate
    (r.header :: r.declarationLines ++ r.lines.map (·.text (r.typeOf shared)) ++ ["\x7d"])

end Routine

/-- The lines' texts, provided that every literal in them has one. -/
def lineTexts (known : Place → DataType) (ls : List Line) : Except Fault (List String) :=
  if ls.all (·.hasText) then .ok (ls.map (·.text known)) else .error .noText

/-- The routines of one script. -/
structure Listing where
  name : String
  routines : List Routine

namespace Listing

/-- The first routine at an address. -/
def routineAt? (l : Listing) (address : Int) : Option Routine :=
  l.routines.find? fun r => r.address = address

/-- The text of the script: its name, then its routines. -/
def text (l : Listing) (shared : Typing) : String :=
  "\n\n".intercalate (("// " ++ l.name) :: l.routines.map (·.text shared))

end Listing

end ScriptLift
