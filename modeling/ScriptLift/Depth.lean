import ScriptLift.Layout

/-!
# Depth

To write an expression is to write its operands first, and to lay out a region is to lay out the
regions inside it.  Each of these is a call inside a call, and only so many calls may be open at
once: a routine that needs more than its caller allows has no text (`Routine.text?`).

The depth of a thing is the greatest number of calls that are open at once while it is written.
`Layout.layLevels` lays out tasks as `Layout.lay` does, and tells with each step how many calls are
open then.  What stands around the bodies takes a few calls that are the same for every routine, and
these are left out.
-/

namespace ScriptLift

namespace Expr

mutual

/-- The depth of an expression: a call for itself, and one more for each operand. -/
def depth : Expr → Nat
  | literal .. | var _ => 1
  | binary l _ r _ => max l.depth r.depth + 2
  | unary _ e _ => e.depth + 2
  | call _ args _ => depths args + 2

/-- The greatest depth of several. -/
def depths : List Expr → Nat
  | [] => 0
  | e :: es => max e.depth (depths es)

end

end Expr

/-- The depth of a statement.  The values of a return are written inside a call of their own. -/
def Stmt.depth : Stmt → Nat
  | assign _ value => value.depth + 1
  | call e => e.depth + 1
  | ret [] => 1
  | ret values => Expr.depths values + 2
  | declare _ => 3
  | comment _ | goto _ => 1
  | branch condition .. => condition.depth + 1

namespace Layout

/-- Several things at one level. -/
def atLevel {α : Type} (n : Nat) (xs : List α) : List (Nat × α) :=
  xs.map (n, ·)

@[simp]
theorem map_snd_atLevel {α : Type} (n : Nat) (xs : List α) : (atLevel n xs).map (·.2) = xs := by
  simp [atLevel, Function.comp_def]

/-- Lay out the tasks in order as `lay` does.  A task comes with its level, the number of calls open
when the region around it is laid out: two more are open for each of its statements, and the third
is a region inside.  A step comes with the greatest number of calls open while it is done. -/
def layLevels (g : Graph) (labels visited : List Int) : List (Nat × Task) → List (Nat × Step)
  | [] => []
  | (n, .line l) :: tasks => (n, .line l) :: layLevels g labels visited tasks
  | (_, .statements [] _ _) :: tasks => layLevels g labels visited tasks
  | (n, .statements (s :: ss) indent stop) :: tasks =>
    match s with
    | .branch condition thenBlock join elseBlock =>
      (n + 3 + condition.depth, .line (.opening indent condition)) :: layLevels g labels visited
        (atLevel (n + 3) (branchTasks thenBlock join elseBlock indent)
          ++ (n, .statements ss indent stop) :: tasks)
    | .goto a =>
      if stop = some a then layLevels g labels visited ((n, .statements ss indent stop) :: tasks)
      else if a ∈ visited then
        (n + 3, .line (.goto indent a))
          :: layLevels g labels visited ((n, .statements ss indent stop) :: tasks)
      else
        layLevels g labels visited
          ((n + 3, .region (some a) indent stop) :: (n, .statements ss indent stop) :: tasks)
    | s =>
      (n + 2 + s.depth, .line (.simple indent s))
        :: layLevels g labels visited ((n, .statements ss indent stop) :: tasks)
  | (_, .region none _ _) :: tasks => layLevels g labels visited tasks
  | (n, .region (some a) indent stop) :: tasks =>
    if stop = some a then layLevels g labels visited tasks
    else
      match _h : g.block? a with
      | none => (n + 1, .line (.goto indent a)) :: layLevels g labels visited tasks
      | some b =>
        if a ∈ visited then
          (n + 1, .line (.goto indent a)) :: layLevels g labels visited tasks
        else
          (n + (if b.statements.isEmpty then 1 else 2), .place a)
            :: atLevel (n + 1) (labelLine labels a indent)
            ++ layLevels g labels (visited ++ [a]) ((n, .statements b.statements indent stop)
              :: (n, .region b.continuation indent stop) :: tasks)
termination_by tasks => (unvisited g.starts visited, weight (tasks.map (·.2)))
decreasing_by
  all_goals first
    | exact Prod.Lex.left _ _
        (unvisited_append_lt (Graph.mem_starts_of_block? (by assumption)) (by assumption))
    | (apply Prod.Lex.right
       have := weight_branchTasks_le
       simp only [List.map_cons, List.map_append, map_snd_atLevel, weight_append, weight_cons,
         Task.weight, List.length_cons]
       grind)

/-- The greatest number of calls open at once in the steps. -/
def deepest (steps : List (Nat × Step)) : Nat :=
  steps.foldr (fun s n => max s.1 n) 0

end Layout

namespace Routine

/-- The depth of the body of a routine.  A label takes no more calls than the block it stands
before, so the body is as deep without labels. -/
def depth (r : Routine) : Nat :=
  if (r.graph.block? r.address).isSome then
    Layout.deepest (Layout.layLevels r.graph [] [] [(1, .region (some r.address) 1 none)])
  else 0

/-- The text of the routine, provided that at most `limit` calls are needed at once for its body and
every literal in it has a text. -/
def text? (r : Routine) (shared : Typing) (limit : Nat) : Except Fault String :=
  if limit < r.depth then .error .tooDeep
  else
    (lineTexts (r.typeOf shared) r.lines).map fun texts =>
      "\n".intercalate (r.header :: r.declarationLines ++ texts ++ ["\x7d"])

end Routine

namespace Listing

/-- The depth of the deepest routine. -/
def depth (l : Listing) : Nat :=
  l.routines.foldr (fun r n => max r.depth n) 0

/-- The text of the script, or why the first routine without a text has none. -/
def text? (l : Listing) (shared : Typing) (limit : Nat) : Except Fault String := do
  let texts ← l.routines.mapM fun r => r.text? shared limit
  return "\n\n".intercalate (("// " ++ l.name) :: texts)

end Listing

end ScriptLift
