import ScriptLift.Routine.Basic

/-!
# Results of routines

A routine returns nothing or one value.  The first return site settles how many; among the sites
that agree with it the first with a known type settles the type.  Every other site is reported and
has no effect.
-/

namespace ScriptLift.Routine

/-- The type that a return site gives the result; `top` is that of the value on top. -/
def siteType? (count : Int) (top : DataType) : Option DataType :=
  if count = 0 then some .void
  else if count = 1 then some top
  else none

/-- The routine after a return site with `count` values, the top one of type `top`. -/
def inferReturn (r : Routine) (count : Int) (top : DataType) :
    Except Fault (Routine × List Event) :=
  match siteType? count top with
  | none => .error (.returnCount r.name count)
  | some type =>
    match r.result with
    | none => .ok ({ r with result := some ⟨count, type⟩ }, [])
    | some known =>
      if known.count ≠ count then .ok (r, [.returnCounts r.name known.count count])
      else if known.type.Contradicts type then
        .ok (r, [.returnTypes r.name known.type type])
      else .ok ({ r with result := some { known with type := known.type.refine type } }, [])

/-- The type of the result; a routine without a return site has none. -/
def returnType (r : Routine) : DataType :=
  (r.result.map (·.type)).getD .void

/-- The variable that stands for the result. -/
def output? (r : Routine) : Option Variable :=
  r.result.map fun known => ⟨"result", known.type⟩

end ScriptLift.Routine
