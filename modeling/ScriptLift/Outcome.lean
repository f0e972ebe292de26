import ScriptLift.Event
import ScriptLift.Fault

/-!
# Outcomes

An operation that can stop half-way leaves behind what it did up to there.  Its outcome is a value
or a fault, the state as far as it got, and the events reported on the way.
-/

namespace ScriptLift

/-- A value or a fault, with the state and the events of the way there. -/
structure Outcome (State Value : Type) where
  value : Except Fault Value
  state : State
  events : List Event

end ScriptLift
