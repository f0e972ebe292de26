import ScriptLift.Instruction

/-!
# Events

What the stages report while they work, each as its cause.  A report has a level and a wording;
neither has any bearing on what is computed.
-/

namespace ScriptLift

/-- How serious an event is. -/
inductive Level where
  | debug
  | info
  | warning
  | error
  deriving DecidableEq, Repr

/-- What is reported on the way, with what its text names. -/
inductive Event where
  -- Lifting.
  /-- A value was taken from an empty operand stack. -/
  | underflow
  /-- A variable keeps its type against a later one. -/
  | typeKept (kept : DataType) (name : String) (ignored : DataType)
  /-- A block may go on at an address that is not in its routine. -/
  | leavesRoutine (routine : String) (source target : Int)
  | discovered (routine : String) (blocks : Nat)
  /-- Two return sites disagree on the number of values. -/
  | returnCounts (routine : String) (kept got : Int)
  /-- Two return sites disagree on the type. -/
  | returnTypes (routine : String) (kept got : DataType)
  | unknownCallee (target : Int)
  /-- A call with several results is treated as one value. -/
  | foldedReturns (name : String) (count : Int)
  | unhandled (routine : String) (instruction : Instruction)
  /-- Two ways into a block leave operand stacks of different depth. -/
  | joinMismatch (join : Int) (depth : Nat) (source : Int) (expected : Nat)
  -- Reading.
  | decoded (instructions bytes : Nat)
  | readRaw (name : String)
  | inflated (name : String) (bytes : Nat)
  | malformedNative (space key : String)
  | nativesLoaded (natives aliases : Nat)
  -- Running.
  | decompiling (path : String)
  | nativesUnavailable (reason : String)
  | failed (reason : String)
  -- Drawing.
  | drawingWritten (path : String)
  | rendererMissing (reason : String)
  | renderingFailed (reason : String)
  deriving DecidableEq, Repr

namespace Event

/-- The level an event is reported at. -/
def level : Event → Level
  | underflow | leavesRoutine .. | returnCounts .. | returnTypes .. | unknownCallee _
  | unhandled .. | joinMismatch .. | nativesUnavailable _ | rendererMissing _ => .warning
  | typeKept .. | discovered .. | foldedReturns .. | decoded .. | readRaw _ | inflated ..
  | malformedNative .. | nativesLoaded .. | drawingWritten _ | renderingFailed _ => .debug
  | decompiling _ => .info
  | failed _ => .error

/-- The text of an event. -/
def text : Event → String
  | underflow => "node stack underflow"
  | typeKept kept name ignored =>
    "keeping " ++ kept.text ++ " for " ++ name ++ ", ignoring " ++ ignored.text
  | leavesRoutine routine source target =>
    routine ++ ": branch from 0x" ++ Text.hex 0 source ++ " leaves the function (0x"
      ++ Text.hex 0 target ++ ")"
  | discovered routine blocks => routine ++ ": discovered " ++ toString blocks ++ " blocks"
  | returnCounts routine kept got =>
    routine ++ " returns both " ++ toString kept ++ " and " ++ toString got ++ " values, keeping "
      ++ toString kept
  | returnTypes routine kept got =>
    routine ++ " returns both " ++ kept.text ++ " and " ++ got.text ++ ", keeping " ++ kept.text
  | unknownCallee target => "call to unknown function at 0x" ++ Text.hex 0 target
  | foldedReturns name count =>
    name ++ " returns " ++ toString count ++ " values, folding into one expression"
  | unhandled routine instruction =>
    routine ++ ": unhandled instruction " ++ instruction.text
  | joinMismatch join depth source expected =>
    "stack mismatch at join 0x" ++ Text.hex 0 join ++ ": depth " ++ toString depth ++ " from 0x"
      ++ Text.hex 0 source ++ ", expected " ++ toString expected
  | decoded instructions bytes =>
    "decoded " ++ toString instructions ++ " instructions (" ++ toString bytes ++ " bytes)"
  | readRaw name => name ++ ": region is not a zlib stream (zlib.error), reading it raw"
  | inflated name bytes => name ++ ": inflated script region to " ++ toString bytes ++ " bytes"
  | malformedNative space key => "skipping malformed native entry " ++ space ++ "." ++ key
  | nativesLoaded natives aliases =>
    "loaded " ++ toString natives ++ " natives, " ++ toString aliases ++ " translations"
  | decompiling path => "Decompiling " ++ path
  | nativesUnavailable reason =>
    "Unable to load hash dictionary (" ++ reason ++ "). Lookups will be unavailable"
  | failed reason => reason
  | drawingWritten path => "wrote " ++ path
  | rendererMissing reason =>
    "Graphviz 'dot' executable not found, skipping SVG: " ++ reason
  | renderingFailed reason => "dot command failed: " ++ reason

end Event

end ScriptLift
