import ScriptLift.CommandLine
import ScriptLift.Depth
import ScriptLift.Drawing
import ScriptLift.Lift.Interpret
import ScriptLift.Natives.Dictionary
import ScriptLift.Region
import ScriptLift.Resource

/-!
# Decompiling a file

A compiled script is read, unwrapped, decoded with what the dictionary knows, lifted, and drawn if
asked for.  A dictionary that cannot be loaded is reported and done without.  What stops the work
is reported as an error, unless it lies outside the script (`Failure.isReported`).  A script that is
decompiled and has no text breaks the run off without a report.
-/

namespace ScriptLift

/-- Why a script is not decompiled. -/
inductive Failure where
  | unknownArch (path : Path)
  | unreadable (path : Path) (e : FileError)
  | resource (e : Resource.Error)
  | code (e : Bytecode.Error)
  | lifting (f : Fault)
  /-- A file that is not the script, or no file at all. -/
  | file (e : FileError)
  /-- A dictionary is asked for and no path to it given. -/
  | noDictionary
  /-- Drawings are asked for and no directory for them given. -/
  | noDirectory
  deriving Repr

namespace Failure

/-- The text of a failure: that of what failed, or its own. -/
def message : Failure → String
  | unknownArch path => "unknown architecture, path: " ++ path.text
  | unreadable path e => "unable to read " ++ path.text ++ ": " ++ e.message
  | resource e => e.message
  | code e => e.message
  | lifting f => f.message
  | file e => e.message
  | noDictionary => "no path to a dictionary"
  | noDirectory => "no directory for drawings"

/-- The failure is one of the script itself. -/
def isReported : Failure → Bool
  | lifting (.endOfCode _) | lifting (.returnCount ..) => true
  | lifting _ | file _ | noDictionary | noDirectory => false
  | _ => true

end Failure

/-- The outcome of the work on a tree of files. -/
structure Work (Value : Type) where
  value : Except Failure Value
  tree : FileTree
  events : List Event

/-- A script decompiled, with what is known of the places its routines share. -/
structure Decompiled where
  listing : Listing
  typing : Typing

/-- The text of the script, where at most `limit` calls may be open at once in a body. -/
def Decompiled.text? (d : Decompiled) (limit : Nat) : Except Fault String :=
  d.listing.text? d.typing limit

/-- The dictionary at hand: an empty one, with a report, where none can be loaded. -/
def Dictionary.loadOrEmpty (t : FileTree) (natives aliases : Target) :
    Except Failure Dictionary × List Event :=
  match load t natives aliases with
  | (.ok d, events) => (.ok d, events)
  | (.error .noPath, events) => (.error .noDictionary, events)
  | (.error e, events) => (.ok {}, events ++ [.nativesUnavailable e.message])

/-- Lift the script in a resource that was read from the file `name`. -/
def decompileResource (name : String) (r : Resource) (dictionary : Dictionary) :
    Except Failure Decompiled × List Event :=
  match (Script.unpack { name, arch := r.arch, native? := dictionary.native? } r.region).2 with
  | ⟨_, some e, events⟩ => (.error (.code e), events)
  | ⟨code, none, events⟩ =>
    let out := ({ name, code } : Program).decompile
    match out.value with
    | .error f => (.error (.lifting f), events ++ out.events)
    | .ok routines => (.ok ⟨⟨name, routines⟩, out.state.typing⟩, events ++ out.events)

/-- Draw the routines of a script where the options say. -/
def drawRoutines (drawings : Option Target) (render : String → Rendering) (rs : List Routine)
    (t : FileTree) : Work Unit :=
  match drawings, rs with
  | none, _ | some .nothing, [] => ⟨.ok (), t, []⟩
  | some .nothing, _ => ⟨.error .noDirectory, t, []⟩
  | some (.path directory), rs =>
    let drawn := Routine.writeDrawings directory (some render) rs t
    ⟨drawn.value.mapError .file, drawn.tree, drawn.events⟩

/-- Decompile the script that the options name, for a given architecture. -/
def decompileFile (o : Options) (arch : Arch) (render : String → Rendering) (t : FileTree) :
    Work Decompiled :=
  let started := Event.decompiling o.path.text
  match t.read o.path with
  | .error .embeddedNull => ⟨.error (.file .embeddedNull), t, [started]⟩
  | .error e => ⟨.error (.unreadable o.path e), t, [started]⟩
  | .ok data =>
    match Resource.unpack data o.path.name data.length arch with
    | .error e => ⟨.error (.resource e), t, [started]⟩
    | .ok (resource, unpacked) =>
      match Dictionary.loadOrEmpty t o.natives o.aliases with
      | (.error e, loaded) => ⟨.error e, t, started :: unpacked ++ loaded⟩
      | (.ok dictionary, loaded) =>
        let (value, lifted) := decompileResource o.path.name resource dictionary
        let events := started :: unpacked ++ loaded ++ lifted
        match value with
        | .error e => ⟨.error e, t, events⟩
        | .ok d =>
          let drawn := drawRoutines o.drawings render d.listing.routines t
          ⟨drawn.value.map fun _ => d, drawn.tree, events ++ drawn.events⟩

/-- What a run of the program leaves: its exit code and output, unless it breaks off, the files,
and the events. -/
structure Run where
  value : Except Failure (Nat × String)
  tree : FileTree
  events : List Event

/-- The events that are shown. -/
def shownEvents (verbose : Bool) (events : List Event) : List Event :=
  events.filter fun e => verbose || e.level ≠ .debug

/-- The calls that may be open at once in the body of a routine.  A thousand may be open in all, and
six of them are around the body. -/
def callLimit : Nat := 994

/-- Run the program with the given options. -/
def run (o : Options) (render : String → Rendering) (t : FileTree) : Run :=
  let work : Work Decompiled :=
    match Arch.ofPath? o.path.text with
    | some arch => decompileFile o arch render t
    | none => ⟨.error (.unknownArch o.path), t, []⟩
  match work.value with
  | .ok d =>
    match d.text? callLimit with
    | .ok text => ⟨.ok (0, text ++ "\n"), work.tree, shownEvents o.verbose work.events⟩
    | .error f => ⟨.error (.lifting f), work.tree, shownEvents o.verbose work.events⟩
  | .error e =>
    if e.isReported then
      ⟨.ok (1, ""), work.tree, shownEvents o.verbose (work.events ++ [.failed e.message])⟩
    else ⟨.error e, work.tree, shownEvents o.verbose work.events⟩

end ScriptLift
