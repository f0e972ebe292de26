import ScriptLift.Path
import ScriptLift.Text.Digit
import ScriptLift.Text.Quoted

/-!
# The command line

A command line names a compiled script and may hold options before and behind it.  An option may
be shortened as long as one option alone starts that way, takes its value from the same argument
behind an equals sign or else from the next argument, and flags of one letter may share an
argument, also with an equals sign behind the first.  A double dash as the value in the same
argument is no value, so that the option points to nothing.  Behind a double dash of its own every
argument is a value.

Arguments are first told apart (`classify`) and then taken in order (`take`): a value that no
option takes is the path if there is none yet, and otherwise left over.
-/

namespace ScriptLift

/-- What the command line asks for. -/
structure Options where
  path : Path
  natives : Target
  aliases : Target
  drawings : Option Target
  verbose : Bool
  deriving DecidableEq, Repr

namespace CommandLine

/-- The program's name in messages. -/
def programName : String := "rage-decompile"

/-- The options of the command line. -/
inductive Switch where
  | help
  | natives
  | aliases
  | drawings
  | verbose
  deriving DecidableEq, Repr

/-- The spellings of the options, in the order they are listed. -/
def spellings : List (String × Switch) :=
  [("-h", .help), ("--help", .help), ("--natives", .natives), ("--translation", .aliases),
   ("--dot", .drawings), ("-v", .verbose), ("--verbose", .verbose)]

namespace Switch

/-- All spellings of an option. -/
def name (s : Switch) : String :=
  "/".intercalate ((spellings.filter fun p => p.2 = s).map (·.1))

/-- The option has no value. -/
def isFlag : Switch → Bool
  | help | verbose => true
  | _ => false

end Switch

/-- How the program is called. -/
def usage : String :=
  "usage: " ++ programName
    ++ " [-h] [--natives NATIVES] [--translation TRANSLATION] [--dot DIR] [-v] path"

/-- Why a command line is refused. -/
inductive UsageError where
  | missingPath
  | unrecognized (arguments : List String)
  | missingValue (s : Switch)
  | unwantedValue (s : Switch) (value : String)
  | ambiguous (argument : String) (candidates : List String)
  deriving DecidableEq, Repr

/-- What is said of arguments that are refused. -/
def UsageError.message : UsageError → String
  | missingPath => "the following arguments are required: path"
  | unrecognized arguments => "unrecognized arguments: " ++ " ".intercalate arguments
  | missingValue s => "argument " ++ s.name ++ ": expected one argument"
  | unwantedValue s value =>
    "argument " ++ s.name ++ ": ignored explicit argument " ++ Text.quoted value
  | ambiguous argument candidates =>
    "ambiguous option: " ++ argument ++ " could match " ++ ", ".intercalate candidates

/-- The line printed about a command line that is refused. -/
def UsageError.text (e : UsageError) : String :=
  programName ++ ": error: " ++ e.message

/-- Why the arguments are not taken to their end. -/
inductive Stop where
  | help
  | refused (e : UsageError)
  deriving DecidableEq, Repr

/-! ### Telling arguments apart -/

/-- What one argument is read as. -/
inductive Argument where
  /-- The double dash. -/
  | dash
  | value (text : String)
  /-- What looks like an option and is none. -/
  | unknown (text : String)
  /-- An option, with the value in the same argument if it has one. -/
  | switch (s : Switch) (value : Option String)
  /-- A flag of one letter, and what is behind it: other flags by their letters. -/
  | cluster (s : Switch) (letters : List Char)
  deriving DecidableEq, Repr

/-- The text before the first equals sign, and the one behind it if there is one. -/
def splitValue (s : String) : String × Option String :=
  let cs := s.toList
  (.ofList (cs.takeWhile (· ≠ '=')),
    match cs.dropWhile (· ≠ '=') with
    | [] => none
    | _ :: value => some (.ofList value))

/-- Decimal digits of any script, and at least one. -/
def allDigits (cs : List Char) : Bool :=
  !cs.isEmpty && cs.all fun c => (Text.decimalDigit? c).isSome

/-- The text behind a dash that makes it a negative number; a line may end behind it. -/
def isNumber (text : List Char) : Bool :=
  let cs := if text.getLast? = some '\n' then text.dropLast else text
  allDigits cs ||
    match cs.dropWhile (· ≠ '.') with
    | [] => false
    | _ :: places => (cs.takeWhile (· ≠ '.')).all (fun c => (Text.decimalDigit? c).isSome)
        && allDigits places

/-- The spelling of an option with a value behind an equals sign.  Behind a single letter the value
is read as more letters, unless it is empty. -/
def withValue (spelling : String) (s : Switch) (value : String) : Argument :=
  if spelling.length = 2 && value ≠ "" then .cluster s value.toList else .switch s (some value)

/-- An argument that starts with a dash and is no spelling of an option. -/
def classifyDashed (s : String) (cs : List Char) : Except UsageError Argument :=
  let (start, value) := splitValue s
  match value, spellings.lookup start with
  | some value, some switch => .ok (withValue start switch value)
  | _, _ =>
    match cs with
    | '-' :: _ =>
      match spellings.filter fun p => start.toList.isPrefixOf p.1.toList with
      | [] => .ok (if s.toList.contains ' ' then .value s else .unknown s)
      | [(_, switch)] => .ok (.switch switch value)
      | candidates => .error (.ambiguous s (candidates.map (·.1)))
    | c :: letters =>
      match spellings.lookup (.ofList ['-', c]) with
      | some switch => .ok (.cluster switch letters)
      | none => .ok (if isNumber cs || s.toList.contains ' ' then .value s else .unknown s)
    | [] => .ok (.value s)

/-- An argument before any double dash. -/
def classify (s : String) : Except UsageError Argument :=
  match s.toList with
  | '-' :: cs =>
    match spellings.lookup s with
    | some switch => .ok (.switch switch none)
    | none => classifyDashed s cs
  | _ => .ok (.value s)

/-- All arguments. -/
def classifyAll : List String → Except UsageError (List Argument)
  | [] => .ok []
  | s :: ss =>
    if s = "--" then .ok (.dash :: ss.map .value)
    else do return (← classify s) :: (← classifyAll ss)

/-! ### Taking them in order -/

/-- What has been taken so far. -/
structure Taken where
  path : Option String := none
  natives : Option String := none
  aliases : Option String := none
  drawings : Option String := none
  verbose : Bool := false
  extra : List String := []
  deriving DecidableEq, Repr

namespace Taken

/-- An option with its value. -/
def set (t : Taken) (value : String) : Switch → Taken
  | .natives => { t with natives := some value }
  | .aliases => { t with aliases := some value }
  | .drawings => { t with drawings := some value }
  | _ => t

/-- A flag. -/
def flag (t : Taken) : Switch → Except Stop Taken
  | .help => .error .help
  | _ => .ok { t with verbose := true }

/-- Flags in order. -/
def flags (t : Taken) (switches : List Switch) : Except Stop Taken :=
  switches.foldlM flag t

end Taken

/-- The flags in an argument, from the flag `s` on; `letters` are behind it, each another flag. -/
def clusterFlags (s : Switch) : List Char → Except UsageError (List Switch)
  | [] => .ok [s]
  | c :: cs =>
    match spellings.lookup (.ofList ['-', c]) with
    | some next => do return s :: (← clusterFlags next cs)
    | none => .error (.unwantedValue s (.ofList (c :: cs)))

/-- Take arguments in order. -/
def take (t : Taken) : List Argument → Except Stop Taken
  | [] => .ok t
  | .unknown s :: rest => take { t with extra := t.extra ++ [s] } rest
  | .switch s (some value) :: rest =>
    if s.isFlag then .error (.refused (.unwantedValue s value)) else take (t.set value s) rest
  | .switch s none :: rest =>
    if s.isFlag then do take (← t.flag s) rest
    else
      match rest with
      | .value v :: rest => take (t.set v s) rest
      | _ => .error (.refused (.missingValue s))
  | .cluster s letters :: rest => do
    let switches ← (clusterFlags s letters).mapError .refused
    take (← t.flags switches) rest
  | .value v :: rest =>
    if t.path.isSome then take { t with extra := t.extra ++ [v] } rest
    else
      match rest with
      | .dash :: rest => take { t with path := some v } rest
      | rest => take { t with path := some v } rest
  | .dash :: rest =>
    if t.path.isNone && !rest.isEmpty then take t rest
    else take { t with extra := t.extra ++ ["--"] } rest

/-- Where the dictionary is looked for. -/
def defaultNatives : Path := .ofString "natives.json"

/-- Where the aliases are looked for. -/
def defaultAliases : Path := .ofString "native_translation.dat"

/-- What an option with the given value points to. -/
def targetOf (value : String) : Target :=
  if value = "--" then .nothing else .path (.ofString value)

/-- The options that a command line gives. -/
def parse (arguments : List String) : Except Stop Options := do
  let t ← take {} (← (classifyAll arguments).mapError .refused)
  match t.path with
  | none => throw (.refused .missingPath)
  | some path =>
    if !t.extra.isEmpty then throw (.refused (.unrecognized t.extra))
    return {
      path := .ofString path
      natives := (t.natives.map targetOf).getD (.path defaultNatives)
      aliases := (t.aliases.map targetOf).getD (.path defaultAliases)
      drawings := t.drawings.map targetOf
      verbose := t.verbose }

end CommandLine

end ScriptLift
