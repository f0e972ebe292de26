import ScriptLift.Assoc
import ScriptLift.Path
import ScriptLift.Text.Quoted

/-!
# File trees

The files and directories below a working directory.  Paths are followed part by part: each part
but the last has to be a directory, and two dots lead to the directory above, also where it was
reached by another name.  Where a path leads is a `Spot`, which knows the directories on the way and
so how to put something else there (`Spot.put`).

Outside the working directory there are only the directories above it.  They count as entries named
by two dots, and the topmost one as an entry named by a slash.
-/

namespace ScriptLift

/-- Why a file cannot be used. -/
inductive FileError where
  | noEntry (path : Path)
  | alreadyExists (path : Path)
  | notDirectory (path : Path)
  | isDirectory (path : Path)
  | nameTooLong (path : Path)
  /-- A path with a zero character, which no file has. -/
  | embeddedNull
  /-- A text with half of a surrogate pair, which no file can hold. -/
  | notEncodable
  deriving DecidableEq, Repr

namespace FileError

/-- The text of an error, with the path as it was given. -/
def message : FileError → String
  | noEntry p => "[Errno 2] No such file or directory: " ++ Text.quoted p.text
  | alreadyExists p => "[Errno 17] File exists: " ++ Text.quoted p.text
  | notDirectory p => "[Errno 20] Not a directory: " ++ Text.quoted p.text
  | isDirectory p => "[Errno 21] Is a directory: " ++ Text.quoted p.text
  | nameTooLong p => "[Errno 36] File name too long: " ++ Text.quoted p.text
  | embeddedNull => "embedded null byte"
  | notEncodable => "surrogates not allowed"

end FileError

/-- A file, or a directory with its entries by name. -/
inductive FileTree where
  | file (bytes : List UInt8)
  | directory (entries : List (String × FileTree))
  deriving Repr, Inhabited

/-- A file or directory by the names that lead to it. -/
abbrev Location : Type :=
  List String

/-- The location lies outside the working directory. -/
def Location.isOutside : Location → Bool
  | name :: _ => name = ".." || name = "/"
  | [] => false

/-- The most bytes in the name of a file. -/
def nameLimit : Nat := 255

/-- The most bytes in a path. -/
def pathLimit : Nat := 4095

namespace FileTree

/-- A directory with nothing in it. -/
def empty : FileTree :=
  directory []

/-- The entries of a directory; a file has none. -/
def entries : FileTree → List (String × FileTree)
  | file _ => []
  | directory es => es

/-- The entries with a file at a location, and with the directories that lead to it. -/
def insert (bytes : List UInt8) : Location → List (String × FileTree) → List (String × FileTree)
  | [], es => es
  | [name], es => Assoc.put name (file bytes) es
  | name :: l, es =>
    Assoc.put name (directory (insert bytes l ((es.lookup name).getD empty).entries)) es

/-- A tree with the given files and the directories they need. -/
def ofFiles (fs : List (Location × List UInt8)) : FileTree :=
  directory (fs.foldl (fun es f => insert f.2 f.1 es) [])

mutual

/-- All files by their locations. -/
def files : FileTree → List (Location × List UInt8)
  | file bytes => [([], bytes)]
  | directory es => filesIn es

/-- The files under the entries of a directory. -/
def filesIn : List (String × FileTree) → List (Location × List UInt8)
  | [] => []
  | (name, t) :: es => t.files.map (fun f => (name :: f.1, f.2)) ++ filesIn es

end

mutual

/-- All directories by their locations, each before those inside it. -/
def directories : FileTree → List Location
  | file _ => []
  | directory es => [] :: directoriesIn es

/-- The directories under the entries of a directory. -/
def directoriesIn : List (String × FileTree) → List Location
  | [] => []
  | (name, t) :: es => t.directories.map (name :: ·) ++ directoriesIn es

end

/-- A directory above the working directory, with the entries known of it. -/
def outer (es : List (String × FileTree)) (name : String) : FileTree :=
  (es.lookup name).getD empty

/-- A place that a path leads to. -/
structure Spot where
  /-- The steps to it, last first: the entries of a directory and the name taken from them. -/
  steps : List (List (String × FileTree) × String)
  /-- What is there, if anything. -/
  here : Option FileTree

namespace Spot

/-- The tree with something else at the spot. -/
def put (s : Spot) (t : FileTree) : FileTree :=
  s.steps.foldl (fun t step => directory (Assoc.put step.2 t step.1)) t

/-- One step further, to an entry of the directory at the spot. -/
def step (s : Spot) (es : List (String × FileTree)) (name : String) : Spot :=
  ⟨(es, name) :: s.steps, es.lookup name⟩

/-- One step outside, from the directory at the spot. -/
def stepOut (s : Spot) (es : List (String × FileTree)) (name : String) : Spot :=
  ⟨(es, name) :: s.steps, some (outer es name)⟩

/-- The directory above the one at the spot, whose entries are `es`. -/
def above (s : Spot) (es : List (String × FileTree)) : Spot :=
  match s.steps with
  | [] => s.stepOut es ".."
  | (around, name) :: steps =>
    if name = "/" then s
    else if name = ".." then s.stepOut es ".."
    else ⟨steps, some (directory around)⟩

/-- One part further on; `p` is the path that is followed. -/
def descend (p : Path) (s : Spot) (part : String) : Except FileError Spot :=
  match s.here with
  | none => .error (.noEntry p)
  | some (file _) => .error (.notDirectory p)
  | some (directory es) =>
    if part = ".." then .ok (s.above es)
    else if nameLimit < part.utf8ByteSize then .error (.nameTooLong p)
    else .ok (s.step es part)

end Spot

/-- Where paths with a given root start. -/
def start (t : FileTree) (root : String) : Spot :=
  if root = "" then ⟨[], some t⟩ else (⟨[], some t⟩ : Spot).stepOut t.entries "/"

/-- Where a path leads. -/
def locate (t : FileTree) (p : Path) : Except FileError Spot :=
  if p.text.toList.contains '\x00' then .error .embeddedNull
  else if pathLimit < p.text.utf8ByteSize then .error (.nameTooLong p)
  else p.parts.foldlM (Spot.descend p) (t.start p.root)

/-- The bytes of the file at a path. -/
def read (t : FileTree) (p : Path) : Except FileError (List UInt8) := do
  match (← t.locate p).here with
  | some (file bytes) => return bytes
  | some (directory _) => throw (.isDirectory p)
  | none => throw (.noEntry p)

/-- The tree with a file at `p`, new or in place of the one there. -/
def write (t : FileTree) (p : Path) (bytes : List UInt8) : Except FileError FileTree := do
  let s ← t.locate p
  match s.here with
  | some (directory _) => throw (.isDirectory p)
  | _ => return s.put (file bytes)

/-- The tree with a new directory at `p`. -/
def makeDirectory (t : FileTree) (p : Path) : Except FileError FileTree := do
  let s ← t.locate p
  match s.here with
  | some _ => throw (.alreadyExists p)
  | none => return s.put empty

/-- There is a directory at `p`. -/
def hasDirectory (t : FileTree) (p : Path) : Bool :=
  match t.locate p with
  | .ok ⟨_, some (directory _)⟩ => true
  | _ => false

/-- The tree with a directory at `p`, which may have been there, and with up to `depth` of those
above it. -/
def makeDirectories (p : Path) : Nat → FileTree → Except FileError FileTree
  | depth, t =>
    match t.makeDirectory p with
    | .ok t => .ok t
    | .error (.noEntry q) =>
      match depth with
      | 0 => .error (.noEntry q)
      | depth + 1 => do makeDirectories p 0 (← makeDirectories p.parent depth t)
    | .error e => if t.hasDirectory p then .ok t else .error e

end FileTree

end ScriptLift
