import ScriptLift.Arch
import ScriptLift.Event
import ScriptLift.FileTree
import ScriptLift.Json.Reader
import ScriptLift.Natives.Entry

/-!
# The dictionary of natives

Two files say what is known about natives.  One is a JSON object of name spaces, each an object
that gives under a hash the name and the result type of a native.  The other is a run of pairs of
hashes that lead from the hash in a script to the one in the first file.  In both the last entry
for a hash counts.

What is malformed in the first file is left out, entry by entry.
-/

namespace ScriptLift

/-- The natives by their hashes, and for the hash of a script the one to look it up by. -/
structure Dictionary where
  natives : List (Int × Native) := []
  aliases : List (Int × Int) := []
  deriving Repr

namespace Dictionary

/-- Why a dictionary cannot be loaded. -/
inductive Error where
  /-- No path was given for one of the files. -/
  | noPath
  | file (e : FileError)
  | encoding
  | document (e : JsonValue.Error)
  /-- The document is not an object. -/
  | notObject (path : Path)
  | aliasLength (length : Nat)
  deriving Repr

/-- The text of an error, or the kind of one that has no text of its own. -/
def Error.message : Error → String
  | noPath => "no path to a dictionary"
  | file e => e.message
  | encoding => "UnicodeDecodeError"
  | document .malformed => "JSONDecodeError"
  | document (.longInteger digits) =>
    "Exceeds the limit (" ++ toString Number.digitLimit
      ++ " digits) for integer string conversion: value has " ++ toString digits
      ++ " digits; use sys.set_int_max_str_digits() to increase the limit"
  | notObject path => path.text ++ ": expected an object of namespaces"
  | aliasLength length =>
    "translation table length " ++ toString length ++ " is not a multiple of 16"

/-! ### Reading the files -/

/-- The native that an entry describes, if it has a name. -/
def entry? (space : String) (hash : Int) (entry : JsonValue) : Option Native :=
  match entry.get? "name" with
  | some name =>
    if name.isGiven then
      some ⟨hash, name.text, space, ((entry.get? "results").filter (·.isGiven)).map (·.text.text)⟩
    else none
  | none => none

/-- The natives of one name space put into a table. -/
def readSpace (space : String) : List (CodeText × JsonValue) → List (Int × Native) →
    List (Int × Native) × List Event
  | [], known => (known, [])
  | (key, entry) :: entries, known =>
    match Number.integer? key.text, entry with
    | some hash, .object _ =>
      match entry? space hash entry with
      | some native => readSpace space entries (Assoc.put hash native known)
      | none => readSpace space entries known
    | _, _ =>
      let (known, events) := readSpace space entries known
      (known, .malformedNative space key.text :: events)

/-- The natives of all name spaces put into a table; what is no name space is left out. -/
def readSpaces : List (CodeText × JsonValue) → List (Int × Native) →
    List (Int × Native) × List Event
  | [], known => (known, [])
  | (space, .object entries) :: spaces, known =>
    let (known, events) := readSpace space.text entries known
    let (known, more) := readSpaces spaces known
    (known, events ++ more)
  | _ :: spaces, known => readSpaces spaces known

/-- The pairs of hashes in a run of bytes put into a table, at most `count` of them. -/
def readAliases : Nat → List UInt8 → List (Int × Int) → List (Int × Int)
  | 0, _, known => known
  | count + 1, bs, known =>
    readAliases count (bs.drop 16)
      (Assoc.put (littleEndian (bs.take 8) : Int) (littleEndian ((bs.drop 8).take 8) : Int) known)

/-- The table of the second file. -/
def aliasTable (bs : List UInt8) : Except Error (List (Int × Int)) :=
  if bs.length % 16 = 0 then .ok (readAliases (bs.length / 16) bs [])
  else .error (.aliasLength bs.length)

/-- The name spaces in the first file, which is at `path`. -/
def document (path : Path) (bs : List UInt8) : Except Error (List (CodeText × JsonValue)) :=
  match String.fromUTF8? ⟨bs.toArray⟩ with
  | none => .error .encoding
  | some s =>
    match JsonValue.parse s.toList with
    | .error e => .error (.document e)
    | .ok (.object spaces) => .ok spaces
    | .ok _ => .error (.notObject path)

/-- What `read` makes of the file that a target leads to. -/
def fromFile {α : Type} (t : FileTree) (read : Path → List UInt8 → Except Error α) :
    Target → Except Error α
  | .nothing => .error .noPath
  | .path p => (t.read p).mapError .file >>= read p

/-- The dictionary in two files.  The second file is looked at only after the first has been read
to its end. -/
def load (t : FileTree) (natives aliases : Target) : Except Error Dictionary × List Event :=
  match fromFile t document natives with
  | .error e => (.error e, [])
  | .ok spaces =>
    let (known, events) := readSpaces spaces []
    match fromFile t (fun _ => aliasTable) aliases with
    | .error e => (.error e, events)
    | .ok table => (.ok ⟨known, table⟩, events ++ [.nativesLoaded known.length table.length])

/-! ### Looking up -/

/-- What is known about the native with a given hash in a script. -/
def native? (d : Dictionary) (hash : Int) : Option Native :=
  d.natives.lookup ((d.aliases.lookup hash).getD hash)

/-- All natives, in the order of their hashes. -/
def entries (d : Dictionary) : List Native :=
  (d.natives.map (·.2)).mergeSort fun a b => decide (a.hash ≤ b.hash)

end Dictionary

end ScriptLift
