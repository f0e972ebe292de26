import ScriptLift.Number.Scientific
import ScriptLift.Text.CodePoint

/-!
# JSON values

The values of a JSON document.  Whole numbers are kept apart from floating-point ones, and an
object keeps its members in the order of their keys' first mention.

A value counts as given unless it is null, false, zero or empty, and has a text: a string is its
own text, and inside lists and objects a string is quoted.  A string may hold halves of surrogate
pairs.
-/

namespace ScriptLift

/-- The value of a document; the members of an object are in the order of their first mention. -/
inductive JsonValue where
  | null
  | bool (value : Bool)
  | int (value : Int)
  | float (value : Binary64)
  | string (value : CodeText)
  | list (items : List JsonValue)
  | object (members : List (CodeText × JsonValue))
  deriving Repr, Inhabited

namespace JsonValue

/-- Neither null, false, zero nor empty. -/
def isGiven : JsonValue → Bool
  | null => false
  | bool b => b
  | int n => n ≠ 0
  | float x => !x.isZero
  | string s => !s.points.isEmpty
  | list items => !items.isEmpty
  | object members => !members.isEmpty

mutual

/-- The text inside a list or an object. -/
def shown : JsonValue → String
  | null => "None"
  | bool b => if b then "True" else "False"
  | int n => toString n
  | float x => x.text
  | string s => s.quoted
  | list items => "[" ++ ", ".intercalate (shownItems items) ++ "]"
  | object members => "\x7b" ++ ", ".intercalate (shownMembers members) ++ "\x7d"

/-- The texts of the items of a list. -/
def shownItems : List JsonValue → List String
  | [] => []
  | v :: vs => v.shown :: shownItems vs

/-- The texts of the members of an object, each with its name. -/
def shownMembers : List (CodeText × JsonValue) → List String
  | [] => []
  | (k, v) :: ms => (k.quoted ++ ": " ++ v.shown) :: shownMembers ms

end

/-- The text of a value. -/
def text : JsonValue → CodeText
  | string s => s
  | v => .ofString v.shown

/-- The member of an object under a key. -/
def get? (v : JsonValue) (key : String) : Option JsonValue :=
  match v with
  | object members => members.lookup (.ofString key)
  | _ => none

end JsonValue

end ScriptLift
