import ScriptLift.Assoc
import ScriptLift.Json.Basic
import ScriptLift.Number.Integer

/-!
# Reading JSON

A document is one value with blanks around it.  Besides the standard it may hold `NaN`, `Infinity`
and `-Infinity`.  Of members with the same key the last one counts, in the place of the first.

Every value, element and member starts with a character of its own, so the length of the document
bounds the depth of the recursion.
-/

namespace ScriptLift.JsonValue

/-- Why a text is no document. -/
inductive Error where
  | malformed
  /-- A whole number with more digits than allowed. -/
  | longInteger (digits : Nat)
  deriving DecidableEq, Repr

/-- The four characters that may stand between tokens. -/
def isSpace (c : Char) : Bool :=
  c = ' ' || c = '\t' || c = '\n' || c = '\r'

/-- What is behind the leading spaces. -/
def skipSpace (cs : List Char) : List Char :=
  cs.dropWhile isSpace

/-! ### Strings -/

/-- The number in four base-sixteen digits. -/
def unit? : List Char → Option (Nat × List Char)
  | a :: b :: c :: d :: rest => do
    let hex (c : Char) : Option Nat := if c.toNat < 0x80 then Text.digit? 16 c else none
    return (Number.ofDigits 16 [← hex a, ← hex b, ← hex c, ← hex d], rest)
  | _ => none

/-- The character that an escape of one letter stands for. -/
def escaped? (c : Char) : Option Char :=
  if c = '"' || c = '\\' || c = '/' then some c
  else if c = 'b' then some '\x08'
  else if c = 'f' then some '\x0c'
  else if c = 'n' then some '\n'
  else if c = 'r' then some '\r'
  else if c = 't' then some '\t'
  else none

/-- The code points of a string up to its closing quote; `units` are the escaped units right before
them, last first. -/
def stringFrom (units : List Nat) : List Char → Except Error (List CodePoint × List Char)
  | [] => .error .malformed
  | '"' :: cs => .ok (CodePoint.ofUnits units.reverse, cs)
  | '\\' :: 'u' :: a :: b :: c :: d :: cs =>
    match unit? [a, b, c, d] with
    | some (u, _) => stringFrom (u :: units) cs
    | none => .error .malformed
  | '\\' :: e :: cs =>
    match escaped? e with
    | some c => do
      let (s, rest) ← stringFrom [] cs
      return (CodePoint.ofUnits units.reverse ++ .char c :: s, rest)
    | none => .error .malformed
  | c :: cs =>
    if c.toNat < 0x20 || c = '\\' then .error .malformed
    else do
      let (s, rest) ← stringFrom [] cs
      return (CodePoint.ofUnits units.reverse ++ .char c :: s, rest)

/-! ### Numbers -/

/-- A decimal digit; here only the ten of ASCII are. -/
def isDigit (c : Char) : Bool :=
  '0' ≤ c && c ≤ '9'

/-- The values of decimal digits. -/
def digitValues (cs : List Char) : List Nat :=
  cs.map fun c => c.toNat - '0'.toNat

/-- The digits behind a point, if there is at least one. -/
def fraction? : List Char → Option (List Char × List Char)
  | '.' :: cs =>
    if (cs.takeWhile isDigit).isEmpty then none
    else some (cs.takeWhile isDigit, cs.dropWhile isDigit)
  | _ => none

/-- The digits of an exponent, if there is at least one. -/
def exponentDigits? (negative : Bool) (cs : List Char) : Option (Int × List Char) :=
  if (cs.takeWhile isDigit).isEmpty then none
  else
    let n : Int := Number.ofDigits 10 (digitValues (cs.takeWhile isDigit))
    some (if negative then -n else n, cs.dropWhile isDigit)

/-- An exponent with its sign, and what is behind it. -/
def exponent? : List Char → Option (Int × List Char)
  | e :: cs =>
    if e = 'e' || e = 'E' then
      match cs with
      | '+' :: cs => exponentDigits? false cs
      | '-' :: cs => exponentDigits? true cs
      | cs => exponentDigits? false cs
    else none
  | [] => none

/-- A number with the given sign and whole part; `cs` is what follows. -/
def numberFrom (negative : Bool) (whole : List Char) (cs : List Char) :
    Except Error (JsonValue × List Char) :=
  match fraction? cs, exponent? cs with
  | none, none =>
    if Number.digitLimit < whole.length then .error (.longInteger whole.length)
    else
      let n : Int := Number.ofDigits 10 (digitValues whole)
      .ok (int (if negative then -n else n), cs)
  | none, some (e, rest) =>
    .ok (float (.ofDecimal negative (Number.ofDigits 10 (digitValues whole)) e), rest)
  | some (places, behind), _ =>
    let m := Number.ofDigits 10 (digitValues (whole ++ places))
    match exponent? behind with
    | some (e, rest) => .ok (float (.ofDecimal negative m (e - places.length)), rest)
    | none => .ok (float (.ofDecimal negative m (-places.length)), behind)

/-- A number without its sign: a zero, or digits that do not start with one. -/
def numeral (negative : Bool) : List Char → Except Error (JsonValue × List Char)
  | '0' :: cs => numberFrom negative ['0'] cs
  | cs =>
    if (cs.takeWhile isDigit).isEmpty then .error .malformed
    else numberFrom negative (cs.takeWhile isDigit) (cs.dropWhile isDigit)

/-! ### Values -/

/-- The words that stand for a value. -/
def words : List (List Char × JsonValue) :=
  [("null".toList, null), ("true".toList, bool true), ("false".toList, bool false),
   ("NaN".toList, float (.ofSign false (Binary64.infinityBits + Nat.pow 2 51))),
   ("Infinity".toList, float (.ofSign false Binary64.infinityBits)),
   ("-Infinity".toList, float (.ofSign true Binary64.infinityBits))]

/-- A word or a number. -/
def scalar (cs : List Char) : Except Error (JsonValue × List Char) :=
  match words.find? fun w => w.1.isPrefixOf cs with
  | some (word, v) => .ok (v, cs.drop word.length)
  | none =>
    match cs with
    | '-' :: cs => numeral true cs
    | cs => numeral false cs

mutual

/-- A value that starts at the front. -/
def value : Nat → List Char → Except Error (JsonValue × List Char)
  | 0, _ => .error .malformed
  | fuel + 1, cs =>
    match cs with
    | '"' :: cs => do
      let (s, rest) ← stringFrom [] cs
      return (string ⟨s⟩, rest)
    | '[' :: cs =>
      match skipSpace cs with
      | ']' :: rest => .ok (list [], rest)
      | cs => do
        let (vs, rest) ← elements fuel cs
        return (list vs, rest)
    | '\x7b' :: cs =>
      match skipSpace cs with
      | '\x7d' :: rest => .ok (object [], rest)
      | cs => do
        let (ms, rest) ← members fuel [] cs
        return (object ms, rest)
    | cs => scalar cs

/-- The elements of a list, up to its closing bracket. -/
def elements : Nat → List Char → Except Error (List JsonValue × List Char)
  | 0, _ => .error .malformed
  | fuel + 1, cs => do
    let (v, rest) ← value fuel cs
    match skipSpace rest with
    | ',' :: rest =>
      let (vs, rest) ← elements fuel (skipSpace rest)
      return (v :: vs, rest)
    | ']' :: rest => return ([v], rest)
    | _ => .error .malformed

/-- The members of an object behind those in `known`, up to its closing brace. -/
def members : Nat → List (CodeText × JsonValue) → List Char →
    Except Error (List (CodeText × JsonValue) × List Char)
  | 0, _, _ => .error .malformed
  | fuel + 1, known, cs => do
    match cs with
    | '"' :: cs =>
      let (key, rest) ← stringFrom [] cs
      match skipSpace rest with
      | ':' :: rest =>
        let (v, rest) ← value fuel (skipSpace rest)
        let known := Assoc.put ⟨key⟩ v known
        match skipSpace rest with
        | ',' :: rest => members fuel known (skipSpace rest)
        | '\x7d' :: rest => return (known, rest)
        | _ => .error .malformed
      | _ => .error .malformed
    | _ => .error .malformed

end

/-- The value that a document holds. -/
def parse (cs : List Char) : Except Error JsonValue := do
  let (v, rest) ← value (cs.length + 1) (skipSpace cs)
  if (skipSpace rest).isEmpty then return v else throw .malformed

end ScriptLift.JsonValue
