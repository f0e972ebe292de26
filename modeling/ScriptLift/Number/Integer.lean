import ScriptLift.Text.Blank
import ScriptLift.Text.Digit

/-!
# Number — whole numbers with a base

A whole number may have blanks around it, a sign, and a base marked by `0x`, `0o` or `0b`; without
a mark it is decimal, and may then start with a zero only if it is zero.  Between digits, and
behind the mark, a single underscore may stand.  A decimal number has a limited number of digits.
-/

namespace ScriptLift.Number

/-- The most digits that a decimal number may have. -/
def digitLimit : Nat := 4300

/-- The digits in `cs`, where single underscores separate them. -/
def digits? (base : Nat) : List Char → Option (List Nat)
  | [] => none
  | [c] => (Text.digit? base c).map fun d => [d]
  | c :: '_' :: cs => do return (← Text.digit? base c) :: (← digits? base cs)
  | c :: cs => do return (← Text.digit? base c) :: (← digits? base cs)

/-- The number that digits stand for. -/
def ofDigits (base : Nat) (ds : List Nat) : Nat :=
  ds.foldl (fun n d => base * n + d) 0

/-- The base that the letter of a mark stands for. -/
def markedBase? (c : Char) : Option Nat :=
  if c = 'x' || c = 'X' then some 16
  else if c = 'o' || c = 'O' then some 8
  else if c = 'b' || c = 'B' then some 2
  else none

/-- One underscore may stand behind a mark. -/
def behindMark : List Char → List Char
  | '_' :: cs => cs
  | cs => cs

/-- A decimal number without a sign. -/
def decimal? (cs : List Char) : Option Nat := do
  let ds ← digits? 10 cs
  if digitLimit < ds.length then none
  if ds.head? = some 0 && ds.any (· ≠ 0) then none
  return ofDigits 10 ds

/-- A number without a sign. -/
def unsigned? (cs : List Char) : Option Nat :=
  match cs with
  | z :: m :: rest =>
    match Text.decimalDigit? z, markedBase? m with
    | some 0, some base => (digits? base (behindMark rest)).map (ofDigits base)
    | _, _ => decimal? cs
  | _ => decimal? cs

/-- The whole number that a text stands for. -/
def integer? (s : String) : Option Int :=
  match Text.strip (fun c => Text.isBlank c && !Text.isSeparator c) s.toList with
  | '-' :: cs => (unsigned? cs).map fun n => -n
  | '+' :: cs => (unsigned? cs).map fun n => n
  | cs => (unsigned? cs).map fun n => n

end ScriptLift.Number
