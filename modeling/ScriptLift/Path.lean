/-!
# Paths

A path is a root and the parts behind it.  Empty parts and single dots are dropped when a path is
read, two dots are kept.  A path without root and parts is written as a dot, and exactly two
slashes at the start are a root of their own.
-/

namespace ScriptLift

/-- A path, cut at its slashes. -/
structure Path where
  /-- Empty for a relative path. -/
  root : String
  parts : List String
  deriving DecidableEq, Repr

namespace Path

/-- The pieces of a text between slashes. -/
def pieces : List Char → List (List Char)
  | [] => [[]]
  | c :: cs =>
    match pieces cs with
    | [] => [[c]]
    | p :: ps => if c = '/' then [] :: p :: ps else (c :: p) :: ps

/-- The root that a text starts with. -/
def rootOf (cs : List Char) : String :=
  match (cs.takeWhile (· = '/')).length with
  | 0 => ""
  | 2 => "//"
  | _ => "/"

/-- The path of a text; empty parts and single dots are dropped. -/
def ofString (s : String) : Path :=
  ⟨rootOf s.toList, ((pieces s.toList).map String.ofList).filter fun p => p ≠ "" && p ≠ "."⟩

/-- The text of a path; the one with nothing in it is a dot. -/
def text (p : Path) : String :=
  if p.root = "" && p.parts.isEmpty then "." else p.root ++ "/".intercalate p.parts

/-- The last part. -/
def name (p : Path) : String :=
  p.parts.getLast?.getD ""

/-- The path without its last part. -/
def parent (p : Path) : Path :=
  { p with parts := p.parts.dropLast }

/-- The path that a text means from `p` on. -/
def join (p : Path) (s : String) : Path :=
  let q := ofString s
  if q.root = "" then { p with parts := p.parts ++ q.parts } else q

end Path

/-- What an option points to: a path, or nothing where it was given without one. -/
inductive Target where
  | path (p : Path)
  | nothing
  deriving DecidableEq, Repr

end ScriptLift
