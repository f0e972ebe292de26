/-!
# Zlib — prefix codes

A prefix code is given by the length of each symbol's code word; a symbol of length zero has none.
Code words of one length are consecutive numbers in the order of their symbols, and go on behind
those of the next shorter length.  A code is therefore held as its symbols, sorted by length.

A set of lengths is *complete* when every infinite string of bits starts with a code word.
-/

namespace ScriptLift.Zlib

/-- The longest code word. -/
def maxLength : Nat := 15

/-- The symbols of each length, from length one on. -/
structure PrefixCode where
  levels : List (List Nat)
  deriving Repr

namespace PrefixCode

/-- The code whose words have the given lengths, symbol by symbol. -/
def ofLengths (lengths : List Nat) : PrefixCode :=
  ⟨(List.range maxLength).map fun n =>
    (lengths.zipIdx.filter fun p => p.1 = n + 1).map (·.2)⟩

/-- The share of all strings of `maxLength` bits that start with a code word. -/
def weight : List Nat → Nat
  | [] => 0
  | n :: lengths => (if n = 0 then 0 else Nat.pow 2 (maxLength - n)) + weight lengths

/-- Every infinite string of bits starts with a code word. -/
def isComplete (lengths : List Nat) : Bool :=
  weight lengths = Nat.pow 2 maxLength

/-- A single code word, of one bit. -/
def isSingle (lengths : List Nat) : Bool :=
  weight lengths = Nat.pow 2 (maxLength - 1) && lengths.all fun n => n ≤ 1

/-- The symbol whose code word comes next.  Of the code words of the length reached, `first` is
the number of the first one, and `code` is twice the number formed by the bits read. -/
def decodeFrom : List (List Nat) → Nat → Nat → List Bool → Option (Nat × List Bool)
  | [], _, _, _ => none
  | _, _, _, [] => none
  | symbols :: levels, code, first, b :: bits =>
    let code := code + b.toNat
    match symbols[code - first]? with
    | some symbol => some (symbol, bits)
    | none => decodeFrom levels (2 * code) (2 * (first + symbols.length)) bits

/-- The next symbol and the bits behind its code word. -/
def decode (c : PrefixCode) (bits : List Bool) : Option (Nat × List Bool) :=
  decodeFrom c.levels 0 0 bits

end PrefixCode

end ScriptLift.Zlib
