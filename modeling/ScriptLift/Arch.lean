/-!
# Architectures

A script is compiled for a console, whose words are big-endian, or for a PC, whose words are
little-endian.  A path tells which by a marker anywhere in it, the console's first.

A word of any width is read from its bytes (`Arch.word`) and written to them (`Arch.bytes`).
-/

namespace ScriptLift

/-- The platform a resource is for. -/
inductive Arch where
  | console
  | pc
  deriving DecidableEq, Repr

/-- `pattern` occurs somewhere in the text. -/
def occursIn (pattern : List Char) : List Char → Bool
  | [] => pattern.isEmpty
  | c :: cs => pattern.isPrefixOf (c :: cs) || occursIn pattern cs

namespace Arch

/-- The marker in a path. -/
def marker : Arch → String
  | console => "xsc"
  | pc => "ysc"

/-- The name of a platform in messages. -/
def name : Arch → String
  | console => "CONSOLE"
  | pc => "PC"

/-- The order of the bytes in a word, in words and as a sign. -/
def byteOrder : Arch → String × String
  | console => ("big", ">")
  | pc => ("little", "<")

/-- The architecture that a path tells of. -/
def ofPath? (path : String) : Option Arch :=
  if occursIn console.marker.toList path.toList then some console
  else if occursIn pc.marker.toList path.toList then some pc
  else none

end Arch

/-- The number that bytes stand for, the least significant first. -/
def littleEndian : List UInt8 → Nat
  | [] => 0
  | b :: bs => b.toNat + 256 * littleEndian bs

/-- The `width` bytes of a number, the least significant first. -/
def toLittleEndian : Nat → Nat → List UInt8
  | 0, _ => []
  | width + 1, n => UInt8.ofNat n :: toLittleEndian width (n / 256)

namespace Arch

/-- The number that bytes stand for. -/
def word : Arch → List UInt8 → Nat
  | console, bs => littleEndian bs.reverse
  | pc, bs => littleEndian bs

/-- The `width` bytes of a number. -/
def bytes : Arch → Nat → Nat → List UInt8
  | console, width, n => (toLittleEndian width n).reverse
  | pc, width, n => toLittleEndian width n

end Arch

/-- Sixteen bits read as a number with a sign. -/
def signed16 (n : Nat) : Int :=
  if n < 0x8000 then n else n - 0x10000

end ScriptLift
