import ScriptLift.Arch
import ScriptLift.Event
import ScriptLift.Zlib.Inflate

/-!
# Resources

A compiled script comes wrapped in a resource: a mark that tells the architecture, three words,
and a region of bytes.  A region that starts like a zlib stream and inflates cleanly stands for
the bytes it inflates to; any other region stands for itself.
-/

namespace ScriptLift

/-- A resource: its header, and the region behind it. -/
structure Resource where
  name : String
  size : Nat
  arch : Arch
  version : Nat
  virtualFlags : Nat
  physicalFlags : Nat
  region : List UInt8
  deriving DecidableEq, Repr

/-- The mark at the start of a resource. -/
def Arch.magic : Arch → List UInt8
  | .pc => [0x52, 0x53, 0x43, 0x37]
  | .console => [0x52, 0x53, 0x43, 0x85]

namespace Resource

/-- Why bytes are no resource. -/
inductive Error where
  | sizeExceeds (name : String) (size : Int) (available : Nat)
  | tooSmall (name : String) (size : Int)
  | badMagic (name : String) (found : List UInt8) (arch : Arch)
  deriving DecidableEq, Repr

/-- The text of an error, with the name of the resource in front. -/
def Error.message : Error → String
  | sizeExceeds name size available =>
    name ++ ": declared size " ++ toString size ++ " exceeds " ++ toString available ++ " bytes"
  | tooSmall name size =>
    name ++ ": " ++ toString size ++ " bytes is too small for a resource header"
  | badMagic name found arch =>
    name ++ ": bad resource magic " ++ Text.quotedBytes found ++ ", expected "
      ++ Text.quotedBytes arch.magic ++ " for " ++ arch.name

/-- The number of bytes before the region. -/
def headerSize : Nat := 16

/-- How a zlib stream may start. -/
def streamStarts : List (List UInt8) :=
  [[0x78, 0x01], [0x78, 0x5E], [0x78, 0x9C], [0x78, 0xDA]]

/-- The bytes that a region stands for, and what is reported about it. -/
def inflateRegion (name : String) (region : List UInt8) : List UInt8 × List Event :=
  if region.take 2 ∈ streamStarts then
    match Zlib.inflate? region with
    | some bytes => (bytes, [.inflated name bytes.length])
    | none => (region, [.readRaw name])
  else (region, [])

/-- The resource in the first `size` bytes of the data. -/
def unpack (data : List UInt8) (name : String) (size : Int) (arch : Arch) :
    Except Error (Resource × List Event) :=
  if data.length < size then .error (.sizeExceeds name size data.length)
  else if size < headerSize then .error (.tooSmall name size)
  else if data.take 4 ≠ arch.magic then .error (.badMagic name (data.take 4) arch)
  else
    let word (n : Nat) := arch.word ((data.drop n).take 4)
    let (region, events) := inflateRegion name ((data.take size.toNat).drop headerSize)
    .ok (⟨name, size.toNat, arch, word 4, word 8, word 12, region⟩, events)

/-- A region in its wrapping, compressed by `deflate` if told to, or nothing if a word does not fit
into four bytes. -/
def packWith (deflate : List UInt8 → List UInt8) (region : List UInt8) (arch : Arch)
    (version virtualFlags physicalFlags : Int) (compress : Bool) : Option (List UInt8) :=
  let words := [version, virtualFlags, physicalFlags]
  if words.all fun w => 0 ≤ w && w < 0x100000000 then
    some (arch.magic ++ words.flatMap (fun w => arch.bytes 4 w.toNat)
      ++ if compress then deflate region else region)
  else none

/-- A region in its wrapping, where a compressed one is a stream that holds the bytes as they
are. -/
def pack : List UInt8 → Arch → Int → Int → Int → Bool → Option (List UInt8) :=
  packWith Zlib.store

end Resource

end ScriptLift
