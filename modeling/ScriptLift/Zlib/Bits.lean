/-!
# Zlib — bits and checksums

Compressed data is read bit by bit, the lowest bit of each byte first.  A whole number of bits is
read lowest first; a piece of uncompressed data starts at the next whole byte.
-/

namespace ScriptLift.Zlib

/-- The eight bits of a byte, lowest first. -/
def byteBits (b : UInt8) : List Bool :=
  (List.range 8).map fun i => b.toNat.testBit i

/-- The bits of a string of bytes. -/
def bitsOf (bs : List UInt8) : List Bool :=
  bs.flatMap byteBits

/-- The number in the next `n` bits, lowest first. -/
def takeNumber : Nat → List Bool → Option (Nat × List Bool)
  | 0, bits => some (0, bits)
  | _ + 1, [] => none
  | n + 1, b :: bits => do
    let (m, bits) ← takeNumber n bits
    return (b.toNat + 2 * m, bits)

/-- The next `n` bytes. -/
def takeBytes : Nat → List Bool → Option (List UInt8 × List Bool)
  | 0, bits => some ([], bits)
  | n + 1, bits => do
    let (b, bits) ← takeNumber 8 bits
    let (bs, bits) ← takeBytes n bits
    return (UInt8.ofNat b :: bs, bits)

/-- What is left from the next whole byte on, given that the last byte is whole. -/
def align (bits : List Bool) : List Bool :=
  bits.drop (bits.length % 8)

/-- The checksum of a string of bytes: two sums modulo 65521, the second of the first. -/
def adler32 (bs : List UInt8) : Nat :=
  let (a, b) := bs.foldl (fun (a, b) x =>
    let a := (a + x.toNat) % 65521
    (a, (b + a) % 65521)) (1, 0)
  b * 65536 + a

end ScriptLift.Zlib
