import ScriptLift.Zlib.Bits
import ScriptLift.Zlib.Huffman

/-!
# Zlib — inflating

A zlib stream is a two-byte header, blocks of data, and a checksum; bytes behind it are of no
interest.  A block holds its bytes as they are, or encoded by two prefix codes, one for bytes and
lengths and one for distances, that are either fixed or described in the block.  A length and a
distance stand for bytes that came before.

Every block and every symbol uses up bits, so the number of bits bounds the number of steps.
-/

namespace ScriptLift.Zlib

/-- The base and the number of extra bits for each symbol of length or distance. -/
abbrev Scale : Type :=
  List (Nat × Nat)

/-- The lengths, from symbol 257 on. -/
def lengthScale : Scale :=
  [(3, 0), (4, 0), (5, 0), (6, 0), (7, 0), (8, 0), (9, 0), (10, 0), (11, 1), (13, 1), (15, 1),
   (17, 1), (19, 2), (23, 2), (27, 2), (31, 2), (35, 3), (43, 3), (51, 3), (59, 3), (67, 4),
   (83, 4), (99, 4), (115, 4), (131, 5), (163, 5), (195, 5), (227, 5), (258, 0)]

/-- The distances, from symbol 0 on. -/
def distanceScale : Scale :=
  [(1, 0), (2, 0), (3, 0), (4, 0), (5, 1), (7, 1), (9, 2), (13, 2), (17, 3), (25, 3), (33, 4),
   (49, 4), (65, 5), (97, 5), (129, 6), (193, 6), (257, 7), (385, 7), (513, 8), (769, 8),
   (1025, 9), (1537, 9), (2049, 10), (3073, 10), (4097, 11), (6145, 11), (8193, 12), (12289, 12),
   (16385, 13), (24577, 13)]

/-- The value of a symbol, with its extra bits. -/
def Scale.value (s : Scale) (symbol : Nat) (bits : List Bool) : Option (Nat × List Bool) := do
  let (base, extra) ← s[symbol]?
  let (n, bits) ← takeNumber extra bits
  return (base + n, bits)

/-- `count` more bytes, each equal to the one `distance` before it. -/
def repeatBytes (distance : Nat) : Nat → Array UInt8 → Array UInt8
  | 0, out => out
  | count + 1, out => repeatBytes distance count (out.push (out[out.size - distance]?.getD 0))

/-- The encoded bytes up to the end of the block, in at most `fuel` symbols. -/
def inflateSymbols (bytes distances : PrefixCode) :
    Nat → Array UInt8 → List Bool → Option (Array UInt8 × List Bool)
  | 0, _, _ => none
  | fuel + 1, out, bits => do
    let (symbol, bits) ← bytes.decode bits
    if symbol < 256 then inflateSymbols bytes distances fuel (out.push (UInt8.ofNat symbol)) bits
    else if symbol = 256 then return (out, bits)
    else
      let (length, bits) ← lengthScale.value (symbol - 257) bits
      let (symbol, bits) ← distances.decode bits
      let (distance, bits) ← distanceScale.value symbol bits
      if out.size < distance then none
      else inflateSymbols bytes distances fuel (repeatBytes distance length out) bits

/-! ### Codes described in a block -/

/-- The order in which the lengths for the code of lengths are given. -/
def lengthOrder : List Nat :=
  [16, 17, 18, 0, 8, 7, 9, 6, 10, 5, 11, 4, 12, 3, 13, 2, 14, 1, 15]

/-- The next `n` numbers of three bits. -/
def takeTriples : Nat → List Bool → Option (List Nat × List Bool)
  | 0, bits => some ([], bits)
  | n + 1, bits => do
    let (x, bits) ← takeNumber 3 bits
    let (xs, bits) ← takeTriples n bits
    return (x :: xs, bits)

/-- The lengths encoded by `code`, up to `total` of them, behind those in `lengths`.  Symbol 16
repeats the last length, 17 and 18 repeat zero. -/
def readLengths (code : PrefixCode) (total : Nat) :
    Nat → List Nat → List Bool → Option (List Nat × List Bool)
  | 0, _, _ => none
  | fuel + 1, lengths, bits => do
    if lengths.length = total then return (lengths, bits)
    let (symbol, bits) ← code.decode bits
    let (length, count, bits) ←
      if symbol < 16 then some (symbol, 1, bits)
      else if symbol = 16 then do
        let last ← lengths.getLast?
        let (n, bits) ← takeNumber 2 bits
        pure (last, 3 + n, bits)
      else if symbol = 17 then do
        let (n, bits) ← takeNumber 3 bits
        pure (0, 3 + n, bits)
      else do
        let (n, bits) ← takeNumber 7 bits
        pure (0, 11 + n, bits)
    if total < lengths.length + count then none
    else readLengths code total fuel (lengths ++ List.replicate count length) bits

/-- The two codes described at the start of a block.  The code of lengths must be complete.  The
code of bytes must be able to end the block; it and the code of distances must be complete or have
a single word, and the code of distances may have none. -/
def readCodes (bits : List Bool) : Option (PrefixCode × PrefixCode × List Bool) := do
  let (n, bits) ← takeNumber 5 bits
  let (d, bits) ← takeNumber 5 bits
  let (c, bits) ← takeNumber 4 bits
  let byteCount := n + 257
  let distanceCount := d + 1
  if 286 < byteCount || 30 < distanceCount then none
  let (triples, bits) ← takeTriples (c + 4) bits
  let given := lengthOrder.zip triples
  let lengthLengths := (List.range 19).map fun symbol => (given.lookup symbol).getD 0
  if !PrefixCode.isComplete lengthLengths then none
  let total := byteCount + distanceCount
  let (lengths, bits) ← readLengths (.ofLengths lengthLengths) total (total + 1) [] bits
  let bytes := lengths.take byteCount
  let distances := lengths.drop byteCount
  if bytes[256]?.getD 0 = 0 then none
  if !(PrefixCode.isComplete bytes || PrefixCode.isSingle bytes) then none
  if !(PrefixCode.isComplete distances || PrefixCode.isSingle distances
      || distances.all (· = 0)) then none
  return (.ofLengths bytes, .ofLengths distances, bits)

/-! ### Blocks -/

/-- The fixed code of bytes and lengths. -/
def fixedBytes : PrefixCode :=
  .ofLengths (List.replicate 144 8 ++ List.replicate 112 9 ++ List.replicate 24 7
    ++ List.replicate 8 8)

/-- The fixed code of distances. -/
def fixedDistances : PrefixCode :=
  .ofLengths (List.replicate 32 5)

/-- A block that holds its bytes as they are, behind their number and its complement. -/
def inflateStored (out : Array UInt8) (bits : List Bool) : Option (Array UInt8 × List Bool) := do
  let (length, bits) ← takeNumber 16 (align bits)
  let (complement, bits) ← takeNumber 16 bits
  if length + complement ≠ 0xFFFF then none
  let (bs, bits) ← takeBytes length bits
  return (out ++ bs.toArray, bits)

/-- One block of the given form. -/
def inflateBlock (form : Nat) (out : Array UInt8) (bits : List Bool) :
    Option (Array UInt8 × List Bool) :=
  match form with
  | 0 => inflateStored out bits
  | 1 => inflateSymbols fixedBytes fixedDistances (bits.length + 1) out bits
  | 2 => do
    let (bytes, distances, bits) ← readCodes bits
    inflateSymbols bytes distances (bits.length + 1) out bits
  | _ => none

/-- The blocks up to the one marked as the last, at most `fuel` of them. -/
def inflateBlocks : Nat → Array UInt8 → List Bool → Option (Array UInt8 × List Bool)
  | 0, _, _ => none
  | fuel + 1, out, bits => do
    let (last, bits) ← takeNumber 1 bits
    let (form, bits) ← takeNumber 2 bits
    let (out, bits) ← inflateBlock form out bits
    if last = 1 then return (out, bits) else inflateBlocks fuel out bits

/-- The bytes that a zlib stream holds, if it is whole and its checksum is right. -/
def inflate? (stream : List UInt8) : Option (List UInt8) := do
  let bits := bitsOf (stream.drop 2)
  let (out, bits) ← inflateBlocks (bits.length + 1) #[] bits
  let (sum, _) ← takeBytes 4 (align bits)
  let bytes := out.toList
  if sum.foldl (fun n b => 256 * n + b.toNat) 0 = adler32 bytes then some bytes else none

/-! ### Streams without compression -/

/-- One block that holds its bytes as they are. -/
def storedBlock (last : Bool) (bs : List UInt8) : List UInt8 :=
  let n := bs.length
  [if last then 1 else 0, UInt8.ofNat n, UInt8.ofNat (n / 256),
    UInt8.ofNat (0xFFFF - n), UInt8.ofNat ((0xFFFF - n) / 256)] ++ bs

/-- The most bytes that one block can hold as they are. -/
def blockLimit : Nat := 0xFFFF

/-- The bytes in as many blocks as they need. -/
def storedBlocks (bs : List UInt8) : List UInt8 :=
  if bs.length ≤ blockLimit then storedBlock true bs
  else storedBlock false (bs.take blockLimit) ++ storedBlocks (bs.drop blockLimit)
termination_by bs.length
decreasing_by simp only [List.length_drop, blockLimit] at *; omega

/-- A zlib stream that holds the bytes as they are. -/
def store (bs : List UInt8) : List UInt8 :=
  let sum := adler32 bs
  [0x78, 0x01] ++ storedBlocks bs
    ++ [UInt8.ofNat (sum / 0x1000000), UInt8.ofNat (sum / 0x10000), UInt8.ofNat (sum / 0x100),
      UInt8.ofNat sum]

end ScriptLift.Zlib
