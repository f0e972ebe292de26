import ScriptLift.Bytecode.Decode

/-!
# Script regions

The region of a script holds the size of its code, the number of natives it refers to, their
hashes, and the code.  Whatever follows the code is of no interest.

A script keeps the natives of the region that it was last read from (`Script.unpack`).
-/

namespace ScriptLift.Region

/-- The next `count` words of eight bytes. -/
def hashes (arch : Arch) : Nat → List UInt8 → List Int
  | 0, _ => []
  | count + 1, bs => (arch.word (bs.take 8) : Int) :: hashes arch count (bs.drop 8)

/-- The hashes and the code in a region. -/
def sections (arch : Arch) (name : String) (region : List UInt8) :
    Except Bytecode.Error (List Int × List UInt8) :=
  if region.length < 8 then .error (.headerTruncated name)
  else
    let codeSize := arch.word (region.take 4)
    let count := arch.word ((region.drop 4).take 4)
    let start := 8 + 8 * count
    if region.length < start + codeSize then
      .error (.headerMismatch name count codeSize region.length)
    else .ok (hashes arch count (region.drop 8), (region.drop start).take codeSize)

/-- The natives of a script, and its code decoded with what `native?` knows about them. -/
def unpack (arch : Arch) (name : String) (native? : Int → Option Native) (region : List UInt8) :
    Except Bytecode.Error (List Int × Bytecode.Decoding) := do
  let (natives, code) ← sections arch name region
  let ctx : Bytecode.Context := ⟨arch, natives, native?⟩
  return (natives, ctx.decode code)

end ScriptLift.Region

namespace ScriptLift

/-- A script that regions are decoded for. -/
structure Script where
  name : String
  arch : Arch
  /-- What a dictionary knows of a native. -/
  native? : Int → Option Native
  /-- The natives of the region read last. -/
  natives : List Int := []

/-- Read the script from a region.  The natives are set before the code is decoded, and the
instructions before an error in the code are kept. -/
def Script.unpack (s : Script) (region : List UInt8) : Script × Bytecode.Decoding :=
  match Region.unpack s.arch s.name s.native? region with
  | .error e => (s, ⟨[], some e, []⟩)
  | .ok (natives, decoding) => ({ s with natives }, decoding)

end ScriptLift
