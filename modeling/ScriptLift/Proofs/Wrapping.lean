import Mathlib
import ScriptLift.Resource
import ScriptLift.Proofs.Stored
import ScriptLift.Proofs.Words

/-!
# Wrapping a region and unwrapping it

Unpacking undoes packing (`Resource.unpack_packWith`).  A packed region stands behind a header of
fixed size (`packWith_eq`), from which the words are read back in the byte order of the architecture
(`unpack_header`); whatever follows the declared size is not looked at.

The region is another matter: a region that is packed as it is may itself look like a stream, so it
comes back only if it does not inflate (`inflateRegion_eq_self`).  A compressed one comes back if
the compressor is one that inflating undoes (`Compresses`), which holds of the library's own
(`compresses_store`).
-/

namespace ScriptLift

theorem Arch.length_magic (arch : Arch) : arch.magic.length = 4 := by
  cases arch <;> rfl

/-- The magic tells the platform. -/
theorem Arch.magic_inj {arch arch' : Arch} : arch.magic = arch'.magic ↔ arch = arch' := by
  cases arch <;> cases arch' <;> decide

namespace Resource

variable {name : String} {arch : Arch} {region : List UInt8}
  {version virtualFlags physicalFlags : Nat}

/-! ### The region -/

/-- Inflating undoes what the compressor makes of the region. -/
def Compresses (deflate : List UInt8 → List UInt8) (region : List UInt8) : Prop :=
  (deflate region).take 2 ∈ streamStarts ∧ Zlib.inflate? (deflate region) = some region

/-- Storing is one way to compress. -/
theorem compresses_store (region : List UInt8) : Compresses Zlib.store region :=
  ⟨List.mem_cons_self, Zlib.inflate?_store region⟩

/-- A region that was compressed is inflated again. -/
theorem inflateRegion_of_compresses {deflate : List UInt8 → List UInt8}
    (h : Compresses deflate region) :
    (inflateRegion name (deflate region)).1 = region := by
  rw [inflateRegion, if_pos h.1, h.2]

/-- A region that is no stream stands for itself, also where it starts like one. -/
theorem inflateRegion_eq_self (h : region.take 2 ∉ streamStarts ∨ Zlib.inflate? region = none) :
    (inflateRegion name region).1 = region := by
  rw [inflateRegion]
  rcases h with hstart | hnone
  · rw [if_neg hstart]
  · rw [hnone]
    split <;> rfl

-- a region that is a stream is taken for what it inflates to, though nobody compressed it
example : (inflateRegion "" [0x78, 0x9C, 0x4B, 0x04, 0x00, 0x00, 0x62, 0x00, 0x62]).1 = [0x61] := by
  decide +kernel

/-! ### Unwrapping -/

/-- There are three ways for bytes to be refused, and no other. -/
theorem unpack_eq_error_iff {data : List UInt8} {size : Int} :
    (∃ e, unpack data name size arch = .error e)
      ↔ data.length < size ∨ size < headerSize ∨ data.take 4 ≠ arch.magic := by
  rw [unpack]
  split_ifs with hlong hshort hmagic <;> simp [*]

/-- A field of the header does not depend on what is behind it. -/
theorem take_drop_append {head : List UInt8} {n : Nat} (h : n + 4 ≤ head.length)
    (rest : List UInt8) :
    ((head ++ rest).drop n).take 4 = (head.drop n).take 4 := by
  rw [List.drop_append_of_le_length (by omega), List.take_append_of_le_length]
  rw [List.length_drop]
  omega

/-- **What is read of a resource is its header and what it declares as its own.** -/
theorem unpack_append {head : List UInt8} (hsize : head.length = headerSize)
    (hmagic : head.take 4 = arch.magic) (name : String) (body trailing : List UInt8) :
    unpack (head ++ body ++ trailing) name (head ++ body).length arch
      = .ok (⟨name, (head ++ body).length, arch, arch.word ((head.drop 4).take 4),
          arch.word ((head.drop 8).take 4), arch.word ((head.drop 12).take 4),
          (inflateRegion name body).1⟩, (inflateRegion name body).2) := by
  have hlong : ¬ ((head ++ body ++ trailing).length : Int) < (head ++ body).length := by
    simp only [List.length_append]
    omega
  have hshort : ¬ ((head ++ body).length : Int) < headerSize := by
    rw [List.length_append, hsize]
    omega
  have hfield : ∀ n ≤ 12, ((head ++ body ++ trailing).drop n).take 4 = (head.drop n).take 4 := by
    intro n hn
    rw [List.append_assoc]
    exact take_drop_append (by rw [hsize, headerSize]; omega) _
  have hstart : (head ++ body ++ trailing).take 4 = arch.magic := (hfield 0 (by omega)).trans hmagic
  have hbody : ((head ++ body ++ trailing).take (head ++ body).length).drop headerSize = body := by
    rw [List.take_left, List.drop_left' hsize]
  rw [unpack, if_neg hlong, if_neg hshort, if_neg (not_not_intro hstart)]
  simp only [Int.toNat_natCast, hbody, hfield 4 (by omega), hfield 8 (by omega),
    hfield 12 (by omega)]

/-! ### The header -/

/-- What stands before a region. -/
def header (arch : Arch) (version virtualFlags physicalFlags : Nat) : List UInt8 :=
  arch.magic ++ (arch.bytes 4 version ++ (arch.bytes 4 virtualFlags ++ arch.bytes 4 physicalFlags))

theorem length_header : (header arch version virtualFlags physicalFlags).length = headerSize := by
  simp only [header, List.length_append, Arch.length_magic, Arch.length_bytes, headerSize]

/-- The header starts with the magic. -/
theorem take_header : (header arch version virtualFlags physicalFlags).take 4 = arch.magic :=
  List.take_left' arch.length_magic

/-- A word is read where it was written. -/
theorem word_field {front : List UInt8} {n w : Nat} (hfront : front.length = n) (hw : w < 2 ^ 32)
    (rest : List UInt8) : arch.word (((front ++ (arch.bytes 4 w ++ rest)).drop n).take 4) = w := by
  rw [List.drop_left' hfront, List.take_left' (arch.length_bytes 4 w)]
  exact Arch.word_bytes hw

/-- The version is read back from the header; the flags below, too. -/
theorem word_version (h : version < 2 ^ 32) :
    arch.word (((header arch version virtualFlags physicalFlags).drop 4).take 4) = version :=
  word_field arch.length_magic h _

theorem word_virtualFlags (h : virtualFlags < 2 ^ 32) :
    arch.word (((header arch version virtualFlags physicalFlags).drop 8).take 4)
      = virtualFlags := by
  rw [header, ← List.append_assoc]
  exact word_field (by simp [Arch.length_magic]) h _

theorem word_physicalFlags (h : physicalFlags < 2 ^ 32) :
    arch.word (((header arch version virtualFlags physicalFlags).drop 12).take 4)
      = physicalFlags := by
  rw [header, ← List.append_assoc, ← List.append_assoc,
    ← List.append_nil (arch.bytes 4 physicalFlags)]
  exact word_field (by simp [Arch.length_magic]) h []

/-- **The words come back, and the region for what it stands for.** -/
theorem unpack_header (hversion : version < 2 ^ 32) (hvirtual : virtualFlags < 2 ^ 32)
    (hphysical : physicalFlags < 2 ^ 32) (name : String) (body trailing : List UInt8) :
    unpack (header arch version virtualFlags physicalFlags ++ body ++ trailing) name
        (header arch version virtualFlags physicalFlags ++ body).length arch
      = .ok (⟨name, (header arch version virtualFlags physicalFlags ++ body).length, arch, version,
          virtualFlags, physicalFlags, (inflateRegion name body).1⟩,
          (inflateRegion name body).2) := by
  rw [unpack_append length_header take_header, word_version hversion, word_virtualFlags hvirtual,
    word_physicalFlags hphysical]

/-- **What stands behind a header is refused for its size or for the architecture alone.** -/
theorem unpack_header_eq_error_iff (name : String) (rest : List UInt8) (size : Int) (arch' : Arch) :
    (∃ e, unpack (header arch version virtualFlags physicalFlags ++ rest) name size arch'
        = .error e) ↔
      (header arch version virtualFlags physicalFlags ++ rest).length < size ∨
        size < headerSize ∨ arch' ≠ arch := by
  have hmagic : (header arch version virtualFlags physicalFlags ++ rest).take 4 = arch.magic := by
    rw [List.take_append_of_le_length (by rw [length_header, headerSize]; omega), take_header]
  rw [unpack_eq_error_iff, hmagic, ne_comm, Ne, Ne, Arch.magic_inj]

/-- Wrapping puts the header in front, if its fields fit. -/
theorem packWith_eq (deflate : List UInt8 → List UInt8) (region : List UInt8) (compress : Bool)
    (hversion : version < 2 ^ 32) (hvirtual : virtualFlags < 2 ^ 32)
    (hphysical : physicalFlags < 2 ^ 32) :
    packWith deflate region arch version virtualFlags physicalFlags compress
      = some (header arch version virtualFlags physicalFlags
        ++ if compress then deflate region else region) := by
  have hfits : ∀ w : Nat, w < 2 ^ 32 → (0 ≤ (w : Int) && (w : Int) < 0x100000000) = true := by
    intro w hw
    rw [Bool.and_eq_true, decide_eq_true_iff, decide_eq_true_iff]
    omega
  have hall : ([(version : Int), virtualFlags, physicalFlags].all
      fun w => 0 ≤ w && w < 0x100000000) = true := by
    rw [List.all_cons, List.all_cons, List.all_cons, hfits _ hversion, hfits _ hvirtual,
      hfits _ hphysical]
    rfl
  rw [packWith, if_pos hall]
  simp only [header, List.flatMap_cons, List.flatMap_nil, Int.toNat_natCast, List.append_nil]

/-! ### Wrapping and unwrapping -/

/-- **Unpacking undoes packing.**  The compressor of `pack` is one that inflating undoes; with it or
with any other such one, a packed region is unpacked with its words, whatever follows it.  The
region is the one that was packed if it was compressed, and also if it was not and does not inflate.
Unpacking fails for the other architecture and for a size that is too small or too large, and in no
other case. -/
theorem unpack_packWith (region trailing : List UInt8) (arch : Arch) (name : String)
    (compress : Bool) (hversion : version < 2 ^ 32) (hvirtual : virtualFlags < 2 ^ 32)
    (hphysical : physicalFlags < 2 ^ 32) :
    Compresses Zlib.store region ∧
    ∀ deflate, (compress = true → Compresses deflate region) →
      ∃ packed,
        packWith deflate region arch version virtualFlags physicalFlags compress = some packed ∧
        (∃ region' events, unpack (packed ++ trailing) name packed.length arch
            = .ok (⟨name, packed.length, arch, version, virtualFlags, physicalFlags, region'⟩,
              events) ∧
          (compress = true ∨ region.take 2 ∉ streamStarts ∨ Zlib.inflate? region = none →
            region' = region)) ∧
        ∀ (size : Int) (arch' : Arch), (∃ e, unpack (packed ++ trailing) name size arch' = .error e)
          ↔ (packed ++ trailing).length < size ∨ size < headerSize ∨ arch' ≠ arch := by
  refine ⟨compresses_store region, fun deflate hdeflate => ?_⟩
  refine ⟨_, packWith_eq deflate region compress hversion hvirtual hphysical, ?_, ?_⟩
  · refine ⟨_, _, unpack_header hversion hvirtual hphysical name _ trailing, fun h => ?_⟩
    cases compress with
    | true => exact inflateRegion_of_compresses (hdeflate rfl)
    | false => exact inflateRegion_eq_self (h.resolve_left Bool.false_ne_true)
  · intro size arch'
    rw [List.append_assoc]
    exact unpack_header_eq_error_iff name _ size arch'

/-- A region that is much shorter when it is compressed, with the largest word there is. -/
theorem unpack_packWith_repeats :
    let region : List UInt8 := (List.replicate 6 [0x61, 0x62, 0x63]).flatten
    let deflate : List UInt8 → List UInt8 := fun _ =>
      [0x78, 0x9C, 0x4B, 0x4C, 0x4A, 0x4E, 0x44, 0x45, 0x00, 0x41, 0x7C, 0x06, 0xE5, 0x13]
    Compresses deflate region ∧
      ∃ packed, packWith deflate region .console 10 (2 ^ 32 - 1) 0 true = some packed ∧
        (∃ events, unpack (packed ++ [0xFF]) "repeats" packed.length .console
          = .ok (⟨"repeats", packed.length, .console, 10, 2 ^ 32 - 1, 0, region⟩, events)) ∧
        ∃ e, unpack (packed ++ [0xFF]) "repeats" packed.length .pc = .error e := by
  intro region deflate
  have hdeflate : Compresses deflate region := ⟨by decide, by decide +kernel⟩
  have hundone := unpack_packWith region [0xFF] .console "repeats" true (by decide : 10 < 2 ^ 32)
    (by decide : 2 ^ 32 - 1 < 2 ^ 32) (by decide : 0 < 2 ^ 32)
  obtain ⟨packed, hpacked, ⟨region', events, hunpack, hregion⟩, hfails⟩ :=
    hundone.2 deflate fun _ => hdeflate
  rw [hregion (.inl rfl)] at hunpack
  exact ⟨hdeflate, packed, hpacked, ⟨events, hunpack⟩, (hfails _ _).mpr (.inr (.inr (by decide)))⟩

end Resource

end ScriptLift
