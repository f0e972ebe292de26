import Mathlib
import ScriptLift.Region
import ScriptLift.Proofs.Bytecode.Grammar
import ScriptLift.Proofs.Words

/-!
# What a region declares

A region is written from hashes, code and whatever follows (`Region.write`): two counts, the hashes
and the code, each word in the byte order of the architecture.  The two counts say how long a region
has to be, and one that is shorter is refused before anything is decoded (`Script.Refuses`).

Reading and writing fit together exactly.  What was written is read back, the bytes behind the code
left aside, and a region that is not too short for its counts was written from something
(`Region.isWritten_of_not_isShort`), so there is nothing between the two cases
(`Script.unpack_write`).
-/

namespace ScriptLift

namespace Region

variable {arch : Arch} {name : String} {hs : List UInt64} {code trailing region : List UInt8}

/-! ### Hashes -/

/-- The hashes as the decoder has them. -/
def nativesOf (hs : List UInt64) : List Int :=
  hs.map fun h => (h.toNat : Int)

/-- The bytes of hashes. -/
def hashBytes (arch : Arch) (hs : List UInt64) : List UInt8 :=
  hs.flatMap fun h => arch.bytes 8 h.toNat

theorem length_hashBytes (arch : Arch) (hs : List UInt64) :
    (hashBytes arch hs).length = 8 * hs.length := by
  induction hs with
  | nil => rfl
  | cons h hs ih =>
      rw [hashBytes, List.flatMap_cons, List.length_append, Arch.length_bytes, ← hashBytes, ih,
        List.length_cons]
      omega

/-- Hashes are read back, whatever is behind them. -/
theorem hashes_hashBytes (arch : Arch) (hs : List UInt64) (rest : List UInt8) :
    hashes arch hs.length (hashBytes arch hs ++ rest) = nativesOf hs := by
  induction hs with
  | nil => rfl
  | cons h hs ih =>
      have hfront : (arch.bytes 8 h.toNat).length = 8 := arch.length_bytes 8 _
      rw [List.length_cons, hashes, hashBytes, List.flatMap_cons, List.append_assoc,
        List.take_left' hfront, List.drop_left' hfront, Arch.word_bytes h.toNat_lt, ← hashBytes, ih]
      rfl

/-- Bytes enough for some hashes are the bytes of hashes. -/
theorem exists_hashBytes (arch : Arch) {count : Nat} {bs : List UInt8} (h : 8 * count ≤ bs.length) :
    ∃ hs : List UInt64, hs.length = count ∧ bs = hashBytes arch hs ++ bs.drop (8 * count) := by
  induction count generalizing bs with
  | zero => exact ⟨[], rfl, rfl⟩
  | succ count ih =>
      have hfront : (bs.take 8).length = 8 := by
        rw [List.length_take]
        omega
      have hbehind : 8 * count ≤ (bs.drop 8).length := by
        rw [List.length_drop]
        omega
      obtain ⟨hs, hlength, hrest⟩ := ih hbehind
      have hlt : arch.word (bs.take 8) < 2 ^ 64 := Arch.word_lt hfront
      have hword : arch.bytes 8 (UInt64.ofNat (arch.word (bs.take 8))).toNat = bs.take 8 := by
        rw [UInt64.toNat_ofNat', Nat.mod_eq_of_lt hlt, Arch.bytes_word hfront]
      refine ⟨UInt64.ofNat (arch.word (bs.take 8)) :: hs, by rw [List.length_cons, hlength], ?_⟩
      calc bs = bs.take 8 ++ bs.drop 8 := (List.take_append_drop 8 bs).symm
        _ = bs.take 8 ++ (hashBytes arch hs ++ bs.drop (8 * (count + 1))) := by
            rw [List.drop_drop] at hrest
            rw [Nat.mul_succ, Nat.add_comm, ← hrest]
        _ = _ := by rw [hashBytes, hashBytes, List.flatMap_cons, hword, List.append_assoc]

/-! ### Regions -/

/-- The region of a script with the given hashes and code, and what follows the code. -/
def write (arch : Arch) (hs : List UInt64) (code trailing : List UInt8) : List UInt8 :=
  arch.bytes 4 code.length ++ (arch.bytes 4 hs.length ++ (hashBytes arch hs ++ (code ++ trailing)))

/-- The region is one that was written, with counts that fit their words. -/
def IsWritten (arch : Arch) (region : List UInt8) : Prop :=
  ∃ (hs : List UInt64) (code trailing : List UInt8),
    code.length < 2 ^ 32 ∧ hs.length < 2 ^ 32 ∧ region = write arch hs code trailing

/-- The size of the code that a region declares. -/
def codeSize (arch : Arch) (region : List UInt8) : Nat :=
  arch.word (region.take 4)

/-- The number of natives that a region declares. -/
def nativeCount (arch : Arch) (region : List UInt8) : Nat :=
  arch.word ((region.drop 4).take 4)

/-- There are fewer bytes than the counts take, or than they declare. -/
def IsShort (arch : Arch) (region : List UInt8) : Prop :=
  region.length < 8 ∨ region.length < 8 + 8 * nativeCount arch region + codeSize arch region

instance : Decidable (IsShort arch region) :=
  inferInstanceAs (Decidable (_ ∨ _))

theorem codeSize_write (h : code.length < 2 ^ 32) :
    codeSize arch (write arch hs code trailing) = code.length := by
  rw [codeSize, write, List.take_left' (arch.length_bytes 4 _), Arch.word_bytes h]

theorem nativeCount_write (h : hs.length < 2 ^ 32) :
    nativeCount arch (write arch hs code trailing) = hs.length := by
  rw [nativeCount, write, List.drop_left' (arch.length_bytes 4 _),
    List.take_left' (arch.length_bytes 4 _), Arch.word_bytes h]

theorem length_write :
    (write arch hs code trailing).length = 8 + 8 * hs.length + code.length + trailing.length := by
  simp only [write, List.length_append, Arch.length_bytes, length_hashBytes]
  omega

/-- Behind the two counts stand the hashes, -/
theorem drop_write :
    (write arch hs code trailing).drop 8 = hashBytes arch hs ++ (code ++ trailing) := by
  rw [write, ← List.append_assoc]
  exact List.drop_left' (by simp)

/-- and behind the hashes the code. -/
theorem drop_hashes_write :
    (write arch hs code trailing).drop (8 + 8 * hs.length) = code ++ trailing := by
  rw [← List.drop_drop, drop_write]
  exact List.drop_left' (length_hashBytes arch hs)

/-- A region that is written is as long as it declares, so it is not too short. -/
theorem not_isShort_write (hcode : code.length < 2 ^ 32) (hhs : hs.length < 2 ^ 32) :
    ¬ IsShort arch (write arch hs code trailing) := by
  rw [IsShort, codeSize_write hcode, nativeCount_write hhs, length_write]
  omega

/-- **A region that is not too short for its counts was written from something.** -/
theorem isWritten_of_not_isShort (h : ¬ IsShort arch region) : IsWritten arch region := by
  rw [IsShort, not_or, not_lt, not_lt] at h
  obtain ⟨hcounts, hlength⟩ := h
  have hsize : (region.take 4).length = 4 := by
    rw [List.length_take]
    omega
  have hcount : ((region.drop 4).take 4).length = 4 := by
    rw [List.length_take, List.length_drop]
    omega
  have henough : 8 * nativeCount arch region ≤ (region.drop 8).length := by
    rw [List.length_drop]
    omega
  obtain ⟨hs, hhs, hhashes⟩ := exists_hashBytes arch henough
  set behind := (region.drop 8).drop (8 * nativeCount arch region) with hbehind
  have hcode : (behind.take (codeSize arch region)).length = codeSize arch region := by
    rw [hbehind, List.length_take, List.length_drop, List.length_drop]
    omega
  refine ⟨hs, behind.take (codeSize arch region), behind.drop (codeSize arch region), ?_, ?_, ?_⟩
  · rw [hcode]
    exact Arch.word_lt hsize
  · rw [hhs]
    exact Arch.word_lt hcount
  · -- each part of the region is what is written for it
    rw [write, hcode, hhs, codeSize, Arch.bytes_word hsize, nativeCount, Arch.bytes_word hcount,
      List.take_append_drop, ← hhashes, ← List.append_assoc, ← List.take_add, List.take_append_drop]

/-- The error for a region that is too short. -/
def shortError (arch : Arch) (name : String) (region : List UInt8) : Bytecode.Error :=
  if region.length < 8 then .headerTruncated name
  else .headerMismatch name (nativeCount arch region) (codeSize arch region) region.length

/-- Only its length can be wrong with a region. -/
theorem sections_eq (arch : Arch) (name : String) (region : List UInt8) :
    sections arch name region =
      if IsShort arch region then .error (shortError arch name region)
      else .ok (hashes arch (nativeCount arch region) (region.drop 8),
        (region.drop (8 + 8 * nativeCount arch region)).take (codeSize arch region)) := by
  by_cases hcounts : region.length < 8
  · rw [sections, if_pos hcounts, if_pos (.inl hcounts), shortError, if_pos hcounts]
  · rw [sections, if_neg hcounts, shortError, if_neg hcounts]
    refine if_congr ?_ rfl rfl
    exact ⟨.inr, fun h => h.resolve_left hcounts⟩

theorem sections_write (hcode : code.length < 2 ^ 32) (hhs : hs.length < 2 ^ 32) :
    sections arch name (write arch hs code trailing) = .ok (nativesOf hs, code) := by
  rw [sections_eq, if_neg (not_isShort_write hcode hhs), codeSize_write hcode,
    nativeCount_write hhs, drop_write, hashes_hashBytes, drop_hashes_write, List.take_left]

end Region

/-- The decoder knows nothing of headers. -/
theorem Bytecode.Context.decode_error_ne_shortError (ctx : Context) (arch : Arch) (name : String)
    (code region : List UInt8) :
    (ctx.decode code).error ≠ some (Region.shortError arch name region) := by
  intro h
  obtain ⟨done, rest, is, stop, -, -, hstop, heq⟩ := ctx.exists_decodeFrom_eq 0 code
  obtain rfl : stop = some (Region.shortError arch name region) :=
    (congrArg Prod.snd heq).symm.trans h
  have htells := hstop.tells
  rw [Region.shortError] at htells
  split at htells <;> exact htells

namespace Script

open Region (IsWritten IsShort nativesOf shortError write)

variable {s : Script} {region : List UInt8}

/-- The script is not read from the region, for what stands before the code: there is the error of a
region that is too short, no instruction and no report, and the natives stay what they were. -/
def Refuses (s : Script) (region : List UInt8) : Prop :=
  s.unpack region = (s, ⟨[], some (shortError s.arch s.name region), []⟩)

theorem unpack_of_sections {natives : List Int} {code : List UInt8}
    (h : Region.sections s.arch s.name region = .ok (natives, code)) :
    s.unpack region
      = ({ s with natives }, (⟨s.arch, natives, s.native?⟩ : Bytecode.Context).decode code) := by
  rw [unpack, Region.unpack, h]
  rfl

theorem refuses_of_isShort (h : IsShort s.arch region) : s.Refuses region := by
  rw [Refuses, unpack, Region.unpack, Region.sections_eq, if_pos h]
  rfl

/-- An error in the code is never taken for one of what stands before it. -/
theorem not_refuses_of_isWritten (h : IsWritten s.arch region) : ¬ s.Refuses region := by
  obtain ⟨hs, code, trailing, hcode, hhs, rfl⟩ := h
  rw [Refuses, unpack_of_sections (Region.sections_write hcode hhs)]
  intro heq
  exact Bytecode.Context.decode_error_ne_shortError _ _ _ _ _
    (congrArg (fun out => out.2.error) heq)

/-- **A script is read from exactly what is declared.**  From the region written for some hashes and
some code it takes these hashes as its natives, and the code is decoded with them, whatever follows.
Every region was written so or is refused, not both, and it is refused exactly if it is too short
for its counts. -/
theorem unpack_write (s : Script) :
    (∀ (hs : List UInt64) (code trailing : List UInt8), code.length < 2 ^ 32 → hs.length < 2 ^ 32 →
      s.unpack (write s.arch hs code trailing) = ({ s with natives := nativesOf hs },
        (⟨s.arch, nativesOf hs, s.native?⟩ : Bytecode.Context).decode code)) ∧
    ∀ region, (IsWritten s.arch region ∨ s.Refuses region) ∧
      ¬ (IsWritten s.arch region ∧ s.Refuses region) ∧
        (s.Refuses region ↔ IsShort s.arch region) := by
  refine ⟨fun hs code trailing hcode hhs => unpack_of_sections (Region.sections_write hcode hhs),
    fun region => ⟨?_, fun h => not_refuses_of_isWritten h.1 h.2, ?_, refuses_of_isShort⟩⟩
  · by_cases h : IsShort s.arch region
    · exact .inr (refuses_of_isShort h)
    · exact .inl (Region.isWritten_of_not_isShort h)
  · intro h
    by_contra hshort
    exact not_refuses_of_isWritten (Region.isWritten_of_not_isShort hshort) h

/-- The code of a script with one native is cut off in the middle of a jump; the byte behind the
code would have completed it.  With the last byte of the code gone the region is refused. -/
theorem unpack_write_cutOff :
    let s : Script := { name := "s", arch := .console, native? := fun _ => none, natives := [7] }
    let region : List UInt8 :=
      [0, 0, 0, 6, 0, 0, 0, 1, 0xFF, 2, 3, 4, 5, 6, 7, 8, 44, 5, 0, 0, 85, 0, 9]
    s.unpack region = ({ s with natives := [0xFF02030405060708] },
        ⟨[⟨0, .op .native, .native 1 1 0xFF02030405060708 none none⟩], some (.truncated 5), []⟩) ∧
      s.Refuses (region.take 21) ∧ ¬ IsWritten .console (region.take 21) := by
  intro s region
  obtain ⟨hread, hcases⟩ := unpack_write s
  have hregion : region = write s.arch [0xFF02030405060708] [44, 5, 0, 0, 85, 0] [9] := by decide
  have hdecode : (⟨.console, [0xFF02030405060708], fun _ => none⟩ : Bytecode.Context).decode
      [44, 5, 0, 0, 85, 0]
      = ⟨[⟨0, .op .native, .native 1 1 0xFF02030405060708 none none⟩], some (.truncated 5),
        []⟩ := by
    cbv
  have hrefuses : s.Refuses (region.take 21) := (hcases _).2.2.mpr (by decide)
  refine ⟨?_, hrefuses, fun h => (hcases _).2.1 ⟨h, hrefuses⟩⟩
  rw [hregion, hread _ _ _ (by decide) (by decide), ← hdecode]
  rfl

end Script

end ScriptLift
