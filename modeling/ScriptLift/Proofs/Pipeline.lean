import Mathlib
import ScriptLift.Decompile
import ScriptLift.Proofs.Bytecode.Sections
import ScriptLift.Proofs.Layout.Text
import ScriptLift.Proofs.Lift.Faults
import ScriptLift.Proofs.Structured.Nesting
import ScriptLift.Proofs.Wrapping

/-!
# From bytes to text

Whatever the bytes, unwrapping, decoding, lifting and writing a script come to a text, or to one of
four failures: the bytes are no resource, the region is no code, a routine returns more values than
one, or writing a routine takes more calls at once than there may be (`transpile_outcome`).  Once
the code is decoded, it is the third exactly if some piece of the code leads from its first
instruction to such a return (`ReturnsMany`), and else the fourth exactly if a lifted routine is
deeper than the limit (`Routine.depth`).  Such routines exist, and not only for a small limit: a
value that is negated often enough is too deep (`transpile_negations`).

Of the inflation of streams nothing is assumed: `Resource.unpackWith` takes any function for it, and
is `Resource.unpack` with the one that is used.
-/

namespace ScriptLift

/-! ### Unwrapping -/

namespace Resource

variable {inflate? : List UInt8 → Option (List UInt8)} {data : List UInt8} {name : String}
  {size : Int} {arch : Arch} {r : Resource}

/-- The bytes that a region stands for, where streams are inflated by `inflate?`. -/
def inflateWith (inflate? : List UInt8 → Option (List UInt8)) (region : List UInt8) : List UInt8 :=
  if streamStarts.contains (region.take 2) then (inflate? region).getD region else region

theorem inflateWith_inflate? (name : String) (region : List UInt8) :
    inflateWith Zlib.inflate? region = (inflateRegion name region).1 := by
  unfold inflateWith inflateRegion
  by_cases h : region.take 2 ∈ streamStarts
  · rw [if_pos (List.contains_iff_mem.mpr h), if_pos h]
    cases Zlib.inflate? region <;> rfl
  · rw [if_neg fun hc => h (List.contains_iff_mem.mp hc), if_neg h]

/-- The resource in the first `size` bytes of the data, where streams are inflated by `inflate?`. -/
def unpackWith (inflate? : List UInt8 → Option (List UInt8)) (data : List UInt8) (name : String)
    (size : Int) (arch : Arch) : Except Error Resource :=
  (unpack data name size arch).map fun (r, _) =>
    { r with region := inflateWith inflate? ((data.take size.toNat).drop headerSize) }

theorem unpackWith_inflate? (data : List UInt8) (name : String) (size : Int) (arch : Arch) :
    unpackWith Zlib.inflate? data name size arch = (unpack data name size arch).map (·.1) := by
  unfold unpackWith unpack
  split
  · rfl
  split
  · rfl
  split
  · rfl
  · rw [inflateWith_inflate? name]
    rfl

theorem whole_of_unpackWith (h : unpackWith inflate? data name size arch = .ok r) :
    r.Whole data := by
  unfold unpackWith at h
  cases hu : unpack data name size arch with
  | error e =>
      rw [hu] at h
      cases h
  | ok out =>
      obtain ⟨r', events⟩ := out
      rw [hu] at h
      cases h
      have hwhole := whole_of_unpack hu
      exact ⟨hwhole.version, hwhole.virtualFlags, hwhole.physicalFlags⟩

/-- A region that does not start like a stream is unpacked as it stands behind its header. -/
theorem unpackWith_header {version virtualFlags physicalFlags : Nat} {region : List UInt8}
    (inflate? : List UInt8 → Option (List UInt8)) (hversion : version < 2 ^ 32)
    (hvirtual : virtualFlags < 2 ^ 32) (hphysical : physicalFlags < 2 ^ 32) (name : String)
    (hstart : region.take 2 ∉ streamStarts) :
    unpackWith inflate? (header arch version virtualFlags physicalFlags ++ region) name
        (header arch version virtualFlags physicalFlags ++ region).length arch
      = .ok ⟨name, (header arch version virtualFlags physicalFlags ++ region).length, arch, version,
          virtualFlags, physicalFlags, region⟩ := by
  have hunpack := @unpack_header arch _ _ _ hversion hvirtual hphysical name region []
  rw [List.append_nil] at hunpack
  have hregion : ((header arch version virtualFlags physicalFlags ++ region).take
      (header arch version virtualFlags physicalFlags ++ region).length).drop headerSize
      = region := by
    rw [List.take_length, List.drop_left' length_header]
  have hinflate : inflateWith inflate? region = region := by
    rw [inflateWith, if_neg fun hc => hstart (List.contains_iff_mem.mp hc)]
  rw [unpackWith, hunpack, Int.toNat_natCast, hregion, hinflate]
  rfl

end Resource

/-! ### Writing -/

namespace Program

variable {p : Program} {limit : Nat}

/-- The text of the program, lifted, where at most `limit` calls may be open at once in a body. -/
def text? (p : Program) (limit : Nat) : Except Fault String := do
  let routines ← p.decompile.value
  Decompiled.text? ⟨⟨p.name, routines⟩, p.decompile.state.typing⟩ limit

/-- **What is lifted can be written, unless it is too deep.** -/
theorem text?_of_decompile {routines : List Routine} (h : p.decompile.value = .ok routines) :
    p.text? limit = if limit < (⟨p.name, routines⟩ : Listing).depth then .error .tooDeep
      else .ok ((⟨p.name, routines⟩ : Listing).text p.decompile.state.typing) := by
  have hlines : ∀ r ∈ routines, ∀ known, ∃ texts, lineTexts known r.lines = .ok texts := by
    intro r hr known
    obtain ⟨q, r₀, hr₀, hok, rfl⟩ := lifted_of_mem_liftAll h hr
    exact ⟨_, lineTexts_lift (code_ne_nil_of_mem hr₀) hok known⟩
  have htext : p.text? limit
      = (⟨p.name, routines⟩ : Listing).text? p.decompile.state.typing limit := by
    rw [text?, h]
    rfl
  rw [htext, Listing.text?_eq fun r hr => hlines r hr _]

end Program

/-! ### The whole way -/

/-- The text of the script in the first `size` bytes of the data, where at most `limit` calls may be
open at once in a body.  A script for which there is no dictionary is read with an empty one. -/
def transpile (limit : Nat) (inflate? : List UInt8 → Option (List UInt8)) (data : List UInt8)
    (name : String) (size : Int) (arch : Arch) (dictionary : Dictionary) :
    Except Failure String := do
  let r ← (Resource.unpackWith inflate? data name size arch).mapError .resource
  let d ← (decompileResource name r dictionary).1
  (d.text? limit).mapError .lifting

section

variable {limit : Nat} {inflate? : List UInt8 → Option (List UInt8)} {data : List UInt8}
  {name : String} {size : Int} {arch : Arch} {dictionary : Dictionary} {r : Resource}
  {natives : List Int} {d : Bytecode.Decoding}

/-- Bytes that are no resource have no text. -/
theorem transpile_of_resource {e : Resource.Error}
    (h : Resource.unpackWith inflate? data name size arch = .error e) :
    transpile limit inflate? data name size arch dictionary = .error (.resource e) := by
  rw [transpile, h]
  rfl

/-- A resource is decompiled and written. -/
theorem transpile_of_unpacked (h : Resource.unpackWith inflate? data name size arch = .ok r) :
    transpile limit inflate? data name size arch dictionary = (do
      let d ← (decompileResource name r dictionary).1
      (d.text? limit).mapError .lifting) := by
  rw [transpile, h]
  rfl

theorem transpile_of_sections {e : Bytecode.Error}
    (hr : Resource.unpackWith inflate? data name size arch = .ok r)
    (h : Region.unpack r.arch name dictionary.native? r.region = .error e) :
    transpile limit inflate? data name size arch dictionary = .error (.code e) := by
  rw [transpile_of_unpacked hr, decompileResource, Script.unpack, h]
  rfl

theorem transpile_of_code {e : Bytecode.Error}
    (hr : Resource.unpackWith inflate? data name size arch = .ok r)
    (h : Region.unpack r.arch name dictionary.native? r.region = .ok (natives, d))
    (he : d.error = some e) :
    transpile limit inflate? data name size arch dictionary = .error (.code e) := by
  obtain ⟨code, error, events⟩ := d
  cases he
  rw [transpile_of_unpacked hr, decompileResource, Script.unpack, h]
  rfl

/-- Decoded code is lifted and written. -/
theorem transpile_of_decoded (hr : Resource.unpackWith inflate? data name size arch = .ok r)
    (h : Region.unpack r.arch name dictionary.native? r.region = .ok (natives, d))
    (he : d.error = none) :
    transpile limit inflate? data name size arch dictionary
      = (Program.text? { name, code := d.instructions } limit).mapError .lifting := by
  obtain ⟨code, error, events⟩ := d
  cases he
  rw [transpile_of_unpacked hr, decompileResource, Script.unpack, h, Program.text?]
  dsimp only
  cases (Program.decompile { name, code }).value <;> rfl

/-- With the inflation that is used, this is the way a file goes. -/
theorem transpile_inflate? :
    transpile limit Zlib.inflate? data name size arch dictionary = (do
      let (r, _) ← (Resource.unpack data name size arch).mapError .resource
      let d ← (decompileResource name r dictionary).1
      (d.text? limit).mapError .lifting) := by
  rw [transpile, Resource.unpackWith_inflate?]
  cases Resource.unpack data name size arch <;> rfl

/-- **Decoded code is lifted, unless some piece of it returns too much**, and what is lifted has a
text, unless it is too deep. -/
theorem transpile_decoded (hr : Resource.unpackWith inflate? data name size arch = .ok r)
    (h : Region.unpack r.arch name dictionary.native? r.region = .ok (natives, d))
    (he : d.error = none) :
    (¬ ReturnsMany d.instructions → ∃ routines text,
      (Program.decompile { name, code := d.instructions }).value = .ok routines ∧
      transpile limit inflate? data name size arch dictionary
        = if limit < (⟨name, routines⟩ : Listing).depth then .error (.lifting .tooDeep)
          else .ok text) ∧
    (ReturnsMany d.instructions → ∃ routine count,
      (Program.decompile { name, code := d.instructions }).value
        = .error (.returnCount routine count) ∧
      transpile limit inflate? data name size arch dictionary
        = .error (.lifting (.returnCount routine count))) := by
  obtain ⟨hwf, hsorted, -⟩ := Region.unpack_spec h
  have hnodup : (d.instructions.map (·.address)).Nodup := hsorted.imp fun hlt => ne_of_lt hlt
  have hlift := Program.failsIff_decompile (p := { name, code := d.instructions }) rfl hnodup hwf
  rw [transpile_of_decoded hr h he]
  refine ⟨fun hn => ?_, fun hm => ?_⟩
  · obtain ⟨routines, hok⟩ := hlift.value hn
    refine ⟨routines, Listing.text ⟨name, routines⟩
      (Program.decompile { name, code := d.instructions }).state.typing, hok, ?_⟩
    rw [Program.text?_of_decompile hok]
    split <;> rfl
  · obtain ⟨routine, count, hfault⟩ := hlift.fault hm
    refine ⟨routine, count, hfault, ?_⟩
    rw [Program.text?, hfault]
    rfl

end

/-- **Whatever the bytes, the way to the text ends well, or the text is too deep.**  It comes to a
text, or the bytes are no resource, or the region is no code, or a routine returns more values than
one, or it needs more calls at once than there may be; every word that is read is there as a whole.
Once the code is decoded, a routine returns more values than one exactly if the first instruction of
some piece of the code leads to such a return; and the text is too deep exactly if the code is
lifted and some routine is. -/
theorem transpile_outcome (limit : Nat) (inflate? : List UInt8 → Option (List UInt8))
    (data : List UInt8) (name : String) (size : Int) (arch : Arch) (dictionary : Dictionary) :
    ((∃ text, transpile limit inflate? data name size arch dictionary = .ok text) ∨
      (∃ e, transpile limit inflate? data name size arch dictionary = .error (.resource e)) ∨
      (∃ e, transpile limit inflate? data name size arch dictionary = .error (.code e)) ∨
      (∃ routine count, transpile limit inflate? data name size arch dictionary
        = .error (.lifting (.returnCount routine count))) ∨
      transpile limit inflate? data name size arch dictionary = .error (.lifting .tooDeep)) ∧
    ∀ r, Resource.unpackWith inflate? data name size arch = .ok r → r.Whole data ∧
      ∀ natives d, Region.unpack r.arch name dictionary.native? r.region = .ok (natives, d) →
        (∃ code, Region.Whole r.arch r.region natives code) ∧
        (d.error = none →
          ((∃ routine count, transpile limit inflate? data name size arch dictionary
            = .error (.lifting (.returnCount routine count))) ↔ ReturnsMany d.instructions) ∧
          (transpile limit inflate? data name size arch dictionary = .error (.lifting .tooDeep) ↔
            ∃ routines, (Program.decompile { name, code := d.instructions }).value = .ok routines ∧
              ∃ q ∈ routines, limit < q.depth)) := by
  refine ⟨?_, fun r hr => ⟨Resource.whole_of_unpackWith hr, fun natives d hd =>
    ⟨(Region.unpack_spec hd).2.2, fun he => ?_⟩⟩⟩
  · -- the first step that fails decides; after decoding only the two failures of code are left
    cases hr : Resource.unpackWith inflate? data name size arch with
    | error e => exact .inr (.inl ⟨e, transpile_of_resource hr⟩)
    | ok r =>
        cases hu : Region.unpack r.arch name dictionary.native? r.region with
        | error e => exact .inr (.inr (.inl ⟨e, transpile_of_sections hr hu⟩))
        | ok out =>
            obtain ⟨natives, d⟩ := out
            cases he : d.error with
            | some e => exact .inr (.inr (.inl ⟨e, transpile_of_code hr hu he⟩))
            | none =>
                obtain ⟨hone, hmany⟩ := transpile_decoded hr hu he
                by_cases hm : ReturnsMany d.instructions
                · obtain ⟨routine, count, -, hfault⟩ := hmany hm
                  exact .inr (.inr (.inr (.inl ⟨routine, count, hfault⟩)))
                · obtain ⟨routines, text, -, htext⟩ := hone hm
                  split at htext
                  · exact .inr (.inr (.inr (.inr htext)))
                  · exact .inl ⟨text, htext⟩
  · -- a return of many values is met before anything is written, so the two exclude each other
    obtain ⟨hone, hmany⟩ := transpile_decoded hr hd he
    by_cases hm : ReturnsMany d.instructions
    · obtain ⟨routine, count, hvalue, hfault⟩ := hmany hm
      refine ⟨iff_of_true ⟨routine, count, hfault⟩ hm, iff_of_false ?_ ?_⟩
      · simp [hfault]
      · simp [hvalue]
    · obtain ⟨routines, text, hvalue, htext⟩ := hone hm
      have hdeep : limit < (⟨name, routines⟩ : Listing).depth ↔ ∃ q ∈ routines, limit < q.depth :=
        Listing.lt_depth_iff
      rw [htext]
      refine ⟨iff_of_false ?_ hm, fun h => ⟨routines, hvalue, hdeep.mp ?_⟩, ?_⟩
      · rintro ⟨routine, count, hfault⟩
        split at hfault <;> cases hfault
      · by_contra hn
        rw [if_neg hn] at h
        cases h
      · rintro ⟨routines', hvalue', hq⟩
        cases hvalue.symm.trans hvalue'
        rw [if_pos (hdeep.mpr hq)]

/-- The second piece of the code returns two values behind a jump. -/
theorem transpile_outcome_pair :
    let data : List UInt8 := [0x52, 0x53, 0x43, 0x37, 10, 0, 0, 0, 0, 0, 0, 0, 0, 0, 0, 0,
      19, 0, 0, 0, 0, 0, 0, 0, 46, 0, 0, 45, 1, 0, 0, 0, 56, 0, 86, 3, 0, 46, 1, 1, 46, 1, 2]
    ∃ routine count, transpile callLimit Zlib.inflate? data "pair" 43 .pc {}
      = .error (.lifting (.returnCount routine count)) := by
  intro data
  let piece : List Instruction := [⟨3, .op .enter, .enter 1 0 ""⟩, ⟨8, .op (.load .local), .slot 0⟩,
    ⟨10, .op .jumpIfZero, .branch 16⟩, ⟨13, .op .leave, .ret 1 1⟩, ⟨16, .op .leave, .ret 1 2⟩]
  have hr : Resource.unpackWith Zlib.inflate? data "pair" 43 .pc
      = .ok ⟨"pair", 43, .pc, 10, 0, 0, data.drop 16⟩ := by cbv
  have hu : Region.unpack .pc "pair" (Dictionary.native? {}) (data.drop 16)
      = .ok ([], ⟨⟨0, .op .leave, .ret 0 0⟩ :: piece, none, [.decoded 6 19]⟩) := by cbv
  have hpiece : piece ∈ chunks (⟨0, .op .leave, .ret 0 0⟩ :: piece) := by decide
  have hreach : Reachable piece 3 ⟨16, .op .leave, .ret 1 2⟩ := by
    refine .step (.step (.step (.entry (i := ⟨3, .op .enter, .enter 1 0 ""⟩) ?_ rfl)
      (j := ⟨8, .op (.load .local), .slot 0⟩) ?_ ?_)
      (j := ⟨10, .op .jumpIfZero, .branch 16⟩) ?_ ?_) ?_ ?_
    all_goals decide
  obtain ⟨-, hall⟩ := transpile_outcome callLimit Zlib.inflate? data "pair" 43 .pc {}
  exact (((hall _ hr).2 _ _ hu).2 rfl).1.mpr
    ⟨piece, hpiece, _, rfl, _, 2, hreach, rfl, by decide⟩

/-! ### A value that is too deep -/

section Negations

open Structured Bytecode

variable {n : Nat}

/-- Code that negates zero `n` times and returns what comes out. -/
def negationCode (n : Nat) : List UInt8 :=
  110 :: (List.replicate n 7 ++ [46, 0, 1])

theorem length_negationCode : (negationCode n).length = n + 4 := by
  simp [negationCode]

/-- Behind the first instruction, each byte is an instruction of its own up to the return. -/
theorem decodeFrom_negations (ctx : Context) (position : Nat) :
    ctx.decodeFrom position (List.replicate n 7 ++ [46, 0, 1])
      = (place (·) position (List.replicate n ⟨.unary .intNeg, .none⟩ ++ [⟨.leave, .ret 0 1⟩]),
        none) := by
  induction n generalizing position with
  | zero =>
      have hlast : ctx.instruction position 46 ⟨position + 1, [0, 1]⟩
          = .ok (⟨position, .op .leave, .ret 0 1⟩, ⟨position + 3, []⟩) := by
        obtain ⟨arch, natives, native?⟩ := ctx
        cases arch <;> rfl
      rw [List.replicate_zero, List.nil_append, Context.decodeFrom_cons hlast, Context.decodeFrom]
      rfl
  | succ n ih =>
      have hone : ctx.instruction position 7 ⟨position + 1, List.replicate n 7 ++ [46, 0, 1]⟩
          = .ok (⟨position, .op (.unary .intNeg), .none⟩,
            ⟨position + 1, List.replicate n 7 ++ [46, 0, 1]⟩) := rfl
      rw [List.replicate_succ, List.cons_append, Context.decodeFrom_cons hone, ih]
      rfl

/-- **The code is that of a program**, with its bytes for addresses. -/
theorem decode_negationCode (ctx : Context) :
    (ctx.decode (negationCode n)).instructions
        = (Source.returning (Term.negations n)).code (fun k => (k : Int)) ∧
      (ctx.decode (negationCode n)).error = none := by
  have hone : ctx.instruction 0 110 ⟨0 + 1, List.replicate n 7 ++ [46, 0, 1]⟩
      = .ok (⟨0, .op .push, .push [.int 0]⟩, ⟨1, List.replicate n 7 ++ [46, 0, 1]⟩) := rfl
  have hall : ctx.decodeFrom 0 (negationCode n)
      = ((Source.returning (Term.negations n)).code (fun k => (k : Int)), none) := by
    rw [negationCode, Context.decodeFrom_cons hone, decodeFrom_negations, Source.code_returning,
      Term.ops_negations]
    rfl
  rw [Context.decode, hall]
  exact ⟨rfl, rfl⟩

/-- **Zero negated too many times has no text**, though its code is lifted. -/
theorem transpile_negations {limit : Nat} (inflate? : List UInt8 → Option (List UInt8))
    (name : String) (dictionary : Dictionary) (hn : n + 4 < 2 ^ 32) (hlimit : limit < 2 * n + 6)
    (hstart : (Region.write .pc [] (negationCode n) []).take 2 ∉ Resource.streamStarts) :
    transpile limit inflate? (Resource.header .pc 10 0 0 ++ Region.write .pc [] (negationCode n) [])
        name (n + 28 : Nat) .pc dictionary
      = .error (.lifting .tooDeep) := by
  have hr := @Resource.unpackWith_header .pc 10 0 0 _ inflate? (by decide) (by decide) (by decide)
    name hstart
  have hsize : (Resource.header .pc 10 0 0 ++ Region.write .pc [] (negationCode n) []).length
      = n + 28 := by
    rw [List.length_append, Resource.length_header, Region.length_write, length_negationCode]
    simp only [Resource.headerSize, List.length_nil]
    omega
  rw [hsize] at hr
  obtain ⟨hinstructions, herror⟩ := decode_negationCode (n := n) ⟨.pc, [], dictionary.native?⟩
  have hu : Region.unpack .pc name dictionary.native? (Region.write .pc [] (negationCode n) [])
      = .ok ([], (⟨.pc, [], dictionary.native?⟩ : Context).decode (negationCode n)) := by
    have hcode : (negationCode n).length < 2 ^ 32 := by rwa [length_negationCode]
    rw [Region.unpack, Region.sections_write hcode (by decide)]
    rfl
  obtain ⟨locals, r, hvalue, hdepth⟩ := Source.le_depth_decompile_returning
    (p := { name, code := (Source.returning (Term.negations n)).code (fun k => (k : Int)) })
    Nat.strictMono_cast rfl rfl fun _ => Term.code_ne_enter_of_mem_negations
  rw [Term.depth_negations] at hdepth
  have hdeep : limit < (⟨name, [r]⟩ : Listing).depth :=
    Listing.lt_depth_iff.mpr ⟨r, List.mem_singleton.mpr rfl, by omega⟩
  rw [transpile_of_decoded hr hu herror, hinstructions, Program.text?_of_decompile hvalue,
    if_pos hdeep]
  rfl

/-- A script of some six thousand bytes that has no text. -/
theorem transpile_tooDeep :
    let data : List UInt8 := [0x52, 0x53, 0x43, 0x37, 10, 0, 0, 0, 0, 0, 0, 0, 0, 0, 0, 0,
      0x74, 0x17, 0, 0, 0, 0, 0, 0] ++ 110 :: (List.replicate 6000 7 ++ [46, 0, 1])
    transpile callLimit Zlib.inflate? data "a.ysc" 6028 .pc {} = .error (.lifting .tooDeep) := by
  intro data
  have hdata : data = Resource.header .pc 10 0 0 ++ Region.write .pc [] (negationCode 6000) [] := by
    rw [Region.write, length_negationCode, List.append_nil]
    rfl
  have hstart : (Region.write .pc [] (negationCode 6000) []).take 2 ∉ Resource.streamStarts := by
    rw [Region.write, length_negationCode, List.take_append_of_le_length (by decide)]
    decide
  rw [hdata]
  exact transpile_negations Zlib.inflate? "a.ysc" {} (by decide) (by decide) hstart

end Negations

end ScriptLift
