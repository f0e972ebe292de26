import Mathlib
import ScriptLift.Region
import ScriptLift.Proofs.Bytecode.Grammar

/-!
# The two byte orders

A region for one architecture is turned into one for the other by reversing the bytes of every word:
the two counts, each hash, and in the code every field of every instruction (`Region.turn`).  Where
the words of the code are is known only from its opcodes, so `turnCode` follows them, without
decoding.

Turning back gives the region (`Region.turn_turn`), and both architectures read the same natives and
the same instructions from a region and from the turned one (`Region.unpack_turn_iff`).
-/

namespace ScriptLift

/-! ### Words of given widths -/

/-- Reverse the bytes of each word, for words of the given widths at the front, and do with what is
behind them as told. -/
def turnWords (behind : List UInt8 → List UInt8) : List Nat → List UInt8 → List UInt8
  | [], bs => behind bs
  | width :: widths, bs => (bs.take width).reverse ++ turnWords behind widths (bs.drop width)

section TurnWords

variable {behind : List UInt8 → List UInt8}

/-- Turning moves bytes about and neither adds nor drops any. -/
theorem length_turnWords (hbehind : ∀ bs, (behind bs).length = bs.length) (widths : List Nat)
    (bs : List UInt8) : (turnWords behind widths bs).length = bs.length := by
  induction widths generalizing bs with
  | nil => exact hbehind bs
  | cons width widths ih =>
      rw [turnWords, List.length_append, List.length_reverse, ih, ← List.length_append,
        List.take_append_drop]

/-- Where the first `n` bytes and those behind them are changed and keep their numbers, the new
bytes divide as the old. -/
theorem take_drop_of_length (n : Nat) (bs : List UInt8) {front back : List UInt8}
    (hfront : front.length = (bs.take n).length) (hback : back.length = (bs.drop n).length) :
    (front ++ back).take n = front ∧ (front ++ back).drop n = back := by
  rw [List.length_take] at hfront
  rw [List.length_drop] at hback
  obtain hlt | hle := Nat.lt_or_ge bs.length n
  · obtain rfl : back = [] := List.length_eq_zero_iff.mp (by omega)
    rw [List.append_nil]
    exact ⟨List.take_of_length_le (by omega), List.drop_of_length_le (by omega)⟩
  · have hn : front.length = n := by omega
    exact ⟨List.take_left' hn, List.drop_left' hn⟩

/-- The first word is turned, and the others are turned behind it. -/
theorem turnWords_cons (hbehind : ∀ bs, (behind bs).length = bs.length) (width : Nat)
    (widths : List Nat) (bs : List UInt8) :
    (turnWords behind (width :: widths) bs).take width = (bs.take width).reverse ∧
      (turnWords behind (width :: widths) bs).drop width
        = turnWords behind widths (bs.drop width) :=
  take_drop_of_length width bs List.length_reverse (length_turnWords hbehind widths _)

/-- What stands behind the words is where it was. -/
theorem drop_turnWords (hbehind : ∀ bs, (behind bs).length = bs.length) (widths : List Nat)
    (bs : List UInt8) :
    (turnWords behind widths bs).drop widths.sum = behind (bs.drop widths.sum) := by
  induction widths generalizing bs with
  | nil => rfl
  | cons width widths ih =>
      rw [List.sum_cons, ← List.drop_drop, (turnWords_cons hbehind width widths bs).2, ih,
        List.drop_drop]

/-- Turning twice gives the bytes back, if it does so behind the words. -/
theorem turnWords_turnWords {behind' : List UInt8 → List UInt8}
    (hbehind : ∀ bs, (behind bs).length = bs.length) (hback : ∀ bs, behind' (behind bs) = bs)
    (widths : List Nat) (bs : List UInt8) :
    turnWords behind' widths (turnWords behind widths bs) = bs := by
  induction widths generalizing bs with
  | nil => exact hback bs
  | cons width widths ih =>
      obtain ⟨htake, hdrop⟩ := turnWords_cons hbehind width widths bs
      rw [turnWords, htake, hdrop, List.reverse_reverse, ih, List.take_append_drop]

end TurnWords

namespace Bytecode

/-! ### Code -/

/-- Reverse the bytes of each field at the front. -/
def turnFields (fields : List Field) (bs : List UInt8) : List UInt8 :=
  turnWords id (fields.map Field.width) bs

/-- The number of bytes that operands of a format take, where they begin with the given bytes.  The
head of a routine has the length of its name in the last byte before it. -/
def Format.size : Format → List UInt8 → Nat
  | .enter, bs => 4 + (bs.getD 3 0).toNat
  | format, _ => (format.fields.map Field.width).sum

/-- Reverse the bytes of every field.  What is behind an opcode that is not in use is left as it
is. -/
def turnCode : List UInt8 → List UInt8
  | [] => []
  | opcode :: rest =>
    match lookup opcode with
    | none => opcode :: rest
    | some (_, format) =>
      opcode :: (turnFields format.fields (rest.take (format.size rest))
        ++ turnCode (rest.drop (format.size rest)))
termination_by bs => bs.length
decreasing_by
  simp only [List.length_drop, List.length_cons]
  omega

theorem length_turnFields (fields : List Field) (bs : List UInt8) :
    (turnFields fields bs).length = bs.length :=
  length_turnWords (fun _ => rfl) _ bs

/-- The operands of one instruction, turned twice. -/
theorem turnFields_turnFields (fields : List Field) (bs : List UInt8) :
    turnFields fields (turnFields fields bs) = bs :=
  turnWords_turnWords (fun _ => rfl) (fun _ => rfl) _ bs

/-- Bytes change places within their fields only. -/
theorem length_turnCode (code : List UInt8) : (turnCode code).length = code.length := by
  fun_induction turnCode code with
  | case1 => rfl
  | case2 => rfl
  | case3 opcode rest o format hl ih =>
      rw [List.length_cons, List.length_append, length_turnFields, ih, ← List.length_append,
        List.take_append_drop, List.length_cons]

/-- The length of a name is where it was, or there is none. -/
theorem size_turnFields {format : Format} {rest behind : List UInt8}
    (hbehind : behind.length = (rest.drop (format.size rest)).length) :
    format.size (turnFields format.fields (rest.take (format.size rest)) ++ behind)
      = format.size rest := by
  cases format with
  | none | push | constant | slot | branch | call | leave | native => rfl
  | enter =>
      obtain _ | ⟨a, _ | ⟨b, _ | ⟨c, _ | ⟨d, rest⟩⟩⟩⟩ := rest
      -- with fewer than four bytes nothing is behind them
      iterate 4
        · obtain rfl : behind = [] := List.length_eq_zero_iff.mp hbehind
          rfl
      · change 4 + ((turnFields _ ((a :: b :: c :: d :: rest).take (4 + d.toNat)) ++ behind).getD 3
          0).toNat = 4 + d.toNat
        rw [Nat.add_comm 4 d.toNat]
        exact Nat.add_comm 4 d.toNat

/-- **Turning code twice gives it back.**  The second pass cuts it as the first did, since the
opcode and the length of a name are single bytes. -/
theorem turnCode_turnCode (code : List UInt8) : turnCode (turnCode code) = code := by
  fun_induction turnCode code with
  | case1 => rw [turnCode]
  | case2 opcode rest hl => rw [turnCode, hl]
  | case3 opcode rest o format hl ih =>
      have hbehind := length_turnCode (rest.drop (format.size rest))
      obtain ⟨htake, hdrop⟩ := take_drop_of_length (format.size rest) rest
        (length_turnFields format.fields _) hbehind
      rw [turnCode, hl]
      dsimp only
      rw [size_turnFields hbehind, htake, hdrop, ih, turnFields_turnFields, List.take_append_drop]

/-- **Turned encodings are those of the other architecture.** -/
theorem turnFields_written {arch : Arch} {fields : List Field} {ns : List Nat} (h : Fits fields ns)
    (name : List UInt8) :
    turnFields fields (written arch fields ns ++ name) = written arch.other fields ns ++ name := by
  induction h with
  | nil => rfl
  | cons hn _ ih =>
      rw [turnFields, List.map_cons, turnWords, written, List.append_assoc,
        List.take_left' (Arch.length_bytes ..), List.drop_left' (Arch.length_bytes ..),
        ← Arch.bytes_other, written, List.append_assoc]
      exact congrArg _ ih

/-- Fields that fit take the sum of their widths. -/
theorem length_written {arch : Arch} {fields : List Field} {ns : List Nat} (h : Fits fields ns) :
    (written arch fields ns).length = (fields.map Field.width).sum := by
  induction h with
  | nil => rfl
  | cons hn _ ih =>
      rw [written, List.length_append, Arch.length_bytes, ih, List.map_cons, List.sum_cons]

/-- The size that turning goes by is that of the encoding. -/
theorem size_written {arch : Arch} {format : Format} {ns : List Nat} {name : List UInt8}
    (hfit : Fits format.fields ns) (hname : name.length = format.nameLength ns)
    (behind : List UInt8) :
    format.size (written arch format.fields ns ++ name ++ behind)
      = (written arch format.fields ns ++ name).length := by
  rw [List.length_append, length_written hfit, hname]
  cases format with
  | none | push | constant | slot | branch | call | leave | native => rfl
  | enter =>
      obtain _ | ⟨-, _ | ⟨-, _ | ⟨hlength, _ | _⟩⟩⟩ := hfit
      rename_i args locals length
      obtain ⟨a, ha⟩ := List.length_eq_one_iff.mp (Arch.length_bytes arch 1 args)
      obtain ⟨b, c, hbc⟩ := List.length_eq_two.mp (Arch.length_bytes arch 2 locals)
      have hd : arch.bytes 1 length = [UInt8.ofNat length] := by cases arch <;> rfl
      change 4 + ((arch.bytes 1 args ++ (arch.bytes 2 locals ++ (arch.bytes 1 length ++ [])) ++ name
        ++ behind).getD 3 0).toNat = 4 + length
      rw [ha, hbc, hd]
      exact congrArg (4 + ·) (Nat.mod_eq_of_lt hlength)

namespace Encoding

variable {arch : Arch}

theorem length_bytes_other (e : Encoding) :
    (e.bytes arch.other).length = (e.bytes arch).length := by
  rw [bytes, bytes, ← turnFields_written e.fits, List.length_cons, List.length_cons,
    length_turnFields]

/-- One encoding at the front is turned into that of the other platform. -/
theorem turnCode_bytes (e : Encoding) (behind : List UInt8) :
    turnCode (e.bytes arch ++ behind) = e.bytes arch.other ++ turnCode behind := by
  rw [bytes, List.cons_append, turnCode, lookup_eq_some_iff.mpr e.mem_table]
  dsimp only
  rw [size_written e.fits e.length_name, List.take_left, List.drop_left, turnFields_written e.fits]
  rfl

/-- Encodings are turned one by one. -/
theorem turnCode_flatMap_bytes (es : List Encoding) :
    turnCode (es.flatMap (·.bytes arch)) = es.flatMap (·.bytes arch.other) := by
  induction es with
  | nil => rw [List.flatMap_nil, List.flatMap_nil, turnCode]
  | cons e es ih => rw [List.flatMap_cons, List.flatMap_cons, turnCode_bytes, ih]

end Encoding

namespace Context

/-- The same, for the architecture with the other byte order. -/
def turn (ctx : Context) : Context :=
  { ctx with arch := ctx.arch.other }

variable {ctx : Context} {code : List UInt8} {is : List Instruction}

/-- What an encoding stands for does not depend on the byte order. -/
theorem instruction?_turn (ctx : Context) (position : Nat) (e : Encoding) :
    ctx.turn.instruction? position e = ctx.instruction? position e := by
  rw [instruction?, instruction?, turn, Encoding.length_bytes_other]
  rfl

/-- The same for encodings one behind the other, each at the same position. -/
theorem instructions?_turn (ctx : Context) (position : Nat) (es : List Encoding) :
    ctx.turn.instructions? position es = ctx.instructions? position es := by
  induction es generalizing position with
  | nil => rfl
  | cons e es ih =>
      rw [instructions?, instructions?, instruction?_turn, ih, turn, Encoding.length_bytes_other]

/-- Code turned encodes the same instructions for the other platform. -/
theorem Encodes.turn {position : Nat} (h : ctx.Encodes position code is) :
    ctx.turn.Encodes position (turnCode code) is := by
  obtain ⟨es, rfl, his⟩ := h
  exact ⟨es, Encoding.turnCode_flatMap_bytes es, by rw [instructions?_turn, his]⟩

/-- **Code without an error and the turned code are decoded alike.** -/
theorem decode_turn (h : (ctx.decode code).error = none) :
    ctx.turn.decode (turnCode code) = ctx.decode code := by
  have hcode : ctx.decodeFrom 0 code = ((ctx.decode code).instructions, none) := Prod.ext rfl h
  have hturned := decodeFrom_eq_iff.mpr (decodeFrom_eq_iff.mp hcode).turn
  rw [decode, hturned, length_turnCode]
  rw [decode, hcode]

end Context

end Bytecode

/-! ### Regions -/

namespace Region

/-- Turn the code at the front and leave what follows it. -/
def turnBody (codeSize : Nat) (bs : List UInt8) : List UInt8 :=
  Bytecode.turnCode (bs.take codeSize) ++ bs.drop codeSize

/-- Reverse the bytes of the words before the code, and of the fields in it. -/
def turn (arch : Arch) (region : List UInt8) : List UInt8 :=
  let codeSize := arch.word (region.take 4)
  let count := arch.word ((region.drop 4).take 4)
  turnWords (turnBody codeSize) (4 :: 4 :: List.replicate count 8) region

variable {arch : Arch}

/-- The code and what follows it stay where they were. -/
theorem turnBody_divides (codeSize : Nat) (bs : List UInt8) :
    (turnBody codeSize bs).take codeSize = Bytecode.turnCode (bs.take codeSize) ∧
      (turnBody codeSize bs).drop codeSize = bs.drop codeSize :=
  take_drop_of_length codeSize bs (Bytecode.length_turnCode _) rfl

theorem length_turnBody (codeSize : Nat) (bs : List UInt8) :
    (turnBody codeSize bs).length = bs.length := by
  rw [turnBody, List.length_append, Bytecode.length_turnCode, ← List.length_append,
    List.take_append_drop]

/-- As for code, with what follows it left alone. -/
theorem turnBody_turnBody (codeSize : Nat) (bs : List UInt8) :
    turnBody codeSize (turnBody codeSize bs) = bs := by
  obtain ⟨htake, hdrop⟩ := turnBody_divides codeSize bs
  rw [turnBody, htake, hdrop, Bytecode.turnCode_turnCode, List.take_append_drop]

theorem length_turn (arch : Arch) (region : List UInt8) :
    (turn arch region).length = region.length :=
  length_turnWords (length_turnBody _) _ region

/-- Both architectures read the same size of the code. -/
theorem word_codeSize_turn (arch : Arch) (region : List UInt8) :
    arch.other.word ((turn arch region).take 4) = arch.word (region.take 4) := by
  rw [turn, (turnWords_cons (length_turnBody _) _ _ region).1, Arch.word_other]

/-- Both architectures read the same number of natives. -/
theorem word_count_turn (arch : Arch) (region : List UInt8) :
    arch.other.word (((turn arch region).drop 4).take 4) = arch.word ((region.drop 4).take 4) := by
  rw [turn, (turnWords_cons (length_turnBody _) _ _ region).2,
    (turnWords_cons (length_turnBody _) _ _ _).1, Arch.word_other]

/-- **Turning a region twice gives it back**, the second time for the platform it is then for. -/
theorem turn_turn (arch : Arch) (region : List UInt8) :
    turn arch.other (turn arch region) = region := by
  rw [turn, word_codeSize_turn, word_count_turn]
  exact turnWords_turnWords (length_turnBody _) (turnBody_turnBody _) _ region

/-- The hashes of the natives read the same, word by word. -/
theorem hashes_turnWords (codeSize count : Nat) (bs : List UInt8) :
    hashes arch.other count (turnWords (turnBody codeSize) (List.replicate count 8) bs)
      = hashes arch count bs := by
  induction count generalizing bs with
  | zero => rfl
  | succ count ih =>
      obtain ⟨htake, hdrop⟩ :=
        turnWords_cons (length_turnBody codeSize) 8 (List.replicate count 8) bs
      rw [List.replicate_succ, hashes, htake, hdrop, ih, Arch.word_other, hashes]

/-- **The other architecture finds the same hashes and the turned code**, or the same fault. -/
theorem sections_turn (arch : Arch) (name : String) (region : List UInt8) :
    sections arch.other name (turn arch region)
      = (sections arch name region).map fun found => (found.1, Bytecode.turnCode found.2) := by
  unfold sections
  rw [length_turn, word_codeSize_turn, word_count_turn]
  split
  · rfl
  dsimp only
  split
  · rfl
  set codeSize := arch.word (region.take 4)
  set count := arch.word ((region.drop 4).take 4)
  have hhashes : (turn arch region).drop 8
      = turnWords (turnBody codeSize) (List.replicate count 8) (region.drop 8) := by
    rw [show 8 = 4 + 4 from rfl, ← List.drop_drop, ← List.drop_drop, turn,
      (turnWords_cons (length_turnBody _) _ _ region).2,
      (turnWords_cons (length_turnBody _) _ _ _).2]
  have hcode : (turn arch region).drop (8 + 8 * count)
      = turnBody codeSize (region.drop (8 + 8 * count)) := by
    have hsum : (4 :: 4 :: List.replicate count 8).sum = 8 + 8 * count := by
      simp only [List.sum_cons, List.sum_replicate, smul_eq_mul]
      omega
    rw [← hsum]
    exact drop_turnWords (length_turnBody codeSize) _ region
  rw [hhashes, hcode, hashes_turnWords, (turnBody_divides codeSize _).1]
  rfl

/-- A region whose code has no error and the turned region have the same natives and the same
decoding. -/
theorem unpack_turn {name : String} {native? : Int → Option Native} {region : List UInt8}
    {natives : List Int} {d : Bytecode.Decoding}
    (h : unpack arch name native? region = .ok (natives, d)) (hd : d.error = none) :
    unpack arch.other name native? (turn arch region) = .ok (natives, d) := by
  unfold unpack at h ⊢
  rw [sections_turn]
  cases hs : sections arch name region with
  | error e =>
      rw [hs] at h
      cases h
  | ok found =>
      rw [hs] at h
      obtain ⟨natives', code⟩ := found
      cases h
      exact congrArg (fun d => Except.ok (natives, d))
        (Bytecode.Context.decode_turn hd)

/-- **The two architectures agree.**  A region has natives and instructions for one architecture
just where the turned region has them for the other, and to turn it twice gives the region. -/
theorem unpack_turn_iff (arch : Arch) (name : String) (native? : Int → Option Native)
    (region : List UInt8) (natives : List Int) (d : Bytecode.Decoding) :
    (unpack arch name native? region = .ok (natives, d) ∧ d.error = none ↔
      unpack arch.other name native? (turn arch region) = .ok (natives, d) ∧ d.error = none) ∧
    turn arch.other (turn arch region) = region := by
  refine ⟨⟨fun h => ⟨unpack_turn h.1 h.2, h.2⟩, fun h => ⟨?_, h.2⟩⟩, turn_turn arch region⟩
  have hback := unpack_turn h.1 h.2
  rwa [Arch.other_other, turn_turn] at hback

/-- One hash, and code with a distance of two bytes; a byte behind the code. -/
example :
    turn .pc [3, 0, 0, 0, 1, 0, 0, 0, 1, 2, 3, 4, 5, 6, 7, 8, 85, 254, 255, 9]
      = [0, 0, 0, 3, 0, 0, 0, 1, 8, 7, 6, 5, 4, 3, 2, 1, 85, 255, 254, 9] := by
  cbv

end Region

end ScriptLift
