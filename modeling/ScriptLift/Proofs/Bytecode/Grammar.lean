import Mathlib
import ScriptLift.Bytecode.Decode
import ScriptLift.Proofs.Words

/-!
# The grammar of code

Code is a sequence of encodings.  An `Encoding` is an opcode of the table with a number for each
field of its format, and with a name where the format asks for one; it is written as the opcode, the
numbers in the byte order of the architecture, and the name (`Encoding.bytes`).  What it stands for
depends on the offset it is at (`Context.instruction?`).

Every reading of the decoder is told by what it takes from the front of the bytes
(`Context.operands_eq_ok_iff`), so the decoder accepts the encodings and nothing else, and where it
stops, no longer part of the code is a sequence of encodings (`Context.decode_accepts_grammar`).

An encoding is read with the decoder's own reading of a single field (`signed16`, `literalOf`) and
of a name (`asciiName`).  What these mean is told in `ScriptLift.Proofs.Bytecode.Constants`.
-/

namespace ScriptLift.Bytecode

/-! ### Encodings -/

namespace Format

/-- The fields of a format, in order. -/
def fields : Format → List Field
  | .none | .constant _ => []
  | .push fields => fields
  | .slot field => [field]
  | .branch => [.s16]
  | .call => [.u24]
  | .enter => [.u8, .u16, .u8]
  | .leave => [.u8, .u8]
  | .native => [.u8, .u16]

/-- The number of bytes behind the fields: the head of a routine has a name there, whose length is
the last of its numbers. -/
def nameLength : Format → List Nat → Nat
  | .enter, [_, _, length] => length
  | _, _ => 0

end Format

/-- The numbers fit the fields, one each. -/
def Fits (fields : List Field) (numbers : List Nat) : Prop :=
  List.Forall₂ (fun field n => n < 256 ^ field.width) fields numbers

/-- The numbers as they are written into the fields. -/
def written (arch : Arch) : List Field → List Nat → List UInt8
  | field :: fields, n :: numbers => arch.bytes field.width n ++ written arch fields numbers
  | _, _ => []

/-- An entry of the table with the numbers in its fields and the name behind them. -/
structure Encoding where
  opcode : UInt8
  operation : Opcode
  format : Format
  mem_table : (opcode, operation, format) ∈ table
  numbers : List Nat
  fits : Fits format.fields numbers
  name : List UInt8
  length_name : name.length = format.nameLength numbers

/-- The bytes of an encoding. -/
def Encoding.bytes (arch : Arch) (e : Encoding) : List UInt8 :=
  e.opcode :: (written arch e.format.fields e.numbers ++ e.name)

namespace Context

/-- The operands that numbers in the fields of a format stand for, where `behind` is the offset
behind the operands.  Numbers that are no index of a native stand for nothing. -/
def operands? (ctx : Context) (behind : Nat) (format : Format) (numbers : List Nat)
    (name : List UInt8) : Option Operands :=
  match format, numbers with
  | .none, [] => some .none
  | .push fields, numbers => some (.push (List.zipWith literalOf fields numbers))
  | .constant value, [] => some (.push [value])
  | .slot _, [n] => some (.slot n)
  | .branch, [n] => some (.branch (behind + signed16 n))
  | .call, [n] => some (.call n)
  | .enter, [args, locals, _] => some (.enter args locals (asciiName name))
  | .leave, [args, returns] => some (.ret args returns)
  | .native, [packed, index] => (ctx.natives[index]?).map fun hash =>
      .native (packed / 4 : Nat) (packed % 4 : Nat) hash ((ctx.native? hash).map (·.name))
        ((ctx.native? hash).bind (·.resultType))
  | _, _ => none

/-- The instruction that an encoding at an offset stands for. -/
def instruction? (ctx : Context) (position : Nat) (e : Encoding) : Option Instruction :=
  (ctx.operands? (position + (e.bytes ctx.arch).length) e.format e.numbers e.name).map
    fun operands => ⟨position, .op e.operation, operands⟩

/-- The instructions that encodings one behind the other stand for, the first of them at an
offset. -/
def instructions? (ctx : Context) (position : Nat) : List Encoding → Option (List Instruction)
  | [] => some []
  | e :: es =>
    (ctx.instruction? position e).bind fun i =>
      (ctx.instructions? (position + (e.bytes ctx.arch).length) es).map (i :: ·)

/-- The bytes are encodings, one behind the other, that stand for the instructions `is`. -/
def Encodes (ctx : Context) (position : Nat) (bytes : List UInt8) (is : List Instruction) : Prop :=
  ∃ es : List Encoding, bytes = es.flatMap (·.bytes ctx.arch) ∧
    ctx.instructions? position es = some is

end Context

/-! ### Readings -/

namespace Read

variable {α β : Type} {m : Read α} {k : α → Read β} {r r' : Reader} {n : Nat} {bs : List UInt8}

/-- A sequence gives a result exactly if both its parts do. -/
theorem bind_eq_ok_iff {b : β} :
    (m >>= k) r = .ok (b, r') ↔ ∃ a r₁, m r = .ok (a, r₁) ∧ k a r₁ = .ok (b, r') := by
  change Except.bind (m r) (fun p => k p.1 p.2) = _ ↔ _
  cases hm : m r with
  | error e => simp [Except.bind]
  | ok p => simp [Except.bind, Prod.ext_iff]

/-- Taking succeeds exactly on as many bytes at the front, and moves behind them. -/
theorem take_eq_ok_iff :
    take n r = .ok (bs, r') ↔
      bs.length = n ∧ r.rest = bs ++ r'.rest ∧ r'.position = r.position + bs.length := by
  obtain ⟨position, rest⟩ := r
  obtain ⟨position', rest'⟩ := r'
  unfold take
  dsimp only
  constructor
  · intro h
    split at h
    · cases h
    · rename_i hn
      cases h
      have hlen : (rest.take n).length = n := by
        have := List.length_take_le n rest
        omega
      exact ⟨hlen, (List.take_append_drop n rest).symm, by rw [hlen]⟩
  · rintro ⟨rfl, rfl, rfl⟩
    simp

theorem take_zero : take 0 = pure [] := by
  funext r
  simp [take]
  rfl

end Read

namespace Context

variable {ctx : Context} {r r' : Reader} {fields : List Field} {ns : List Nat}

/-- A field holds the number that is written there. -/
theorem number_eq_ok_iff {field : Field} {n : Nat} :
    ctx.number field r = .ok (n, r') ↔
      n < 256 ^ field.width ∧ r.rest = ctx.arch.bytes field.width n ++ r'.rest ∧
        r'.position = r.position + field.width := by
  unfold number
  rw [Read.bind_eq_ok_iff]
  constructor
  · rintro ⟨bs, r₁, htake, hret⟩
    obtain ⟨hlen, hrest, hpos⟩ := Read.take_eq_ok_iff.mp htake
    cases hret
    exact ⟨Arch.word_lt hlen, by rw [Arch.bytes_word hlen, hrest], by rw [hpos, hlen]⟩
  · rintro ⟨hn, hrest, hpos⟩
    refine ⟨ctx.arch.bytes field.width n, r', Read.take_eq_ok_iff.mpr ⟨by simp, hrest, by simpa⟩,
      ?_⟩
    rw [Arch.word_bytes hn]
    rfl

/-- The numbers in the next fields. -/
def numbers (ctx : Context) : List Field → Read (List Nat)
  | [] => return []
  | field :: fields => do
    let n ← ctx.number field
    return n :: (← ctx.numbers fields)

/-- Several numbers are read exactly where they are written one behind the other. -/
theorem numbers_eq_ok_iff :
    ctx.numbers fields r = .ok (ns, r') ↔
      Fits fields ns ∧ r.rest = written ctx.arch fields ns ++ r'.rest ∧
        r'.position = r.position + (written ctx.arch fields ns).length := by
  induction fields generalizing r ns with
  | nil =>
      constructor
      · rintro ⟨⟩
        exact ⟨.nil, rfl, rfl⟩
      · rintro ⟨⟨⟩, hrest, hpos⟩
        obtain ⟨position, rest⟩ := r
        obtain ⟨position', rest'⟩ := r'
        obtain rfl : rest = rest' := hrest
        obtain rfl : position' = position := hpos
        rfl
  | cons field fields ih =>
      rw [numbers, Read.bind_eq_ok_iff]
      constructor
      · rintro ⟨n, r₁, hn, hrest⟩
        obtain ⟨ns', r₂, hns, hret⟩ := Read.bind_eq_ok_iff.mp hrest
        cases hret
        obtain ⟨hlt, hr, hp⟩ := number_eq_ok_iff.mp hn
        obtain ⟨hfit, hr₁, hp₁⟩ := ih.mp hns
        refine ⟨.cons hlt hfit, ?_, ?_⟩
        · rw [hr, hr₁, written, List.append_assoc]
        · rw [hp₁, hp, written, List.length_append, Arch.length_bytes, Nat.add_assoc]
      · rintro ⟨hfit, hr, hp⟩
        obtain _ | ⟨hlt, hfit⟩ := hfit
        rename_i n ns
        rw [written, List.append_assoc] at hr
        rw [written, List.length_append, Arch.length_bytes, ← Nat.add_assoc] at hp
        refine ⟨n, ⟨r.position + field.width, written ctx.arch fields ns ++ r'.rest⟩,
          number_eq_ok_iff.mpr ⟨hlt, hr, rfl⟩, Read.bind_eq_ok_iff.mpr ⟨ns, r', ?_, rfl⟩⟩
        exact ih.mpr ⟨hfit, rfl, hp⟩

/-- Literals are made of the numbers that are read for them. -/
theorem literals_eq (ctx : Context) (fields : List Field) :
    ctx.literals fields = (do return List.zipWith literalOf fields (← ctx.numbers fields)) := by
  induction fields with
  | nil => rfl
  | cons field fields ih => simp [literals, numbers, ih]

/-- **The operands are read field by field**, then the name, and then they are made of the
numbers. -/
theorem operands_eq (ctx : Context) (format : Format) :
    ctx.operands format = (do
      let ns ← ctx.numbers format.fields
      let name ← Read.take (format.nameLength ns)
      match ctx.operands? (← get).position format ns name with
      | some operands => return operands
      | none => throw (.nativeIndex (ns.getLastD 0) ctx.natives.length)) := by
  cases format with
  | none | constant value | slot field | branch | call | leave =>
      simp [operands, Format.fields, Format.nameLength, numbers, Read.take_zero, operands?]
  | push fields =>
      simp [operands, Format.fields, Format.nameLength, Read.take_zero, operands?, literals_eq]
  | enter => simp [operands, Format.fields, Format.nameLength, numbers, operands?]
  | native =>
      simp only [operands, nativeOperands, Format.fields, Format.nameLength, numbers,
        Read.take_zero, operands?, bind_assoc, pure_bind]
      congr
      funext packed
      congr
      funext index
      cases ctx.natives[index]? <;> rfl

/-- Operands are read exactly where numbers and a name of the right length are written that mean
them. -/
theorem operands_eq_ok_iff {format : Format} {os : Operands} :
    ctx.operands format r = .ok (os, r') ↔
      ∃ ns name, Fits format.fields ns ∧ name.length = format.nameLength ns ∧
        r.rest = written ctx.arch format.fields ns ++ name ++ r'.rest ∧
        r'.position = r.position + (written ctx.arch format.fields ns ++ name).length ∧
        ctx.operands? r'.position format ns name = some os := by
  rw [operands_eq, Read.bind_eq_ok_iff]
  constructor
  · rintro ⟨ns, r₁, hns, h⟩
    obtain ⟨hfit, hrest, hpos⟩ := numbers_eq_ok_iff.mp hns
    obtain ⟨name, r₂, hname, h⟩ := Read.bind_eq_ok_iff.mp h
    obtain ⟨hlen, hrest₁, hpos₁⟩ := Read.take_eq_ok_iff.mp hname
    obtain ⟨r₃, r₄, hget, h⟩ := Read.bind_eq_ok_iff.mp h
    cases hget
    cases hos : ctx.operands? r₂.position format ns name with
    | none =>
        rw [hos] at h
        cases h
    | some os' =>
        rw [hos] at h
        cases h
        refine ⟨ns, name, hfit, hlen, ?_, ?_, hos⟩
        · rw [hrest, hrest₁, List.append_assoc]
        · rw [hpos₁, hpos, List.length_append, Nat.add_assoc]
  · rintro ⟨ns, name, hfit, hlen, hrest, hpos, hos⟩
    rw [List.append_assoc] at hrest
    rw [List.length_append, ← Nat.add_assoc] at hpos
    let r₁ : Reader := ⟨r.position + (written ctx.arch format.fields ns).length, name ++ r'.rest⟩
    refine ⟨ns, r₁, numbers_eq_ok_iff.mpr ⟨hfit, hrest, rfl⟩, Read.bind_eq_ok_iff.mpr
      ⟨name, r', Read.take_eq_ok_iff.mpr ⟨hlen, rfl, hpos⟩,
        Read.bind_eq_ok_iff.mpr ⟨r', r', rfl, ?_⟩⟩⟩
    rw [hos]
    rfl

end Context

theorem lookup_table : table.all (fun entry => lookup entry.1 == some entry.2) = true := by
  decide

/-- The table has one entry for each of its opcodes. -/
theorem lookup_eq_some_iff {opcode : UInt8} {o : Opcode} {format : Format} :
    lookup opcode = some (o, format) ↔ (opcode, o, format) ∈ table := by
  constructor
  · intro h
    obtain ⟨before, behind, heq, -⟩ := List.lookup_eq_some_iff.mp h
    simp [heq]
  · intro h
    simpa using List.all_eq_true.mp lookup_table _ h

namespace Context

variable {ctx : Context} {position : Nat} {opcode : UInt8} {rest : List UInt8} {i : Instruction}
  {r' : Reader}

/-- **An instruction is read where an encoding of it stands.** -/
theorem instruction_eq_ok_iff :
    ctx.instruction position opcode ⟨position + 1, rest⟩ = .ok (i, r') ↔
      ∃ e : Encoding, opcode :: rest = e.bytes ctx.arch ++ r'.rest ∧
        r'.position = position + (e.bytes ctx.arch).length ∧
          ctx.instruction? position e = some i := by
  unfold instruction
  constructor
  · intro h
    cases hl : lookup opcode with
    | none =>
        rw [hl] at h
        cases h
    | some entry =>
        obtain ⟨o, format⟩ := entry
        rw [hl] at h
        obtain ⟨os, r₁, hos, hret⟩ := Read.bind_eq_ok_iff.mp h
        cases hret
        obtain ⟨ns, name, hfit, hlen, hrest, hpos, hos⟩ := operands_eq_ok_iff.mp hos
        have hbehind : r'.position
            = position + (opcode :: (written ctx.arch format.fields ns ++ name)).length := by
          rw [hpos, List.length_cons]
          dsimp only
          omega
        refine ⟨⟨opcode, o, format, lookup_eq_some_iff.mp hl, ns, hfit, name, hlen⟩, ?_, hbehind,
          ?_⟩
        · exact congrArg (opcode :: ·) hrest
        · rw [instruction?, Encoding.bytes, ← hbehind, hos]
          rfl
  · -- an encoding carries the entry of the table it was made by
    rintro ⟨e, hbytes, hpos, hi⟩
    obtain ⟨rfl, hrest⟩ := List.cons.inj hbytes
    obtain ⟨os, hos, rfl⟩ := Option.map_eq_some_iff.mp hi
    rw [lookup_eq_some_iff.mpr e.mem_table]
    refine Read.bind_eq_ok_iff.mpr ⟨os, r', operands_eq_ok_iff.mpr
      ⟨e.numbers, e.name, e.fits, e.length_name, hrest, ?_, by rwa [hpos]⟩, rfl⟩
    rw [hpos, Encoding.bytes, List.length_cons]
    dsimp only
    omega

/-- In front of an encoding, the decoder reads the instruction it stands for. -/
theorem instruction_bytes {e : Encoding} {behind : List UInt8}
    (hbytes : opcode :: rest = e.bytes ctx.arch ++ behind)
    (hi : ctx.instruction? position e = some i) :
    ctx.instruction position opcode ⟨position + 1, rest⟩
      = .ok (i, ⟨position + (e.bytes ctx.arch).length, behind⟩) :=
  instruction_eq_ok_iff.mpr ⟨e, hbytes, rfl, hi⟩

/-! ### Sequences -/

section Sequences

variable {bytes : List UInt8} {e : Encoding} {is : List Instruction}

theorem encodes_nil (ctx : Context) (position : Nat) : ctx.Encodes position [] [] :=
  ⟨[], rfl, rfl⟩

/-- One encoding more in front. -/
theorem Encodes.cons (hi : ctx.instruction? position e = some i)
    (h : ctx.Encodes (position + (e.bytes ctx.arch).length) bytes is) :
    ctx.Encodes position (e.bytes ctx.arch ++ bytes) (i :: is) := by
  obtain ⟨es, rfl, his⟩ := h
  exact ⟨e :: es, rfl, by simp [instructions?, hi, his]⟩

/-- Bytes that encode instructions are none, or begin with the encoding of the first of them. -/
theorem Encodes.cases (h : ctx.Encodes position bytes is) :
    bytes = [] ∧ is = [] ∨
      ∃ (e : Encoding) (i : Instruction) (rest : List UInt8) (is' : List Instruction),
        bytes = e.bytes ctx.arch ++ rest ∧ is = i :: is' ∧ ctx.instruction? position e = some i ∧
          ctx.Encodes (position + (e.bytes ctx.arch).length) rest is' := by
  obtain ⟨es, rfl, h⟩ := h
  cases es with
  | nil =>
      cases h
      exact .inl ⟨rfl, rfl⟩
  | cons e es =>
      obtain ⟨i, hi, h⟩ := Option.bind_eq_some_iff.mp h
      obtain ⟨is', his, rfl⟩ := Option.map_eq_some_iff.mp h
      exact .inr ⟨e, i, _, is', rfl, rfl, hi, es, rfl, his⟩

/-- After an instruction, decoding goes on where its operands end. -/
theorem decodeFrom_cons (h : ctx.instruction position opcode ⟨position + 1, rest⟩ = .ok (i, r')) :
    ctx.decodeFrom position (opcode :: rest)
      = (i :: (ctx.decodeFrom r'.position r'.rest).1, (ctx.decodeFrom r'.position r'.rest).2) := by
  rw [decodeFrom]
  split
  · rename_i e he
    rw [h] at he
    cases he
  · rename_i i₁ r₁ hok
    rw [h] at hok
    cases hok
    rfl

/-- The same in front of an encoding, whatever follows it. -/
theorem decodeFrom_bytes (rest : List UInt8) (h : ctx.instruction? position e = some i) :
    ctx.decodeFrom position (e.bytes ctx.arch ++ rest) =
      (i :: (ctx.decodeFrom (position + (e.bytes ctx.arch).length) rest).1,
        (ctx.decodeFrom (position + (e.bytes ctx.arch).length) rest).2) :=
  decodeFrom_cons (instruction_bytes rfl h)

/-- Encodings are decoded, whatever is behind them. -/
theorem decodeFrom_append (rest : List UInt8) (h : ctx.Encodes position bytes is) :
    ctx.decodeFrom position (bytes ++ rest) =
      (is ++ (ctx.decodeFrom (position + bytes.length) rest).1,
        (ctx.decodeFrom (position + bytes.length) rest).2) := by
  obtain ⟨es, rfl, h⟩ := h
  induction es generalizing position is with
  | nil =>
      cases h
      rfl
  | cons e es ih =>
      obtain ⟨i, hi, h⟩ := Option.bind_eq_some_iff.mp h
      obtain ⟨is, his, rfl⟩ := Option.map_eq_some_iff.mp h
      rw [List.flatMap_cons, List.append_assoc, List.length_append, ← Nat.add_assoc,
        decodeFrom_bytes _ hi, ih his]
      rfl

/-- Where the decoder stops: at the end, or before bytes it cannot read an instruction from. -/
inductive Stops (ctx : Context) (position : Nat) : List UInt8 → Option Error → Prop where
  | ends : ctx.Stops position [] none
  | fails {opcode : UInt8} {rest : List UInt8} {e : Error} :
      ctx.instruction position opcode ⟨position + 1, rest⟩ = .error e →
        ctx.Stops position (opcode :: rest) (some e)

/-- **The decoder takes encodings from the front as long as it finds them.** -/
theorem exists_decodeFrom_eq (ctx : Context) (position : Nat) (bytes : List UInt8) :
    ∃ done rest is stop, bytes = done ++ rest ∧ ctx.Encodes position done is ∧
      ctx.Stops (position + done.length) rest stop ∧
        ctx.decodeFrom position bytes = (is, stop) := by
  fun_induction decodeFrom ctx position bytes with
  | case1 position => exact ⟨[], [], [], none, rfl, ctx.encodes_nil position, .ends, rfl⟩
  | case2 position opcode rest e herror =>
      exact ⟨[], opcode :: rest, [], some e, rfl, ctx.encodes_nil position, .fails herror, rfl⟩
  | case3 position opcode rest i r hok hle is stop hrest ih =>
      obtain ⟨done, behind, is', stop', hsplit, hdone, hstop, heq⟩ := ih
      obtain ⟨e, hbytes, hpos, hi⟩ := instruction_eq_ok_iff.mp hok
      obtain ⟨rfl, rfl⟩ := Prod.mk.inj (hrest.symm.trans heq)
      rw [hpos] at hdone hstop
      refine ⟨e.bytes ctx.arch ++ done, behind, i :: is, stop, ?_, hdone.cons hi, ?_, rfl⟩
      · rw [hbytes, hsplit, List.append_assoc]
      · rwa [List.length_append, ← Nat.add_assoc]

/-- All bytes are decoded exactly if they encode the instructions. -/
theorem decodeFrom_eq_iff :
    ctx.decodeFrom position bytes = (is, none) ↔ ctx.Encodes position bytes is := by
  constructor
  · intro h
    obtain ⟨done, rest, is', stop, rfl, hdone, hstop, heq⟩ :=
      ctx.exists_decodeFrom_eq position bytes
    cases heq.symm.trans h
    cases hstop
    rwa [List.append_nil]
  · intro h
    simpa [decodeFrom] using decodeFrom_append [] h

/-- An instruction that cannot be read is not encoded there. -/
theorem instruction?_eq_none_of_stops {error : Error} (h : ctx.Stops position bytes (some error))
    (hbytes : bytes = e.bytes ctx.arch ++ rest) : ctx.instruction? position e = none := by
  cases h with
  | fails herror =>
      cases hi : ctx.instruction? position e with
      | none => rfl
      | some i =>
          cases herror.symm.trans (instruction_bytes hbytes hi)

/-- No part of the code that goes beyond the place where the decoder stops is a sequence of
encodings. -/
theorem not_encodes_of_stops {error : Error} {done more : List UInt8}
    (hdone : ctx.Encodes position done is)
    (hstop : ctx.Stops (position + done.length) (more ++ rest) (some error)) (hmore : more ≠ [])
    (is' : List Instruction) : ¬ ctx.Encodes position (done ++ more) is' := by
  intro h
  have hmid : (ctx.decodeFrom (position + done.length) more).2 = none := by
    have heq := decodeFrom_eq_iff.mpr h
    rw [decodeFrom_append more hdone] at heq
    exact congrArg Prod.snd heq
  obtain ⟨hnil, -⟩ | ⟨e, i, rest', is', hsplit, -, hi, -⟩ :=
    (decodeFrom_eq_iff.mp (Prod.ext rfl hmid)).cases
  · exact hmore hnil
  · have hbytes : more ++ rest = e.bytes ctx.arch ++ (rest' ++ rest) := by
      rw [hsplit, List.append_assoc]
    cases hi.symm.trans (instruction?_eq_none_of_stops hstop hbytes)

end Sequences

end Context

/-! ### Errors -/

namespace Error

/-- What an error tells about the bytes at the offset where the decoder stops. -/
def Tells (ctx : Context) (offset : Nat) (rest : List UInt8) : Error → Prop
  -- a field of the instruction begins here and needs more bytes than there are
  | truncated position => offset < position ∧ position ≤ offset + rest.length
  | unknownOpcode opcode position =>
    position = offset ∧ rest.head? = some opcode ∧ ∀ entry ∈ table, entry.1 ≠ opcode
  | nativeIndex index count => count = ctx.natives.length ∧ count ≤ index
  -- the decoder knows nothing of headers
  | headerTruncated _ | headerMismatch .. => False

/-- A reading fails by want of bytes, at one of those it has. -/
def Wants (r : Reader) (e : Error) : Prop :=
  ∃ position, e = .truncated position ∧ r.position ≤ position ∧
    position ≤ r.position + r.rest.length

/-- If bytes are missing further on, they are missing here. -/
theorem Wants.of_read {r r₁ : Reader} {bs : List UInt8} {e : Error} (h : e.Wants r₁)
    (hrest : r.rest = bs ++ r₁.rest) (hpos : r₁.position = r.position + bs.length) : e.Wants r := by
  obtain ⟨position, rfl, hle, hlt⟩ := h
  refine ⟨position, rfl, by omega, ?_⟩
  rw [hrest, List.length_append]
  omega

end Error

namespace Read

variable {α β : Type} {m : Read α} {k : α → Read β} {r : Reader} {n : Nat} {e : Error}

/-- A sequence fails where its first part fails, or its second behind it. -/
theorem bind_eq_error_iff :
    (m >>= k) r = .error e ↔
      m r = .error e ∨ ∃ a r₁, m r = .ok (a, r₁) ∧ k a r₁ = .error e := by
  change Except.bind (m r) (fun p => k p.1 p.2) = _ ↔ _
  cases hm : m r with
  | error e => simp [Except.bind]
  | ok p => simp [Except.bind, Prod.ext_iff]

/-- Taking fails only for want of bytes. -/
theorem wants_of_take (h : take n r = .error e) : e.Wants r := by
  unfold take at h
  split at h
  · cases h
    exact ⟨r.position, rfl, le_rfl, Nat.le_add_right _ _⟩
  · cases h

end Read

namespace Context

variable {ctx : Context} {r : Reader} {e : Error} {format : Format}

theorem wants_of_numbers {fields : List Field} (h : ctx.numbers fields r = .error e) :
    e.Wants r := by
  induction fields generalizing r with
  | nil => cases h
  | cons field fields ih =>
      obtain h | ⟨n, r₁, hn, h⟩ := Read.bind_eq_error_iff.mp h
      · obtain h | ⟨bs, r₁, -, hret⟩ := Read.bind_eq_error_iff.mp h
        · exact Read.wants_of_take h
        · cases hret
      · obtain h | ⟨ns, r₂, -, hret⟩ := Read.bind_eq_error_iff.mp h
        · obtain ⟨-, hrest, hpos⟩ := number_eq_ok_iff.mp hn
          exact (ih h).of_read hrest (by rwa [Arch.length_bytes])
        · cases hret

/-- Numbers in all fields of a format fail to stand for operands only where the last of them is no
index of a native. -/
theorem natives_le_of_operands?_eq_none {behind : Nat} {ns : List Nat} {name : List UInt8}
    (hfit : Fits format.fields ns) (h : ctx.operands? behind format ns name = none) :
    ctx.natives.length ≤ ns.getLastD 0 := by
  cases format with
  | none | constant value =>
      cases hfit
      cases h
  | push fields => cases h
  | slot field | branch | call =>
      obtain _ | ⟨-, _ | _⟩ := hfit
      cases h
  | enter =>
      obtain _ | ⟨-, _ | ⟨-, _ | ⟨-, _ | _⟩⟩⟩ := hfit
      cases h
  | leave =>
      obtain _ | ⟨-, _ | ⟨-, _ | _⟩⟩ := hfit
      cases h
  | native =>
      obtain _ | ⟨-, _ | ⟨-, _ | _⟩⟩ := hfit
      exact List.getElem?_eq_none_iff.mp (Option.map_eq_none_iff.mp h)

/-- Operands fail for want of bytes, or for an index with no native. -/
theorem operands_error (h : ctx.operands format r = .error e) :
    e.Wants r ∨
      ∃ index, e = .nativeIndex index ctx.natives.length ∧ ctx.natives.length ≤ index := by
  rw [operands_eq] at h
  obtain h | ⟨ns, r₁, hns, h⟩ := Read.bind_eq_error_iff.mp h
  · exact .inl (wants_of_numbers h)
  obtain ⟨hfit, hrest, hpos⟩ := numbers_eq_ok_iff.mp hns
  obtain h | ⟨name, r₂, -, h⟩ := Read.bind_eq_error_iff.mp h
  · exact .inl ((Read.wants_of_take h).of_read hrest hpos)
  obtain ⟨⟨⟩⟩ | ⟨r₃, r₄, hget, h⟩ := Read.bind_eq_error_iff.mp h
  cases hget
  cases hos : ctx.operands? r₂.position format ns name with
  | some os =>
      rw [hos] at h
      cases h
  | none =>
      rw [hos] at h
      cases h
      exact .inr ⟨_, rfl, natives_le_of_operands?_eq_none hfit hos⟩

/-- **An error tells why there is no instruction where the decoder stops.** -/
theorem Stops.tells {position : Nat} {bytes : List UInt8} (h : ctx.Stops position bytes (some e)) :
    e.Tells ctx position bytes := by
  cases h with
  | @fails opcode rest _ h =>
      unfold instruction at h
      cases hl : lookup opcode with
      | none =>
          rw [hl] at h
          cases h
          refine ⟨rfl, rfl, fun entry hmem heq => ?_⟩
          obtain ⟨opcode, o, format⟩ := entry
          obtain rfl : opcode = _ := heq
          cases hl.symm.trans (lookup_eq_some_iff.mpr hmem)
      | some entry =>
          rw [hl] at h
          obtain h | ⟨os, r₁, -, hret⟩ := Read.bind_eq_error_iff.mp h
          · obtain ⟨p, rfl, hle, hlt⟩ | ⟨index, rfl, hle⟩ := operands_error h
            · have : p ≤ position + 1 + rest.length := hlt
              exact ⟨hle, by rw [List.length_cons]; omega⟩
            · exact ⟨rfl, hle⟩
          · cases hret

/-- **The decoder accepts the grammar of code and nothing else.**  It returns instructions without
an error just where the bytes are encodings that stand for them.  With an error, which tells what is
wrong at the offset it stops at, it returns the instructions of the bytes before that offset, and no
longer part of the code is a sequence of encodings. -/
theorem decode_accepts_grammar (ctx : Context) (code : List UInt8) :
    (∀ is, (ctx.decode code).error = none ∧ (ctx.decode code).instructions = is ↔
      ctx.Encodes 0 code is) ∧
    ∀ e, (ctx.decode code).error = some e →
      ∃ offset < code.length, e.Tells ctx offset (code.drop offset) ∧
        ctx.Encodes 0 (code.take offset) (ctx.decode code).instructions ∧
        ∀ n, offset < n → n ≤ code.length → ∀ is, ¬ ctx.Encodes 0 (code.take n) is := by
  constructor
  · intro is
    rw [← decodeFrom_eq_iff, Prod.ext_iff]
    exact And.comm
  · intro e he
    obtain ⟨done, rest, is, stop, rfl, hdone, hstop, heq⟩ := ctx.exists_decodeFrom_eq 0 code
    obtain ⟨hinstructions, hstopped⟩ := Prod.ext_iff.mp heq
    obtain rfl : stop = some e := hstopped.symm.trans he
    rw [Nat.zero_add] at hstop
    refine ⟨done.length, ?_, ?_, ?_, ?_⟩
    · cases hstop
      simp
    · rw [List.drop_left]
      exact hstop.tells
    · rw [List.take_left]
      exact (congrArg (ctx.Encodes 0 done) hinstructions).mpr hdone
    · -- a longer front would have an encoding where the decoder found none
      intro n hlt hle is'
      rw [List.length_append] at hle
      obtain ⟨k, rfl⟩ := Nat.exists_eq_add_of_lt hlt
      rw [Nat.add_assoc, List.take_length_add_append]
      rw [← List.take_append_drop (k + 1) rest, ← Nat.zero_add done.length] at hstop
      refine not_encodes_of_stops hdone hstop ?_ is'
      intro hnil
      have := congrArg List.length hnil
      rw [List.length_take, List.length_nil] at this
      omega

/-- Two constants and the call of a native are decoded, and a distance of one byte is not. -/
theorem decode_accepts_grammar_truncated :
    let ctx : Context := ⟨.console, [99], fun _ => none⟩
    let code : List UInt8 := [38, 1, 2, 44, 6, 0, 0, 85, 5]
    (ctx.decode code).error = some (.truncated 8) ∧
      (ctx.decode code).instructions = [⟨0, .op .push, .push [.int 1, .int 2]⟩,
        ⟨3, .op .native, .native 1 2 99 none none⟩] ∧
      ∃ offset < code.length, (Error.truncated 8).Tells ctx offset (code.drop offset) ∧
        ctx.Encodes 0 (code.take offset) (ctx.decode code).instructions ∧
        ∀ n, offset < n → n ≤ code.length → ∀ is, ¬ ctx.Encodes 0 (code.take n) is := by
  have herror : ((⟨.console, [99], fun _ => none⟩ : Context).decode
      [38, 1, 2, 44, 6, 0, 0, 85, 5]).error = some (.truncated 8) := by cbv
  exact ⟨herror, by cbv, (decode_accepts_grammar _ _).2 _ herror⟩

end Context

end ScriptLift.Bytecode
