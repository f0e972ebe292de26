import ScriptLift.Arch
import ScriptLift.Bytecode.Table
import ScriptLift.Event
import ScriptLift.Natives.Entry

/-!
# Decoding

Bytes are read from the front, one field after the other, and each reading leaves fewer bytes or
as many (`Shrinks`).  Code is decoded instruction by instruction until no byte is left or a reading
fails; the instructions before a failure are kept.  An instruction's address is the offset of its
opcode, and a branch goes to the offset behind its operand plus a signed distance.
-/

namespace ScriptLift.Bytecode

/-- Why bytes are no code. -/
inductive Error where
  /-- Fewer bytes are left than a field needs. -/
  | truncated (position : Nat)
  | unknownOpcode (opcode : UInt8) (position : Nat)
  /-- An index that the natives of the script do not have. -/
  | nativeIndex (index count : Nat)
  /-- Too few bytes for the counts before the code. -/
  | headerTruncated (name : String)
  /-- Fewer bytes than the counts before the code declare. -/
  | headerMismatch (name : String) (natives codeSize size : Nat)
  deriving DecidableEq, Repr

namespace Error

/-- The text of an error, with the position or the counts it is about. -/
def message : Error → String
  | truncated position => "truncated operand at 0x" ++ Text.hex 0 position
  | unknownOpcode opcode position =>
    "unknown opcode " ++ toString opcode.toNat ++ " at 0x" ++ Text.hex 0 position
  | nativeIndex index count =>
    "native index " ++ toString index ++ " out of range (" ++ toString count ++ " natives)"
  | headerTruncated name => name ++ ": script header truncated"
  | headerMismatch name natives codeSize size =>
    name ++ ": header declares " ++ toString natives ++ " natives and " ++ toString codeSize
      ++ " code bytes but the region holds " ++ toString size ++ " bytes"

end Error

/-! ### Reading -/

/-- The bytes still to be read, and the offset of the first of them. -/
structure Reader where
  position : Nat
  rest : List UInt8
  deriving Repr

/-- A computation that reads bytes. -/
abbrev Read : Type → Type :=
  StateT Reader (Except Error)

namespace Read

/-- The next `n` bytes. -/
def take (n : Nat) : Read (List UInt8) := fun r =>
  if (r.rest.take n).length < n then .error (.truncated r.position)
  else .ok (r.rest.take n, ⟨r.position + n, r.rest.drop n⟩)

/-- A reading never leaves more bytes than there were. -/
def Shrinks {α : Type} (m : Read α) : Prop :=
  ∀ r a r', m r = .ok (a, r') → r'.rest.length ≤ r.rest.length

theorem shrinks_pure {α : Type} (a : α) : Shrinks (pure a : Read α) := by
  rintro r a r' ⟨⟩
  exact Nat.le_refl _

theorem shrinks_throw {α : Type} (e : Error) : Shrinks (throw e : Read α) := by
  rintro r a r' ⟨⟩

theorem shrinks_get : Shrinks (get : Read Reader) := by
  rintro r a r' ⟨⟩
  exact Nat.le_refl _

/-- Two readings one behind the other take what both take. -/
theorem shrinks_bind {α β : Type} {m : Read α} {k : α → Read β} (hm : Shrinks m)
    (hk : ∀ a, Shrinks (k a)) : Shrinks (m >>= k) := by
  intro r b r'' h
  change Except.bind (m r) (fun p => k p.1 p.2) = _ at h
  cases hr : m r with
  | error e => simp [hr, Except.bind] at h
  | ok p =>
    simp only [hr, Except.bind] at h
    exact Nat.le_trans (hk _ _ _ _ h) (hm _ _ _ hr)

/-- The bytes taken are gone. -/
theorem shrinks_take (n : Nat) : Shrinks (take n) := by
  intro r a r' h
  unfold take at h
  split at h
  next => cases h
  next =>
    obtain ⟨-, rfl⟩ := Prod.mk.inj (Except.ok.inj h)
    simp

end Read

/-- The instructions decoded, why they end before the code does if they do, and what is
reported. -/
structure Decoding where
  instructions : List Instruction
  error : Option Error
  events : List Event
  deriving Repr

/-- What decoding needs to know besides the bytes: the architecture, the natives that the script
refers to, and what a dictionary knows about each. -/
structure Context where
  arch : Arch
  natives : List Int
  native? : Int → Option Native

namespace Context

/-- The number in the next field. -/
def number (ctx : Context) (field : Field) : Read Nat := do
  return ctx.arch.word (← Read.take field.width)

/-- The constant that a field's number stands for. -/
def literalOf (field : Field) (n : Nat) : Literal :=
  match field with
  | .s16 => .int (signed16 n)
  | .f32 => .float (.widen n)
  | _ => .int n

/-- The constants in the next fields. -/
def literals (ctx : Context) : List Field → Read (List Literal)
  | [] => return []
  | field :: fields => do
    let v := literalOf field (← ctx.number field)
    return v :: (← ctx.literals fields)

/-- The text of a name; a byte outside ASCII is replaced. -/
def asciiName (bs : List UInt8) : String :=
  .ofList (bs.map fun b => if b.toNat < 0x80 then Char.ofNat b.toNat else '\ufffd')

/-- The operands of a native call with the given index and packed counts. -/
def nativeOperands (ctx : Context) (packed index : Nat) : Except Error Operands :=
  match ctx.natives[index]? with
  | none => .error (.nativeIndex index ctx.natives.length)
  | some hash =>
    let known := ctx.native? hash
    .ok (.native (packed / 4 : Nat) (packed % 4 : Nat) hash (known.map (·.name))
      (known.bind (·.resultType)))

/-- The operands of a given format. -/
def operands (ctx : Context) : Format → Read Operands
  | .none => return .none
  | .push fields => return .push (← ctx.literals fields)
  | .constant value => return .push [value]
  | .slot field => return .slot (← ctx.number field)
  | .branch => do
    let distance := signed16 (← ctx.number .s16)
    return .branch ((← get).position + distance)
  | .call => return .call (← ctx.number .u24)
  | .enter => do
    let args ← ctx.number .u8
    let locals ← ctx.number .u16
    let length ← ctx.number .u8
    return .enter args locals (asciiName (← Read.take length))
  | .leave => do
    let args ← ctx.number .u8
    return .ret args (← ctx.number .u8)
  | .native => do
    let packed ← ctx.number .u8
    let index ← ctx.number .u16
    match ctx.nativeOperands packed index with
    | .ok operands => return operands
    | .error e => throw e

theorem shrinks_number (ctx : Context) (field : Field) : (ctx.number field).Shrinks :=
  Read.shrinks_bind (Read.shrinks_take _) fun _ => Read.shrinks_pure _

/-- By induction on the fields: each literal is one number. -/
theorem shrinks_literals (ctx : Context) (fields : List Field) :
    (ctx.literals fields).Shrinks := by
  induction fields with
  | nil => exact Read.shrinks_pure _
  | cons field fields ih =>
    exact Read.shrinks_bind (ctx.shrinks_number field) fun _ =>
      Read.shrinks_bind ih fun _ => Read.shrinks_pure _

/-- Whatever the format, the operands are read from the front. -/
theorem shrinks_operands (ctx : Context) (format : Format) : (ctx.operands format).Shrinks := by
  have hn := ctx.shrinks_number
  cases format with
  | none | constant => exact Read.shrinks_pure _
  | push fields =>
    exact Read.shrinks_bind (ctx.shrinks_literals fields) fun _ => Read.shrinks_pure _
  | slot field => exact Read.shrinks_bind (hn _) fun _ => Read.shrinks_pure _
  | branch =>
    exact Read.shrinks_bind (hn _) fun _ =>
      Read.shrinks_bind Read.shrinks_get fun _ => Read.shrinks_pure _
  | call => exact Read.shrinks_bind (hn _) fun _ => Read.shrinks_pure _
  | enter =>
    exact Read.shrinks_bind (hn _) fun _ => Read.shrinks_bind (hn _) fun _ =>
      Read.shrinks_bind (hn _) fun _ => Read.shrinks_bind (Read.shrinks_take _) fun _ =>
        Read.shrinks_pure _
  | leave =>
    exact Read.shrinks_bind (hn _) fun _ => Read.shrinks_bind (hn _) fun _ => Read.shrinks_pure _
  | native =>
    refine Read.shrinks_bind (hn _) fun packed => Read.shrinks_bind (hn _) fun index => ?_
    cases ctx.nativeOperands packed index with
    | ok => exact Read.shrinks_pure _
    | error => exact Read.shrinks_throw _

/-- The instruction with the opcode just read, which was at `address`. -/
def instruction (ctx : Context) (address : Nat) (opcode : UInt8) : Read Instruction :=
  match lookup opcode with
  | none => throw (.unknownOpcode opcode address)
  | some (o, format) => do return ⟨address, .op o, ← ctx.operands format⟩

/-- What makes `decodeFrom` end: an opcode and its operands leave fewer bytes. -/
theorem shrinks_instruction (ctx : Context) (address : Nat) (opcode : UInt8) :
    (ctx.instruction address opcode).Shrinks := by
  unfold instruction
  cases lookup opcode with
  | none => exact Read.shrinks_throw _
  | some p => exact Read.shrinks_bind (ctx.shrinks_operands _) fun _ => Read.shrinks_pure _

/-- The instructions in the bytes at `position`, up to the end or to an error. -/
def decodeFrom (ctx : Context) (position : Nat) : List UInt8 → List Instruction × Option Error
  | [] => ([], none)
  | opcode :: rest =>
    match h : ctx.instruction position opcode ⟨position + 1, rest⟩ with
    | .error e => ([], some e)
    | .ok (i, r) =>
      have := ctx.shrinks_instruction position opcode _ _ _ h
      let (is, e) := ctx.decodeFrom r.position r.rest
      (i :: is, e)
termination_by bytes => bytes.length
decreasing_by exact Nat.lt_succ_of_le this

/-- Decode code from its first byte. -/
def decode (ctx : Context) (code : List UInt8) : Decoding :=
  let (instructions, error) := ctx.decodeFrom 0 code
  { instructions, error, events :=
      if error.isNone then [.decoded instructions.length code.length] else [] }

end Context

end ScriptLift.Bytecode
