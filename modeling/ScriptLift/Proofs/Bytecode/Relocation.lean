import Mathlib
import ScriptLift.Proofs.Bytecode.Grammar

/-!
# Moving code

Code means the same wherever it stands, but for its offset: the addresses of its instructions, the
targets of its branches and the positions in its errors move along with it, and nothing else does.
`Read.Moves n g m m'` says this of two readings: from an offset larger by `n`, `m'` reads what `m`
reads, and its value is that of `m` under `g`.  Readings that move are closed under sequencing, and
from those of an instruction it follows for code (`Context.decodeFrom_add`).

So code is decoded piece by piece (`Context.decode_append`).
-/

namespace ScriptLift

/-- The operands of an instruction moved by `n`: a branch is relative to it, a call is not. -/
def Operands.moved (n : Nat) : Operands → Operands
  | .branch target => .branch (target + n)
  | os => os

/-- The instruction moved by `n`. -/
def Instruction.moved (n : Nat) (i : Instruction) : Instruction :=
  ⟨i.address + n, i.kind, i.operands.moved n⟩

namespace Bytecode

/-- The error of code moved by `n`. -/
def Error.moved (n : Nat) : Error → Error
  | truncated position => truncated (position + n)
  | unknownOpcode opcode position => unknownOpcode opcode (position + n)
  | e => e

/-- The same bytes at an offset larger by `n`. -/
def Reader.moved (n : Nat) (r : Reader) : Reader :=
  ⟨r.position + n, r.rest⟩

/-! ### Readings -/

namespace Read

variable {α β γ δ : Type} {n : Nat} {g : α → β} {h : γ → δ} {m : Read α} {m' : Read β}
  {k : α → Read γ} {k' : β → Read δ}

/-- From an offset larger by `n`, the reading `m'` does as `m` does, and its value is that of `m`
under `g`. -/
def Moves (n : Nat) (g : α → β) (m : Read α) (m' : Read β) : Prop :=
  ∀ r : Reader, m' (r.moved n) = ((m r).map (Prod.map g (·.moved n))).mapError (·.moved n)

/-- Two readings one behind the other move if each does. -/
theorem Moves.bind (hm : Moves n g m m') (hk : ∀ a, Moves n h (k a) (k' (g a))) :
    Moves n h (m >>= k) (m' >>= k') := by
  intro r
  change Except.bind (m' (r.moved n)) (fun p => k' p.1 p.2)
    = ((Except.bind (m r) fun p => k p.1 p.2).map _).mapError _
  rw [hm r]
  cases m r with
  | error e => rfl
  | ok p => exact hk p.1 p.2

theorem moves_pure (g : α → β) (a : α) : Moves n g (pure a) (pure (g a)) :=
  fun _ => rfl

/-- An error that names a position names the moved one. -/
theorem moves_throw {e e' : Error} (he : e' = e.moved n) : Moves n g (throw e) (throw e') := by
  subst he
  exact fun _ => rfl

theorem moves_get : Moves n (·.moved n) (get : Read Reader) get :=
  fun _ => rfl

/-- The same bytes are taken wherever they stand. -/
theorem moves_take (count : Nat) : Moves n id (take count) (take count) := by
  intro r
  unfold take
  change (if (r.rest.take count).length < count then _ else _) = _
  split
  · rfl
  · rw [Reader.moved, Nat.add_right_comm]
    rfl

end Read

namespace Context

variable {ctx : Context} {n : Nat}

theorem moves_numbers (fields : List Field) :
    Read.Moves n id (ctx.numbers fields) (ctx.numbers fields) := by
  induction fields with
  | nil => exact Read.moves_pure id []
  | cons field fields ih =>
      have hnumber : Read.Moves n id (ctx.number field) (ctx.number field) :=
        (Read.moves_take _).bind fun bs => Read.moves_pure id _
      exact hnumber.bind fun x => ih.bind fun ns => Read.moves_pure id _

/-- Only the target of a branch depends on the offset. -/
theorem operands?_add (behind n : Nat) (format : Format) (ns : List Nat) (name : List UInt8) :
    ctx.operands? (behind + n) format ns name
      = (ctx.operands? behind format ns name).map (·.moved n) := by
  unfold operands?
  split
  case h_5 x =>
      rw [Option.map_some, Operands.moved, Nat.cast_add, add_right_comm]
  case h_9 packed index =>
      rw [Option.map_map]
      rfl
  all_goals rfl

/-- Of the operands, only the target of a relative jump depends on the position. -/
theorem moves_operands (format : Format) :
    Read.Moves n (·.moved n) (ctx.operands format) (ctx.operands format) := by
  rw [operands_eq]
  refine (moves_numbers _).bind fun ns => (Read.moves_take _).bind fun name =>
    Read.moves_get.bind fun r => ?_
  dsimp only [id]
  rw [Reader.moved, operands?_add]
  cases ctx.operands? r.position format ns name with
  | none => exact Read.moves_throw rfl
  | some os => exact Read.moves_pure _ os

/-- An instruction read `n` bytes further on is the moved instruction. -/
theorem moves_instruction (ctx : Context) (n address : Nat) (opcode : UInt8) :
    Read.Moves n (·.moved n) (ctx.instruction address opcode)
      (ctx.instruction (address + n) opcode) := by
  unfold instruction
  cases lookup opcode with
  | none => exact Read.moves_throw rfl
  | some entry =>
      refine (moves_operands entry.2).bind fun os => ?_
      exact Read.moves_pure (·.moved n) (⟨address, .op entry.1, os⟩ : Instruction)

/-! ### Code -/

/-- An instruction that cannot be read ends the decoding before it. -/
theorem decodeFrom_error {position : Nat} {opcode : UInt8} {rest : List UInt8} {e : Error}
    (h : ctx.instruction position opcode ⟨position + 1, rest⟩ = .error e) :
    ctx.decodeFrom position (opcode :: rest) = ([], some e) := by
  rw [decodeFrom]
  split
  · rename_i e' he'
    rw [h] at he'
    cases he'
    rfl
  · rename_i i r hok
    rw [h] at hok
    cases hok

/-- **Code is decoded alike at every offset.** -/
theorem decodeFrom_add (position n : Nat) (bytes : List UInt8) :
    ctx.decodeFrom (position + n) bytes
      = ((ctx.decodeFrom position bytes).1.map (·.moved n),
        (ctx.decodeFrom position bytes).2.map (·.moved n)) := by
  fun_induction decodeFrom ctx position bytes with
  | case1 position =>
      rw [decodeFrom]
      rfl
  | case2 position opcode rest e herror =>
      have hmoved := ctx.moves_instruction n position opcode ⟨position + 1, rest⟩
      rw [herror, Reader.moved, Nat.add_right_comm] at hmoved
      exact decodeFrom_error hmoved
  | case3 position opcode rest i r hok hle is stop hrest ih =>
      have hmoved := ctx.moves_instruction n position opcode ⟨position + 1, rest⟩
      rw [hok, Reader.moved, Nat.add_right_comm] at hmoved
      rw [decodeFrom_cons hmoved]
      change (_ :: (ctx.decodeFrom (r.position + n) r.rest).1,
        (ctx.decodeFrom (r.position + n) r.rest).2) = _
      rw [ih, hrest]
      rfl

/-- **Decoding is compositional.**  Behind code without an error, other code is decoded as it is
alone, but for the offset: its instructions follow, and its error, if it has one, is the error of
the whole. -/
theorem decode_append {a : List UInt8} (ha : (ctx.decode a).error = none) (b : List UInt8) :
    (ctx.decode (a ++ b)).instructions
        = (ctx.decode a).instructions ++ (ctx.decode b).instructions.map (·.moved a.length) ∧
      (ctx.decode (a ++ b)).error = (ctx.decode b).error.map (·.moved a.length) := by
  have hcode : ctx.decodeFrom 0 a = ((ctx.decode a).instructions, none) := Prod.ext rfl ha
  have hwhole := decodeFrom_append b (decodeFrom_eq_iff.mp hcode)
  rw [decodeFrom_add] at hwhole
  exact ⟨congrArg Prod.fst hwhole, congrArg Prod.snd hwhole⟩

/-- Behind a jump back to the start, a conditional jump moves with its target, a call stays as it
is, and a jump that is cut off fails three bytes later. -/
theorem decode_append_jump :
    let ctx : Context := ⟨.pc, [], fun _ => none⟩
    let a : List UInt8 := [85, 253, 255]
    let b : List UInt8 := [86, 4, 0, 93, 5, 0, 0, 85, 1]
    (ctx.decode a).error = none ∧ (ctx.decode b).error = some (.truncated 8) ∧
      (ctx.decode (a ++ b)).instructions = [⟨0, .op .jump, .branch 0⟩,
        ⟨3, .op .jumpIfZero, .branch 10⟩, ⟨6, .op .call, .call 5⟩] ∧
      (ctx.decode (a ++ b)).error = some (.truncated 11) := by
  intro ctx a b
  have ha : (ctx.decode a).error = none := by dsimp only [ctx, a]; cbv
  have hb : (ctx.decode b).error = some (.truncated 8) := by dsimp only [ctx, b]; cbv
  obtain ⟨his, herror⟩ := decode_append ha b
  refine ⟨ha, hb, ?_, ?_⟩
  · rw [his]
    dsimp only [ctx, a, b]
    cbv
  · rw [herror, hb]
    rfl

end Context

end Bytecode

end ScriptLift
