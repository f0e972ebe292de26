import ScriptLift.Region
import ScriptLift.Resource

/-!
# What decoding leaves

The operands of a decoded instruction are of the shape that its operation asks for
(`Instruction.isWellFormed`), because the format that the table gives each operation is
(`Bytecode.suits_of_lookup`), and the addresses of the instructions increase.  `Read.Yields` says of
a reading that it never goes back and what it gives.

The words before the code are there as a whole whenever they are read (`Arch.word?`).
-/

namespace ScriptLift

/-- The number in a word of the given width, if it is there as a whole. -/
def Arch.word? (arch : Arch) (width : Nat) (bs : List UInt8) : Option Nat :=
  if bs.length = width then some (arch.word bs) else none

/-- A word is read of exactly as many bytes as it is wide. -/
theorem Arch.word?_of_length {arch : Arch} {width : Nat} {bs : List UInt8} (h : bs.length = width) :
    arch.word? width bs = some (arch.word bs) :=
  if_pos h

/-- The operands are of a shape that the operation can be carried out with. -/
def Opcode.accepts : Opcode → Operands → Bool
  | .push, .push _ | .native, .native .. | .call, .call _ => true
  | .load _, .slot n | .store _, .slot n => decide (0 ≤ n)
  | .leave, .ret _ n => decide (0 ≤ n)
  | .jump, .branch _ | .jumpIfZero, .branch _ | .compareJump _, .branch _ => true
  | .push, _ | .native, _ | .call, _ | .load _, _ | .store _, _ | .leave, _ | .jump, _
  | .jumpIfZero, _ | .compareJump _, _ => false
  | .nop, _ | .dup, _ | .drop, _ | .int _, _ | .float _, _ | .intCompare _, _ | .floatCompare _, _
  | .unary _, _ | .enter, _ => true

/-- A load or a store has a slot. -/
theorem Opcode.slot_of_accepts {o : Opcode} {os : Operands} (h : o.accepts os = true)
    (ho : ∃ s, o = .load s ∨ o = .store s) : ∃ n : Nat, os = .slot n := by
  obtain ⟨s, rfl | rfl⟩ := ho
  all_goals
    cases os with
    | slot n => exact ⟨n.toNat, by rw [Int.toNat_of_nonneg (of_decide_eq_true h)]⟩
    | _ => cases h

/-- A jump has a target. -/
theorem Opcode.target_of_accepts {o : Opcode} {os : Operands} (h : o.accepts os = true)
    (ho : o = .jump ∨ o = .jumpIfZero ∨ ∃ r, o = .compareJump r) : ∃ t, os = .branch t := by
  obtain rfl | rfl | ⟨r, rfl⟩ := ho
  all_goals
    cases os with
    | branch t => exact ⟨t, rfl⟩
    | _ => cases h

/-- The instruction is an operation with operands that it can be carried out with. -/
def Instruction.isWellFormed (i : Instruction) : Bool :=
  match i.kind with
  | .op o => o.accepts i.operands
  | .other _ => false

namespace Bytecode

/-! ### Formats -/

/-- The operands that a format stands for. -/
def Format.Describes : Format → Operands → Prop
  | .none, os => os = .none
  | .push _, os | .constant _, os => ∃ values, os = .push values
  | .slot _, os => ∃ n : Nat, os = .slot n
  | .branch, os => ∃ target, os = .branch target
  | .call, os => ∃ target, os = .call target
  | .enter, os => ∃ args locals name, os = .enter args locals name
  | .leave, os => ∃ args returns : Nat, os = .ret args returns
  | .native, os =>
      ∃ args returns hash name resultType, os = .native args returns hash name resultType

/-- The format is one for the operation. -/
def Format.suits : Format → Opcode → Bool
  | .push _, .push | .constant _, .push => true
  | .slot _, .load _ | .slot _, .store _ => true
  | .branch, .jump | .branch, .jumpIfZero | .branch, .compareJump _ => true
  | .call, .call | .leave, .leave | .native, .native => true
  | _, .push | _, .load _ | _, .store _ | _, .jump | _, .jumpIfZero | _, .compareJump _ | _, .call
  | _, .leave | _, .native => false
  | _, _ => true

/-- Operands that a suitable format describes are accepted by the operation. -/
theorem Format.Describes.accepts {format : Format} {o : Opcode} {os : Operands}
    (h : format.Describes os) (hs : format.suits o = true) : o.accepts os = true := by
  cases format with
  | none =>
      obtain rfl : os = .none := h
      cases o <;> first | rfl | cases hs
  | push | constant =>
      obtain ⟨values, rfl⟩ := h
      cases o <;> first | rfl | cases hs
  | slot =>
      obtain ⟨n, rfl⟩ := h
      cases o <;> first | rfl | cases hs
  | branch =>
      obtain ⟨target, rfl⟩ := h
      cases o <;> first | rfl | cases hs
  | call =>
      obtain ⟨target, rfl⟩ := h
      cases o <;> first | rfl | cases hs
  | enter =>
      obtain ⟨args, locals, name, rfl⟩ := h
      cases o <;> first | rfl | cases hs
  | leave =>
      obtain ⟨args, returns, rfl⟩ := h
      cases o <;> first | rfl | cases hs
  | native =>
      obtain ⟨args, returns, hash, name, resultType, rfl⟩ := h
      cases o <;> first | rfl | cases hs

/-- Every entry of the table pairs an operation with a format that suits it. -/
theorem suits_table : table.all (fun entry => entry.2.2.suits entry.2.1) = true := by
  decide

/-- The table gives each operation a format for it. -/
theorem suits_of_lookup {opcode : UInt8} {o : Opcode} {format : Format}
    (h : lookup opcode = some (o, format)) : format.suits o = true := by
  obtain ⟨before, behind, heq, -⟩ := List.lookup_eq_some_iff.mp h
  have hmem : (opcode, o, format) ∈ table := by
    rw [heq]
    simp
  exact List.all_eq_true.mp suits_table _ hmem

/-! ### Readings -/

namespace Read

variable {α β : Type} {m : Read α} {k : α → Read β} {post : α → Prop} {post' : β → Prop}

/-- The reading never goes back, and what it gives satisfies `post`. -/
def Yields (m : Read α) (post : α → Prop) : Prop :=
  ∀ r a r', m r = .ok (a, r') → r.position ≤ r'.position ∧ post a

theorem yields_pure {a : α} (h : post a) : Yields (pure a) post := by
  rintro r a r' ⟨⟩
  exact ⟨Nat.le_refl _, h⟩

theorem yields_throw (e : Error) : Yields (throw e) post := by
  rintro r a r' ⟨⟩

theorem yields_get : Yields get fun _ => True := by
  rintro r a r' ⟨⟩
  exact ⟨Nat.le_refl _, trivial⟩

/-- The second reading may use what is known of the first one's result. -/
theorem Yields.bind (hm : Yields m post) (hk : ∀ a, post a → Yields (k a) post') :
    Yields (m >>= k) post' := by
  intro r b r'' h
  change Except.bind (m r) (fun p => k p.1 p.2) = _ at h
  cases hr : m r with
  | error e => simp [hr, Except.bind] at h
  | ok p =>
      simp only [hr, Except.bind] at h
      obtain ⟨hle, ha⟩ := hm _ _ _ hr
      obtain ⟨hle', hb⟩ := hk _ ha _ _ _ h
      exact ⟨Nat.le_trans hle hle', hb⟩

/-- What is taken is there as a whole. -/
theorem yields_take (n : Nat) : Yields (take n) fun bs => bs.length = n := by
  intro r a r' h
  unfold take at h
  split at h
  · cases h
  · rename_i hn
    obtain ⟨rfl, rfl⟩ := Prod.mk.inj (Except.ok.inj h)
    refine ⟨Nat.le_add_right _ _, ?_⟩
    have := List.length_take_le n r.rest
    omega

end Read

namespace Context

variable (ctx : Context)

theorem yields_number (field : Field) : (ctx.number field).Yields fun _ => True :=
  (Read.yields_take _).bind fun _ _ => Read.yields_pure trivial

theorem yields_literals (fields : List Field) : (ctx.literals fields).Yields fun _ => True := by
  induction fields with
  | nil => exact Read.yields_pure trivial
  | cons field fields ih =>
      exact (ctx.yields_number field).bind fun _ _ => ih.bind fun _ _ => Read.yields_pure trivial

/-- **Operands are what their format stands for.** -/
theorem yields_operands (format : Format) : (ctx.operands format).Yields format.Describes := by
  have hn := ctx.yields_number
  cases format with
  | none => exact Read.yields_pure rfl
  | push fields => exact (ctx.yields_literals fields).bind fun _ _ => Read.yields_pure ⟨_, rfl⟩
  | constant value => exact Read.yields_pure ⟨_, rfl⟩
  | slot field => exact (hn _).bind fun n _ => Read.yields_pure ⟨n, rfl⟩
  | branch => exact (hn _).bind fun _ _ => Read.yields_get.bind fun _ _ => Read.yields_pure ⟨_, rfl⟩
  | call => exact (hn _).bind fun _ _ => Read.yields_pure ⟨_, rfl⟩
  | enter =>
      exact (hn _).bind fun _ _ => (hn _).bind fun _ _ => (hn _).bind fun _ _ =>
        (Read.yields_take _).bind fun _ _ => Read.yields_pure ⟨_, _, _, rfl⟩
  | leave => exact (hn _).bind fun args _ => (hn _).bind fun n _ => Read.yields_pure ⟨args, n, rfl⟩
  | native =>
      refine (hn _).bind fun packed _ => (hn _).bind fun index _ => ?_
      cases h : ctx.nativeOperands packed index with
      | error e => exact Read.yields_throw e
      | ok operands =>
          refine Read.yields_pure ?_
          unfold nativeOperands at h
          split at h
          · cases h
          · cases h
            exact ⟨_, _, _, _, _, rfl⟩

/-- An instruction is well-formed and stands at its opcode. -/
theorem yields_instruction (address : Nat) (opcode : UInt8) :
    (ctx.instruction address opcode).Yields
      fun i => i.address = address ∧ i.isWellFormed = true := by
  unfold instruction
  cases h : lookup opcode with
  | none => exact Read.yields_throw _
  | some entry =>
      obtain ⟨o, format⟩ := entry
      exact (ctx.yields_operands format).bind fun os hos =>
        Read.yields_pure ⟨rfl, hos.accepts (suits_of_lookup h)⟩

/-- **The instructions decoded are well-formed, and their addresses increase.** -/
theorem decodeFrom_spec (position : Nat) (bytes : List UInt8) :
    (∀ i ∈ (ctx.decodeFrom position bytes).1,
        (position : Int) ≤ i.address ∧ i.isWellFormed = true) ∧
      ((ctx.decodeFrom position bytes).1.map (·.address)).Pairwise (· < ·) := by
  fun_induction decodeFrom ctx position bytes with
  | case1 => simp
  | case2 position opcode rest e h => simp
  | case3 position opcode rest i r h hle is e heq ih =>
      obtain ⟨hpos, haddr, hwf⟩ := ctx.yields_instruction position opcode _ _ _ h
      rw [heq] at ih
      obtain ⟨hall, hsorted⟩ := ih
      have hnext : ∀ j ∈ is, i.address < j.address := by
        intro j hj
        have := (hall j hj).1
        simp only at hpos
        omega
      refine ⟨fun j hj => ?_, ?_⟩
      · rcases List.mem_cons.mp hj with rfl | hj
        · exact ⟨by omega, hwf⟩
        · have := hnext j hj
          exact ⟨by omega, (hall j hj).2⟩
      · rw [List.map_cons, List.pairwise_cons]
        exact ⟨by simpa using hnext, hsorted⟩

end Context

end Bytecode

/-! ### The words before the code -/

namespace Region

variable {arch : Arch} {name : String} {region code : List UInt8} {natives : List Int}

/-- As many hashes are read as are asked for. -/
theorem length_hashes (arch : Arch) (count : Nat) (bs : List UInt8) :
    (hashes arch count bs).length = count := by
  induction count generalizing bs with
  | zero => rfl
  | succ count ih => rw [hashes, List.length_cons, ih]

/-- Where there are enough bytes, every hash is a whole word. -/
theorem word?_hashes {count n : Nat} {bs : List UInt8} (h : 8 * count ≤ bs.length)
    (hn : n < count) :
    (arch.word? 8 ((bs.drop (8 * n)).take 8)).map Int.ofNat = (hashes arch count bs)[n]? := by
  induction count generalizing bs n with
  | zero => omega
  | succ count ih =>
      cases n with
      | zero =>
          rw [Arch.word?_of_length (by simp; omega)]
          simp [hashes]
      | succ n =>
          have hlen : 8 * count ≤ (bs.drop 8).length := by
            rw [List.length_drop]
            omega
          have := ih hlen (Nat.lt_of_succ_lt_succ hn)
          rw [List.drop_drop] at this
          rw [hashes, List.getElem?_cons_succ, ← this, Nat.mul_succ, Nat.add_comm]

/-- **Every word before the code is read as a whole**, and the code is as long as they say. -/
structure Whole (arch : Arch) (region : List UInt8) (natives : List Int) (code : List UInt8) :
    Prop where
  codeSize : arch.word? 4 (region.take 4) = some code.length
  count : arch.word? 4 ((region.drop 4).take 4) = some natives.length
  hashes : ∀ n, n < natives.length →
    (arch.word? 8 ((region.drop (8 + 8 * n)).take 8)).map Int.ofNat = natives[n]?

/-- Regions that are accepted hold every word they announce. -/
theorem whole_of_sections (h : sections arch name region = .ok (natives, code)) :
    Whole arch region natives code := by
  unfold sections at h
  split at h
  · cases h
  rename_i hlen
  dsimp only at h
  split at h
  · cases h
  rename_i hsize
  cases h
  -- both checks bound what is read: the first the two counts, the second what they announce
  refine ⟨?_, ?_, fun n hn => ?_⟩
  · rw [Arch.word?_of_length (by simp; omega)]
    simp
    omega
  · rw [Arch.word?_of_length (by simp; omega), length_hashes]
  · rw [length_hashes] at hn
    rw [← word?_hashes (by simp; omega) hn, List.drop_drop]

/-- **What unpacking a region leaves**: well-formed instructions at increasing addresses, and every
word before the code read as a whole. -/
theorem unpack_spec {native? : Int → Option Native} {d : Bytecode.Decoding}
    (h : unpack arch name native? region = .ok (natives, d)) :
    (∀ i ∈ d.instructions, i.isWellFormed = true) ∧
      (d.instructions.map (·.address)).Pairwise (· < ·) ∧
      ∃ code, Whole arch region natives code := by
  unfold unpack at h
  cases hs : sections arch name region with
  | error e =>
      rw [hs] at h
      cases h
  | ok out =>
      obtain ⟨natives', code⟩ := out
      rw [hs] at h
      obtain ⟨rfl, rfl⟩ := Prod.mk.inj (Except.ok.inj h)
      obtain ⟨hall, hsorted⟩ :=
        Bytecode.Context.decodeFrom_spec ⟨arch, natives', native?⟩ 0 code
      exact ⟨fun i hi => (hall i hi).2, hsorted, code, whole_of_sections hs⟩

end Region

namespace Resource

/-- **Every word of the resource was read as a whole** from the data. -/
structure Whole (data : List UInt8) (r : Resource) : Prop where
  version : r.arch.word? 4 ((data.drop 4).take 4) = some r.version
  virtualFlags : r.arch.word? 4 ((data.drop 8).take 4) = some r.virtualFlags
  physicalFlags : r.arch.word? 4 ((data.drop 12).take 4) = some r.physicalFlags

/-- Resources that are accepted hold every word of their header. -/
theorem whole_of_unpack {data : List UInt8} {name : String} {size : Int} {arch : Arch}
    {r : Resource} {events : List Event} (h : unpack data name size arch = .ok (r, events)) :
    r.Whole data := by
  unfold unpack at h
  split at h
  · cases h
  split at h
  · cases h
  split at h
  · cases h
  rename_i hsize hmin _
  have hlen : 16 ≤ data.length := by
    simp only [headerSize] at hmin
    omega
  cases h
  refine ⟨?_, ?_, ?_⟩ <;> rw [Arch.word?_of_length (by simp; omega)]

end Resource

end ScriptLift
