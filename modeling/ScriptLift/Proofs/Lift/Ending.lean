import ScriptLift.Proofs.ControlFlow
import ScriptLift.Proofs.Lift.Effect

/-!
# How a block ends

The statements lifted from a block are plain ones and then what its last instruction makes of the
end of the block (`Ending`): a return, a `goto`, a branch, or nothing where control just passes on.
`Ending.Fits` says which ending a last instruction gives, and `Lift.runBlock_ends` that carrying out
a block leaves exactly such statements, and the continuation that goes with them.
-/

namespace ScriptLift

/-- What stands at the end of a lifted block. -/
inductive Ending where
  | stop (values : List Expr)
  | goto (target : Int)
  /-- A branch on a condition; without a second part its target is the join. -/
  | fork (condition : Expr) (thenBlock join : Int) (elseBlock : Option Int)
  /-- Control goes on behind the block, if there is anything. -/
  | pass (address : Option Int)

namespace Ending

/-- The statements an ending writes. -/
def statements : Ending → List Stmt
  | stop values => [.ret values]
  | goto target => [.goto target]
  | fork condition thenBlock join elseBlock => [.branch condition thenBlock (some join) elseBlock]
  | pass _ => []

/-- Where the layout goes on behind the ending. -/
def continuation : Ending → Option Int
  | fork _ _ join _ => some join
  | pass address => address
  | _ => none

/-- Where control goes on behind the ending, if there is no choice. -/
def onward? : Ending → Option (Option Int)
  | goto target => some (some target)
  | pass address => some address
  | _ => none

/-- The addresses that control can go to from the ending. -/
def exits : Ending → List Int
  | stop _ => []
  | goto target => [target]
  | fork _ thenBlock join none => [thenBlock, join]
  | fork _ thenBlock _ (some elseBlock) => [thenBlock, elseBlock]
  | pass address => address.toList

/-- The continuation that the ending leaves behind, given the one before. -/
def close (before : Option Int) : Ending → Option Int
  | fork _ _ join _ => some join
  | _ => before

/-- The endings that a last instruction can give in a block that falls through to `ft`. -/
inductive Fits (r : Routine) (last : Instruction) (ft : Option Int) : Ending → Prop where
  | stop {values : List Expr} : last.kind = .op .leave → Fits r last ft (.stop values)
  | goto {t : Int} : last.kind = .op .jump → last.branchTarget? = some t → Fits r last ft (.goto t)
  /-- A conditional jump with nothing behind it. -/
  | dangling {t : Int} : last.isConditional = true → last.branchTarget? = some t → ft = none →
      Fits r last ft (.goto t)
  | fork {t n : Int} {c : Expr} : last.isConditional = true → last.branchTarget? = some t →
      ft = some n → Fits r last ft (.fork c n (r.elseBranch n t).2 (r.elseBranch n t).1)
  | pass : last.isTransfer = false → Fits r last ft (.pass ft)

/-- The target of a conditional jump is the second part of the branch, or the join if there is no
second part. -/
theorem elseBranch_eq (r : Routine) (n t : Int) :
    r.elseBranch n t = (none, t) ∨ ∃ join, r.elseBranch n t = (some t, join) := by
  unfold Routine.elseBranch
  split
  · exact Or.inl rfl
  · exact Or.inl rfl
  · split
    · split
      · exact Or.inr ⟨_, rfl⟩
      · exact Or.inl rfl
    · exact Or.inl rfl

/-- A fitting ending leads wherever the last instruction does. -/
theorem Fits.mem_exits {r : Routine} {last : Instruction} {e : Ending}
    (h : e.Fits r last (last.fallThrough? r.code)) {t : Int} (ht : t ∈ last.goesTo r.code) :
    t ∈ e.exits := by
  have ht' : last.fallThrough? r.code = some t ∨ last.jumpTarget? = some t := by
    simpa using (List.mem_filter.mp ht).1
  cases h with
  | stop hk =>
      simp [Instruction.fallThrough?, Instruction.jumpTarget?, hk, not_conditional_of_leave hk]
        at ht'
  | goto hk hb =>
      simp only [Instruction.fallThrough?, Instruction.jumpTarget?, hk, or_true, true_or, if_true,
        reduceCtorEq, false_or, hb, Option.some.injEq] at ht'
      simp [exits, ht']
  | dangling hc hb hn =>
      simp only [hn, reduceCtorEq, false_or, Instruction.jumpTarget?, hc, or_true, if_true, hb,
        Option.some.injEq] at ht'
      simp [exits, ht']
  | @fork t' n c hc hb hn =>
      simp only [hn, Instruction.jumpTarget?, hc, or_true, if_true, hb, Option.some.injEq] at ht'
      rcases elseBranch_eq r n t' with he | ⟨join, he⟩
      · rw [he]
        simpa [exits, eq_comm] using ht'
      · rw [he]
        simpa [exits, eq_comm] using ht'
  | pass hk =>
      have hnt : ¬ last.isTransfer = true := by simp [hk]
      rw [isTransfer_iff, not_or, not_or] at hnt
      simp only [Instruction.jumpTarget?, hnt.2.1, hnt.2.2, or_self, if_false, reduceCtorEq,
        or_false] at ht'
      simp [exits, ht']

/-- Where the second part of a branch starts depends on the code only. -/
theorem elseBranch_congr {r r' : Routine} (h : r'.code = r.code)
    (n t : Int) : r'.elseBranch n t = r.elseBranch n t := by
  obtain ⟨_, _, code, _, _, _, _, _, _⟩ := r
  obtain ⟨_, _, code', _, _, _, _, _, _⟩ := r'
  obtain rfl : code' = code := h
  rfl

/-- Only the code of the routine matters. -/
theorem Fits.congr {r r' : Routine} {last : Instruction} {ft : Option Int} {e : Ending}
    (h : e.Fits r' last ft) (hc : r'.code = r.code) : e.Fits r last ft := by
  cases h with
  | stop h => exact .stop h
  | goto h ht => exact .goto h ht
  | dangling h ht hn => exact .dangling h ht hn
  | fork h ht hn =>
      rw [elseBranch_congr hc]
      exact .fork h ht hn
  | pass h => exact .pass h

end Ending

/-- The block holds plain statements and then an ending. -/
structure Block.Formed (b : Block) (plain : List Stmt) (e : Ending) : Prop where
  allPlain : ∀ s ∈ plain, s.IsPlain
  statements : b.statements = plain ++ e.statements
  continuation : b.continuation = e.continuation

/-- How the block ends, told by its last statement. -/
def Block.ending (b : Block) : Ending :=
  match b.statements.getLast? with
  | some (.ret values) => .stop values
  | some (.goto target) => .goto target
  | some (.branch condition thenBlock (some join) elseBlock) =>
    .fork condition thenBlock join elseBlock
  | _ => .pass b.continuation

/-- The last statement tells the ending, as no plain one can be taken for it. -/
theorem Block.Formed.ending_eq {b : Block} {plain : List Stmt} {e : Ending}
    (h : b.Formed plain e) : b.ending = e := by
  unfold Block.ending
  rw [h.statements, h.continuation]
  cases e with
  | stop | goto | fork => simp [Ending.statements]
  | pass n =>
      simp only [Ending.statements, List.append_nil, Ending.continuation]
      have hplain : ∀ s, plain.getLast? = some s → s.IsPlain :=
        fun s hs => h.allPlain s (List.mem_of_getLast? hs)
      split
      · rename_i hs
        exact (hplain _ hs).elim
      · rename_i hs
        exact (hplain _ hs).elim
      · rename_i hs
        exact (hplain _ hs).elim
      · rfl

/-- Between the frames a block came to its end: `plain` was emitted and then the ending `e`, and
nothing else has changed but what an instruction may change. -/
structure Frame.Ends (f : Frame) (plain : List Stmt) (e : Ending) (f' : Frame) : Prop where
  handled : f'.program.handled = f.program.handled
  name : f'.routine.name = f.routine.name
  address : f'.routine.address = f.routine.address
  code : f'.routine.code = f.routine.code
  graph : f'.routine.graph = f.routine.graph
  block : f'.block = { f.block with
    statements := f.block.statements ++ (plain ++ e.statements)
    continuation := e.close f.block.continuation }

namespace Frame.Ends

variable {f f' f'' : Frame} {ss ts : List Stmt} {e : Ending}

/-- Statements in front of an end that was come to. -/
theorem of_emits (h : f.Emits ss f') (h' : f'.Ends ts e f'') : f.Ends (ss ++ ts) e f'' where
  handled := h'.handled.trans h.handled
  name := h'.name.trans h.name
  address := h'.address.trans h.address
  code := h'.code.trans h.code
  graph := h'.graph.trans h.graph
  block := by rw [h'.block, h.block]; simp

end Frame.Ends

/-- Emitting an ending that leaves the continuation alone ends the block. -/
theorem Frame.Emits.ends {f f' : Frame} {e : Ending} {ss : List Stmt}
    (h : f.Emits (ss ++ e.statements) f')
    (he : e.close f.block.continuation = f.block.continuation) : f.Ends ss e f' :=
  ⟨h.handled, h.name, h.address, h.code, h.graph, by rw [h.block, he]⟩

namespace Lift

variable {α β : Type}

/-- If the computation comes to a value, the block has come to an end that `last` can give. -/
def Ends (m : Lift α) (last : Instruction) : Prop :=
  ∀ (f f' : Frame) (a : α), m.exec f = (.ok a, f') →
    ∃ plain e, (∀ s ∈ plain, s.IsPlain) ∧ e.Fits f.routine last f.block.fallthrough ∧
      f.Ends plain e f'

/-- What is plain comes in front of the end that the second computation gives. -/
theorem Plain.bind_ends {m : Lift α} {k : α → Lift β} {last : Instruction} (h : Plain m)
    (hk : ∀ a, Ends (k a) last) : Ends (m >>= k) last := by
  intro f f' b hb
  obtain ⟨ss, hss, hm⟩ := h f
  rw [exec_bind] at hb
  generalize m.exec f = out at hb hm
  obtain ⟨v, f₁⟩ := out
  cases v with
  | error e => cases hb
  | ok a =>
      obtain ⟨plain, e, hplain, he, hends⟩ := hk a f₁ f' b hb
      refine ⟨ss ++ plain, e, fun s hs => ?_, ?_, hends.of_emits hm⟩
      · exact (List.mem_append.mp hs).elim (hss s) (hplain s)
      · have := he.congr hm.code
        rwa [hm.block] at this

/-! ### Returns -/

/-- What is inferred of a return is kept in the result of the routine. -/
theorem inferReturn_ok {r r' : Routine} {count : Int} {top : DataType} {events : List Event}
    (h : r.inferReturn count top = .ok (r', events)) : ∃ result, r' = { r with result } := by
  unfold Routine.inferReturn at h
  split at h
  · cases h
  split at h
  · cases h
    exact ⟨_, rfl⟩
  split at h
  · cases h
    exact ⟨_, rfl⟩
  split at h
  · cases h
    exact ⟨_, rfl⟩
  · cases h
    exact ⟨_, rfl⟩

theorem quiet_inferReturn (count : Int) (values : List Expr) :
    Quiet (inferReturn count values) := by
  intro f
  simp only [inferReturn, exec_bind, exec_get, exec_liftM]
  generalize h : f.routine.inferReturn count _ = out
  cases out with
  | error e => exact .refl f
  | ok out =>
      obtain ⟨r, events⟩ := out
      obtain ⟨result, rfl⟩ := inferReturn_ok h
      exact ⟨rfl, rfl, rfl, rfl, rfl, by simp [Frame.report]⟩

/-- A return ends its block with itself. -/
theorem ends_leave {last : Instruction} (h : last.kind = .op .leave) (returns : Int) :
    Ends (leave returns) last := by
  have tail : Ends (do
      let values ← popMany returns
      inferReturn returns values
      emit (.ret values)) last := by
    refine (quiet_popMany returns).plain.bind_ends fun values =>
      (quiet_inferReturn returns values).plain.bind_ends fun _ => ?_
    intro f f' a hf
    cases hf
    exact ⟨[], .stop values, by simp, .stop h, (emits_emit _ f).ends rfl⟩
  unfold leave
  split
  · exact (quiet_inferReturn _ _).plain.bind_ends fun _ => tail
  · exact tail

/-! ### Jumps -/

/-- The target of a jump is in its operands. -/
theorem target_eq {i : Instruction} {t : Int} (h : i.target = .ok t) :
    i.branchTarget? = some t := by
  unfold Instruction.target at h
  split at h
  · cases h
    assumption
  · cases h

/-- A jump ends its block with a `goto`. -/
theorem ends_jump {last : Instruction} (h : last.kind = .op .jump) :
    Ends (execute .jump last) last := by
  intro f f' a hf
  simp only [execute, exec_bind, exec_liftM] at hf
  cases ht : last.target with
  | error e => simp [ht] at hf
  | ok t =>
      simp only [ht, exec_emit] at hf
      cases hf
      exact ⟨[], .goto t, by simp, .goto h (target_eq ht), (emits_emit _ f).ends rfl⟩

/-- A conditional jump ends its block with a branch, or with a `goto` if nothing follows it. -/
theorem ends_branch {last : Instruction} (h : last.isConditional = true) (c : Expr) :
    Ends (branch last c) last := by
  intro f f' a hf
  simp only [branch, exec_bind, exec_liftM] at hf
  cases ht : last.target with
  | error e => simp [ht] at hf
  | ok t =>
      simp only [ht, exec_get] at hf
      cases hft : f.block.fallthrough with
      | none =>
          simp only [hft, exec_bind, exec_emit] at hf
          cases hf
          refine ⟨[_], .goto t, ?_, .dangling h (target_eq ht) rfl,
            ((emits_emit _ f).trans (emits_emit _ _)).ends rfl⟩
          simp [Stmt.IsPlain]
      | some n =>
          simp only [hft, exec_bind, exec_emit, exec_modify] at hf
          cases hf
          exact ⟨[], _, by simp, .fork h (target_eq ht) rfl, rfl, rfl, rfl, rfl, rfl, rfl⟩

/-- **A transfer of control ends its block.** -/
theorem ends_execute {o : Opcode} {last : Instruction} (h : o.isTransfer = true)
    (hk : last.kind = .op o) : Ends (execute o last) last := by
  cases o with
  | leave =>
      simp only [execute]
      split
      · exact ends_leave hk _
      · intro f f' a hf
        cases hf
  | jump => exact ends_jump hk
  | jumpIfZero =>
      refine quiet_pop.plain.bind_ends fun c => ends_branch ?_ c
      simp [Instruction.isConditional, Kind.isConditional, Opcode.isConditional, hk]
  | compareJump r =>
      refine quiet_pop.plain.bind_ends fun right => quiet_pop.plain.bind_ends fun left =>
        ends_branch ?_ _
      simp [Instruction.isConditional, Kind.isConditional, Opcode.isConditional, hk]
  | nop | push | dup | drop | load | store | int | float | intCompare | floatCompare | unary
  | native | call | enter => simp [Opcode.isTransfer, Opcode.isConditional] at h

/-- **The last instruction of a block ends it**, where every operation is carried out. -/
theorem step_ends {last : Instruction} {f f' : Frame} (hp : f.program.handled = Opcode.all)
    (h : (step last).exec f = (.ok (), f')) :
    ∃ plain e, (∀ s ∈ plain, s.IsPlain) ∧ e.Fits f.routine last f.block.fallthrough ∧
      f.Ends plain e f' := by
  by_cases ht : last.isTransfer = true
  · obtain ⟨o, ho⟩ : ∃ o, last.kind = .op o := by
      cases hk : last.kind with
      | op o => exact ⟨o, rfl⟩
      | other n => simp [Instruction.isTransfer, Kind.isTransfer, hk] at ht
    have hexec : (step last).exec f = (execute o last).exec f := by
      simp [step, ho, exec_bind, hp, Opcode.mem_all]
    rw [hexec] at h
    exact ends_execute (by simpa [Instruction.isTransfer, Kind.isTransfer, ho] using ht) ho f f'
      () h
  · obtain ⟨ss, hss, hem⟩ := plain_step (by simpa using ht) f
    rw [h] at hem
    refine ⟨ss, .pass f.block.fallthrough, hss, .pass (by simpa using ht), ?_⟩
    exact Frame.Emits.ends (by simpa [Ending.statements] using hem) rfl

/-! ### Whole blocks -/

end Lift

namespace Tape

/-- What is recorded along the tape leaves its instructions alone. -/
theorem instructions_record (t : Tape) (st : OperandStack) :
    (t.record st).instructions = t.instructions := by
  unfold record
  split
  · rfl
  · rename_i h
    simp [instructions, cells, h]

@[simp]
theorem unread_record (t : Tape) (st : OperandStack) : (t.record st).unread = t.unread := by
  unfold record
  split <;> rfl

@[simp]
theorem index_record (t : Tape) (st : OperandStack) : (t.record st).index = t.index := by
  unfold record
  split <;> rfl

theorem instructions_rewind (t : Tape) : t.rewind.instructions = t.instructions := by
  simp [rewind, instructions, cells]

/-- The tape when the stack is recorded and the head has moved over the next cell. -/
def readOn (t : Tape) (c : Cell) (cs : List Cell) (st : OperandStack) : Tape :=
  { t.record st with read := c :: (t.record st).read, unread := cs }

/-- Reading on moves an instruction from one side of the head to the other. -/
theorem instructions_readOn {t : Tape} {c : Cell} {cs : List Cell} (h : t.unread = c :: cs)
    (st : OperandStack) : (t.readOn c cs st).instructions = t.instructions := by
  rw [← instructions_record t st]
  simp [instructions, cells, readOn, h]

/-- Reading on moves the head over one cell. -/
theorem next_of_unread {t : Tape} {c : Cell} {cs : List Cell} (h : t.unread = c :: cs)
    (st : OperandStack) :
    ∃ t', t.next st = (.ok c.instruction, t') ∧ t'.unread = cs ∧
      t'.instructions = t.instructions :=
  ⟨t.readOn c cs st, by simp [next, readOn, h], rfl, instructions_readOn h st⟩

end Tape

/-- The frame with another tape in its block. -/
def Frame.withTape (f : Frame) (tape : Tape) : Frame :=
  { f with block := { f.block with tape } }

namespace Frame

variable {f f' : Frame} {ss plain : List Stmt} {e : Ending} {t : Tape}

/-- What was added does not depend on the tape. -/
theorem Emits.withTape (h : f.Emits ss f') (t : Tape) :
    (f.withTape t).Emits ss (f'.withTape t) where
  handled := h.handled
  name := h.name
  address := h.address
  code := h.code
  graph := h.graph
  block := by simp [Frame.withTape, h.block]

theorem Ends.withTape (h : f.Ends plain e f') (t : Tape) :
    (f.withTape t).Ends plain e (f'.withTape t) where
  handled := h.handled
  name := h.name
  address := h.address
  code := h.code
  graph := h.graph
  block := by simp [Frame.withTape, h.block]

end Frame

namespace Lift

/-- The next instruction is read as long as there is one. -/
theorem exec_next {f : Frame} {c : Cell} {cs : List Cell} (h : f.block.tape.unread = c :: cs) :
    ∃ t, next.exec f = (.ok c.instruction, f.withTape t) ∧ t.unread = cs ∧
      t.instructions = f.block.tape.instructions := by
  obtain ⟨t, ht, hu, hi⟩ := Tape.next_of_unread h f.stack
  refine ⟨t, ?_, hu, hi⟩
  simp only [next, exec_bind, exec_get, exec_set, exec_liftM, ht]
  rfl

/-- **Carrying out the instructions of a block brings it to an end that fits the last of them**, if
no other transfers control. -/
theorem steps_ends {f f' : Frame} {rest : List Instruction} {last : Instruction}
    (hp : f.program.handled = Opcode.all)
    (hu : f.block.tape.unread.map (·.instruction) = rest ++ [last])
    (hrest : ∀ i ∈ rest, i.isTransfer = false)
    (h : (steps (rest.length + 1)).exec f = (.ok (), f')) :
    (∃ plain e, (∀ s ∈ plain, s.IsPlain) ∧ e.Fits f.routine last f.block.fallthrough ∧
      f.Ends plain e (f'.withTape f.block.tape)) ∧
    f'.block.tape.instructions = f.block.tape.instructions := by
  -- one instruction at a time; each reads one cell and leaves the tape alone otherwise
  induction rest generalizing f with
  | nil =>
      obtain ⟨c, hc, rfl⟩ := List.map_eq_singleton_iff.mp hu
      obtain ⟨t, ht, -, hi⟩ := exec_next hc
      simp only [List.length_nil, steps, exec_bind, ht, exec_modify] at h
      cases hs : (step c.instruction).exec (f.withTape t) with
      | mk v f₁ =>
        rw [hs] at h
        cases v with
        | error e => cases h
        | ok u =>
            cases h
            obtain ⟨plain, e, hplain, hfits, hends⟩ := step_ends (f := f.withTape t) hp hs
            have htape : f₁.block.tape = t := by rw [hends.block]; rfl
            refine ⟨⟨plain, e, hplain, hfits, hends.withTape f.block.tape⟩, ?_⟩
            rw [Tape.instructions_record, htape, hi]
  | cons i rest ih =>
      obtain ⟨c, cs, hc, rfl, hcs⟩ := List.map_eq_cons_iff.mp hu
      obtain ⟨t, ht, htu, hi⟩ := exec_next hc
      rw [List.length_cons, steps] at h
      simp only [exec_bind, ht] at h
      obtain ⟨ss, hss, hem⟩ := plain_step (hrest c.instruction (by simp)) (f.withTape t)
      cases hs : (step c.instruction).exec (f.withTape t) with
      | mk v f₁ =>
        rw [hs] at h hem
        cases v with
        | error e => cases h
        | ok u =>
            have htape : f₁.block.tape = t := by rw [hem.block]; rfl
            have hft : f₁.block.fallthrough = f.block.fallthrough := by rw [hem.block]; rfl
            obtain ⟨⟨plain, e, hplain, hfits, hends⟩, hinstr⟩ :=
              ih (f := f₁) (hem.handled.trans hp) (by rw [htape, htu, hcs]; rfl)
                (fun i hi => hrest i (by simp [hi])) h
            refine ⟨⟨ss ++ plain, e, fun s hs => ?_, ?_, ?_⟩, ?_⟩
            · exact (List.mem_append.mp hs).elim (hss s) (hplain s)
            · rw [hft] at hfits
              exact hfits.congr hem.code
            · exact (hends.withTape f.block.tape).of_emits (hem.withTape f.block.tape)
            · rw [hinstr, htape, hi]

/-- Carrying out a block is carrying out what is on its tape. -/
theorem exec_runBlock (f : Frame) :
    runBlock.exec f
        = (steps f.block.tape.instructions.length).exec (f.withTape f.block.tape.rewind) ∧
      (f.withTape f.block.tape.rewind).block.tape.unread.map (·.instruction)
        = f.block.tape.instructions := by
  have hlen : f.block.tape.instructions.length = f.block.tape.rewind.length := by
    simp [Tape.instructions, Tape.length, Tape.rewind, Tape.cells]
  refine ⟨by rw [hlen]; rfl, ?_⟩
  simp [Frame.withTape, Tape.rewind, Tape.instructions]

/-- **A block comes to the end that its last instruction can give**, if no other of its instructions
transfers control. -/
theorem runBlock_ends {f f' : Frame} {rest : List Instruction} {last : Instruction}
    (hp : f.program.handled = Opcode.all) (hi : f.block.tape.instructions = rest ++ [last])
    (hrest : ∀ i ∈ rest, i.isTransfer = false) (h : runBlock.exec f = (.ok (), f')) :
    (∃ plain e, (∀ s ∈ plain, s.IsPlain) ∧ e.Fits f.routine last f.block.fallthrough ∧
      f.Ends plain e (f'.withTape f.block.tape)) ∧
    f'.block.tape.instructions = f.block.tape.instructions := by
  obtain ⟨hrun, hunread⟩ := exec_runBlock f
  rw [hi, List.length_append, List.length_singleton] at hrun
  rw [hi] at hunread
  obtain ⟨⟨plain, e, hplain, hfits, hends⟩, hinstr⟩ :=
    steps_ends (f := f.withTape f.block.tape.rewind) hp hunread hrest (hrun ▸ h)
  exact ⟨⟨plain, e, hplain, hfits, hends.withTape f.block.tape⟩,
    hinstr.trans (Tape.instructions_rewind _)⟩

end Lift

end ScriptLift
