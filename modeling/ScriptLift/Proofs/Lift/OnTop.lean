import Mathlib
import ScriptLift.Proofs.Lift.StackEffect

/-!
# What is underneath the stack

Instructions that find every value they take see nothing of what is deeper on the stack.  `f.onTop
t` is the frame `f` with its stack on top of `t`.  A computation is *shallow* if from `f.onTop t` it
comes to the same value as from `f` and to the same frame on top of `t`, unless it misses a value
from `f` (`Lift.Shallow`).  Shallow computations are closed under sequencing, every instruction is
shallow (`Lift.shallow_step`), and so is a whole block, up to the stacks that it records: each of
them is on top of `t`, too (`Lift.runBlock_onTop`).
-/

namespace ScriptLift

/-- The cell, its stack on top of `t`. -/
def Cell.onTop (t : OperandStack) (c : Cell) : Cell :=
  { c with stack := c.stack ++ t }

/-- The tape with every stack on it on top of `t`. -/
def Tape.onTop (t : OperandStack) (tape : Tape) : Tape :=
  { tape with read := tape.read.map (·.onTop t), unread := tape.unread.map (·.onTop t) }

/-- The frame, its stack on top of `t`. -/
def Frame.onTop (f : Frame) (t : OperandStack) : Frame :=
  { f with stack := f.stack ++ t }

/-- Between the frames events were reported, and no value was missing. -/
def Frame.FindsAll (f f' : Frame) : Prop :=
  ∃ more, f'.events = f.events ++ more ∧ Event.underflow ∉ more

/-! ### Taking values -/

namespace OperandStack

variable {s t : OperandStack}

/-- A value that is there is taken without a look at what is under it. -/
theorem pop_onTop (h : Event.underflow ∉ s.pop.2.2) :
    pop (s ++ t) = (s.pop.1, s.pop.2.1 ++ t, s.pop.2.2) := by
  cases s with
  | nil => simp [pop] at h
  | cons e s => rfl

theorem peek_onTop (h : Event.underflow ∉ s.peek.2) : peek (s ++ t) = s.peek := by
  cases s with
  | nil => simp [peek] at h
  | cons e s => rfl

/-- By induction on the number: if none is missing in the end, none was on the way. -/
theorem popMany_onTop {n : Nat} (h : Event.underflow ∉ (s.popMany n).2.2) :
    popMany n (s ++ t) = ((s.popMany n).1, (s.popMany n).2.1 ++ t, (s.popMany n).2.2) := by
  induction n generalizing s with
  | zero => rfl
  | succ n ih =>
      obtain ⟨hone, hmore⟩ : Event.underflow ∉ s.pop.2.2 ∧
          Event.underflow ∉ (popMany n s.pop.2.1).2.2 := by simpa [popMany] using h
      simp only [popMany, pop_onTop hone, ih hmore]

end OperandStack

namespace Lift

variable {α β : Type} {m : Lift α} {k : α → Lift β} {f f' : Frame}

/-! ### Shallow computations -/

/-- The computation leaves the tape of the block alone and makes nothing of it, and it makes nothing
of what is deeper on the stack than the values it takes, if it finds them all. -/
def Shallow (m : Lift α) : Prop :=
  ∀ f : Frame, (m.exec f).2.block.tape = f.block.tape ∧
    ∃ more, (m.exec f).2.events = f.events ++ more ∧
      ∀ a f', m.exec f = (.ok a, f') → Event.underflow ∉ more → ∀ (t : OperandStack) (tape : Tape),
        m.exec ((f.onTop t).withTape tape) = (.ok a, (f'.onTop t).withTape tape)

/-- If no value is missing in both, none was missing in the first. -/
theorem Shallow.bind (h : Shallow m) (hk : ∀ a, Shallow (k a)) : Shallow (m >>= k) := by
  intro f
  obtain ⟨htape, more, hmore, hm⟩ := h f
  rw [exec_bind]
  cases hf : m.exec f with
  | mk v f₁ =>
    rw [hf] at htape hmore
    cases v with
    | error e => exact ⟨htape, more, hmore, fun a f' h' => by cases h'⟩
    | ok a =>
        obtain ⟨htape₁, more₁, hmore₁, hka⟩ := hk a f₁
        refine ⟨htape₁.trans htape, more ++ more₁, ?_, fun b f' hb hu t tape => ?_⟩
        · rw [hmore₁, hmore, List.append_assoc]
        · rw [List.mem_append, not_or] at hu
          rw [exec_bind, hm a f₁ hf hu.1 t tape]
          exact hka b f' hb hu.2 t tape

/-- What is done next may depend on the frame, but not on its stack and its tape. -/
theorem Shallow.get_bind {k : Frame → Lift β} (hk : ∀ f, Shallow (k f))
    (hsame : ∀ (f : Frame) (t : OperandStack) (tape : Tape), k ((f.onTop t).withTape tape) = k f) :
    Shallow (get >>= k) := by
  intro f
  obtain ⟨htape, more, hmore, hrun⟩ := hk f f
  refine ⟨htape, more, hmore, fun b f' hb hu t tape => ?_⟩
  rw [exec_bind, exec_get]
  dsimp only
  rw [hsame f t tape]
  exact hrun b f' hb hu t tape

/-- A value needs no stack. -/
theorem shallow_pure (a : α) : Shallow (pure a : Lift α) := by
  refine fun f => ⟨rfl, [], by simp, fun b f' hb _ t tape => ?_⟩
  cases hb
  rfl

/-- A computation that comes to no value is shallow. -/
theorem shallow_throw (e : Fault) : Shallow (throw e : Lift α) :=
  fun f => ⟨rfl, [], (List.append_nil _).symm, fun b f' hb => by cases hb⟩

theorem shallow_liftM (x : Except Fault α) : Shallow (liftM x : Lift α) := by
  cases x with
  | error e => exact shallow_throw e
  | ok a => exact shallow_pure a

theorem shallow_push (e : Expr) : Shallow (push e) := by
  refine fun f => ⟨rfl, [], by simp, fun b f' hb _ t tape => ?_⟩
  cases hb
  rfl

/-- A statement goes into the block, not onto the tape. -/
theorem shallow_emit (s : Stmt) : Shallow (emit s) := by
  refine fun f => ⟨rfl, [], by simp, fun b f' hb _ t tape => ?_⟩
  cases hb
  rfl

/-- The continuation of the block is not on the tape either. -/
theorem shallow_continueAt (join : Int) :
    Shallow (modify fun f => { f with block := { f.block with continuation := some join } }) := by
  refine fun f => ⟨rfl, [], by simp, fun b f' hb _ t tape => ?_⟩
  cases hb
  rfl

/-- A computation that takes values and reports those that are missing. -/
theorem shallow_take {g : OperandStack → α × OperandStack × List Event}
    (hm : ∀ f : Frame, m.exec f = (.ok (g f.stack).1,
      { f.report (g f.stack).2.2 with stack := (g f.stack).2.1 }))
    (h : ∀ s t, Event.underflow ∉ (g s).2.2 → g (s ++ t) = ((g s).1, (g s).2.1 ++ t, (g s).2.2)) :
    Shallow m := by
  intro f
  rw [hm]
  refine ⟨rfl, (g f.stack).2.2, rfl, fun a f' hf hu t tape => ?_⟩
  cases hf
  have hstack : g ((f.onTop t).withTape tape).stack
      = ((g f.stack).1, (g f.stack).2.1 ++ t, (g f.stack).2.2) := h f.stack t hu
  rw [hm, hstack]
  rfl

/-- A value is missing only on an empty stack, and that is reported. -/
theorem shallow_pop : Shallow pop :=
  shallow_take exec_pop fun _ _ => OperandStack.pop_onTop

theorem shallow_popMany (n : Int) : Shallow (popMany n) :=
  shallow_take (exec_popMany n) fun _ _ => OperandStack.popMany_onTop

theorem shallow_peek : Shallow peek :=
  shallow_take (g := fun s => (s.peek.1, s, s.peek.2)) exec_peek fun s t h => by
    rw [OperandStack.peek_onTop h]

/-- What is learnt about variables and results has nothing to do with the stack. -/
theorem shallow_of_learns (hl : ∀ f : Frame, f.Learns (m.exec f).2)
    (hm : ∀ (f : Frame) (t : OperandStack) (tape : Tape), m.exec ((f.onTop t).withTape tape)
      = ((m.exec f).1, ((m.exec f).2.onTop t).withTape tape)) : Shallow m := by
  intro f
  obtain ⟨more, hmore, -⟩ := (hl f).events
  refine ⟨congrArg Block.tape (hl f).block, more, hmore, fun a f' hf _ t tape => ?_⟩
  rw [hm, hf]

theorem shallow_report (e : Event) (h : e.isJoin = false) : Shallow (report e) :=
  shallow_of_learns (fun f => .report f (List.forall_mem_singleton.mpr h)) fun _ _ _ => rfl

/-! ### Operations -/

/-- Which variable is meant does not depend on the stack. -/
theorem shallow_locate (st : Storage) (i : Instruction) : Shallow (locate st i) := by
  refine shallow_of_learns (learns_locate st i) fun f t tape => ?_
  unfold locate
  rw [exec_bind, exec_bind, exec_liftM, exec_liftM]
  cases i.slot with
  | error e => rfl
  | ok n =>
      cases st with
      | «local» =>
          have hroutine : ((f.onTop t).withTape tape).routine = f.routine := rfl
          simp only [exec_bind, exec_get, exec_liftM, hroutine]
          cases f.routine.slot n with
          | error e => rfl
          | ok out => rfl
      | static | global => rfl

/-- The type that is learnt is that of the value taken. -/
theorem shallow_store (ref : Reference) : Shallow (store ref) :=
  shallow_pop.bind fun value => Shallow.bind
    (shallow_of_learns (fun f => learns_learn f ref (value.type f.typeOf)) fun _ _ _ => rfl)
    fun _ => shallow_emit _

theorem shallow_binary (op : String) (t : DataType) : Shallow (binary op t) :=
  shallow_pop.bind fun _ => shallow_pop.bind fun _ => shallow_push _

/-- The arguments are the values on top. -/
theorem shallow_invoke (name : String) (args returns : Int) (t : DataType) :
    Shallow (invoke name args returns t) := by
  refine (shallow_popMany args).bind fun es => ?_
  split
  · exact shallow_emit _
  split
  · exact (shallow_report _ rfl).bind fun _ => shallow_push _
  · exact shallow_push _

theorem shallow_callRoutine (target : Int) : Shallow (callRoutine target) := by
  refine .get_bind (fun f => ?_) fun _ _ _ => rfl
  cases f.program.callee? target with
  | some callee => exact shallow_invoke _ _ _ _
  | none => exact (shallow_report _ rfl).bind fun _ => shallow_emit _

/-- What is inferred of a return depends on its values only. -/
theorem shallow_inferReturn (count : Int) (values : List Expr) :
    Shallow (inferReturn count values) := by
  refine shallow_of_learns (learns_inferReturn count values) fun f t tape => ?_
  have hroutine : ((f.onTop t).withTape tape).routine = f.routine := rfl
  have htype : ((f.onTop t).withTape tape).typeOf = f.typeOf := rfl
  simp only [inferReturn, exec_bind, exec_get, exec_liftM, hroutine, htype]
  generalize f.routine.inferReturn count _ = out
  cases out <;> rfl

theorem shallow_leave (returns : Int) : Shallow (leave returns) := by
  have tail : Shallow (do
      let values ← popMany returns
      inferReturn returns values
      emit (.ret values)) :=
    (shallow_popMany returns).bind fun values =>
      (shallow_inferReturn returns values).bind fun _ => shallow_emit _
  unfold leave
  split
  · exact (shallow_inferReturn returns []).bind fun _ => tail
  · exact tail

/-- A branch depends on its condition, which was taken before. -/
theorem shallow_branch (i : Instruction) (condition : Expr) : Shallow (branch i condition) := by
  refine (shallow_liftM _).bind fun target => .get_bind (fun f => ?_) fun _ _ _ => rfl
  split
  · exact (shallow_emit _).bind fun _ => shallow_emit _
  · exact (shallow_emit _).bind fun _ => shallow_continueAt _

theorem shallow_forM_push (values : List Literal) :
    Shallow (values.forM fun v => push (.ofLiteral v)) := by
  induction values with
  | nil => exact shallow_pure _
  | cons v values ih => exact (shallow_push _).bind fun _ => ih

/-- Every operation, by cases. -/
theorem shallow_execute (o : Opcode) (i : Instruction) : Shallow (execute o i) := by
  cases o with
  | nop | enter => exact shallow_pure _
  | push =>
      simp only [execute]
      split
      · exact shallow_forM_push _
      · exact shallow_throw _
  | dup => exact shallow_peek.bind fun _ => shallow_push _
  | drop =>
      refine shallow_pop.bind fun e => ?_
      split
      · exact shallow_emit _
      · exact shallow_pure _
  | load st => exact (shallow_locate st i).bind fun _ => shallow_push _
  | store st => exact (shallow_locate st i).bind fun ref => shallow_store ref
  | int o | float o | intCompare r | floatCompare r => exact shallow_binary _ _
  | unary o => exact shallow_pop.bind fun _ => shallow_push _
  | native =>
      simp only [execute]
      split
      · exact shallow_invoke _ _ _ _
      · exact shallow_throw _
  | call =>
      simp only [execute]
      split
      · exact shallow_callRoutine _
      · exact shallow_throw _
  | leave =>
      simp only [execute]
      split
      · exact shallow_leave _
      · exact shallow_throw _
  | jump => exact (shallow_liftM _).bind fun _ => shallow_emit _
  | jumpIfZero => exact shallow_pop.bind fun _ => shallow_branch i _
  | compareJump r => exact shallow_pop.bind fun _ => shallow_pop.bind fun _ => shallow_branch i _

theorem shallow_skip (i : Instruction) : Shallow (skip i) :=
  .get_bind (fun _ => (shallow_report _ rfl).bind fun _ => shallow_emit _) fun _ _ _ => rfl

/-- **An instruction is shallow**, whether or not the program has it carried out. -/
theorem shallow_step (i : Instruction) : Shallow (step i) := by
  unfold step
  cases i.kind with
  | op o =>
      refine .get_bind (fun f => ?_) fun _ _ _ => rfl
      split
      · exact shallow_execute o i
      · exact shallow_skip i
  | other name => exact shallow_skip i

end Lift

/-! ### Whole blocks -/

/-- The tapes have the same table and the same cells to be read, and once the stacks at hand are
recorded, the cells read differ only in what is underneath their stacks. -/
structure Tape.Carries (t s : OperandStack) (tape tape' : Tape) : Prop where
  unread : tape'.unread = tape.unread
  index : tape'.index = tape.index
  read : (tape'.record (s ++ t)).read = (tape.record s).read.map (·.onTop t)

namespace Tape.Carries

variable {t s s' : OperandStack} {tape tape' : Tape}

/-- Before a cell is read there is nothing to record. -/
theorem rewind (t s : OperandStack) (tape : Tape) : Carries t s tape.rewind tape.rewind :=
  ⟨rfl, rfl, rfl⟩

/-- Reading on: the stacks at hand are recorded, and that of the one tape is on top of `t`. -/
theorem next (h : Carries t s tape tape') (c : Cell) (cs : List Cell) :
    Carries t s' (tape.readOn c cs s) (tape'.readOn c cs (s ++ t)) where
  unread := rfl
  index := by
    rw [readOn, readOn, index_record, index_record, h.index]
  read := congrArg ((⟨c.instruction, s' ++ t⟩ : Cell) :: ·) h.read

/-- At the end, recording leaves no other difference. -/
theorem record (h : Carries t s tape tape') (hend : tape.unread = []) :
    tape'.record (s ++ t) = (tape.record s).onTop t := by
  have hunread : (tape.record s).unread = [] := by rw [unread_record, hend]
  have hunread' : (tape'.record (s ++ t)).unread = [] := by rw [unread_record, h.unread, hend]
  calc tape'.record (s ++ t)
      = ⟨(tape'.record (s ++ t)).read, (tape'.record (s ++ t)).unread,
          (tape'.record (s ++ t)).index⟩ := rfl
    _ = ⟨(tape.record s).read.map (·.onTop t), (tape.record s).unread.map (·.onTop t),
          (tape.record s).index⟩ := by
        rw [h.read, hunread, hunread', List.map_nil, index_record, index_record, h.index]

end Tape.Carries

namespace Lift

variable {f f' : Frame}

/-- After a value the second computation runs. -/
theorem exec_bind_ok {α β : Type} {m : Lift α} {k : α → Lift β} {a : α}
    (h : m.exec f = (.ok a, f')) : (m >>= k).exec f = (k a).exec f' := by
  rw [exec_bind, h]

/-- The cell under the head is read, and then its instruction carried out before the others. -/
theorem exec_steps_succ {c : Cell} {cs : List Cell} (h : f.block.tape.unread = c :: cs) (n : Nat) :
    (steps (n + 1)).exec f = (step c.instruction >>= fun _ => steps n).exec
      (f.withTape (f.block.tape.readOn c cs f.stack)) := by
  refine exec_bind_ok ?_
  simp only [next, exec_bind, exec_get, exec_set, exec_liftM, Tape.next_eq h]
  rfl

/-- **Carrying out what is left on the tape.** -/
theorem steps_onTop {n : Nat} (hn : f.block.tape.unread.length = n) :
    ∃ more, ((steps n).exec f).2.events = f.events ++ more ∧
      ∀ f', (steps n).exec f = (.ok (), f') → Event.underflow ∉ more → ∀ t tape,
        f.block.tape.Carries t f.stack tape →
          (steps n).exec ((f.onTop t).withTape tape)
            = (.ok (), (f'.onTop t).withTape (f'.block.tape.onTop t)) := by
  induction n generalizing f with
  | zero =>
      refine ⟨[], (List.append_nil _).symm, fun f' hf' _ t tape h => ?_⟩
      cases hf'
      rw [← h.record (List.length_eq_zero_iff.mp hn)]
      rfl
  | succ n ih =>
      obtain ⟨c, cs, hc⟩ := List.exists_cons_of_length_eq_add_one hn
      have hcs : cs.length = n := by simpa [hc] using hn
      obtain ⟨htape, more, hmore, hstep⟩ := shallow_step c.instruction
        (f.withTape (f.block.tape.readOn c cs f.stack))
      rw [exec_steps_succ hc, exec_bind]
      cases hs : (step c.instruction).exec
          (f.withTape (f.block.tape.readOn c cs f.stack)) with
      | mk v f₁ =>
        rw [hs] at htape hmore
        cases v with
        | error e => exact ⟨more, hmore, fun f' hf' => by cases hf'⟩
        | ok u =>
            have hunread : f₁.block.tape.unread.length = n := by
              rw [htape]
              exact hcs
            obtain ⟨more₁, hmore₁, hrest⟩ := ih hunread
            refine ⟨more ++ more₁, ?_, fun f' hf' hu t tape h => ?_⟩
            · rw [← List.append_assoc]
              exact hmore₁.trans (congrArg (· ++ more₁) hmore)
            · -- nothing is missing in this step, and nothing in those that follow
              rw [List.mem_append, not_or] at hu
              have hc' : ((f.onTop t).withTape tape).block.tape.unread = c :: cs :=
                h.unread.trans hc
              have hone := hstep u f₁ hs hu.1 t (tape.readOn c cs (f.stack ++ t))
              refine (exec_steps_succ hc' n).trans ((exec_bind_ok hone).trans ?_)
              refine hrest f' hf' hu.2 t _ ?_
              rw [htape]
              exact h.next c cs

/-- **Carrying out a block makes nothing of what is underneath the stack.**  From the same frame
with its stack on top of `t`, a block that comes to its end without missing a value emits the same
statements, learns the same and reports the same, and it leaves and records the same stacks on top
of `t`. -/
theorem runBlock_onTop (hrun : runBlock.exec f = (.ok (), f')) (hall : f.FindsAll f')
    (t : OperandStack) :
    runBlock.exec (f.onTop t) = (.ok (), (f'.onTop t).withTape (f'.block.tape.onTop t)) := by
  obtain ⟨hexec, hunread⟩ := exec_runBlock f
  obtain ⟨hexec', -⟩ := exec_runBlock (f.onTop t)
  have hlength : (f.withTape f.block.tape.rewind).block.tape.unread.length
      = f.block.tape.instructions.length := by rw [← hunread, List.length_map]
  obtain ⟨more, hmore, hsteps⟩ := steps_onTop hlength
  obtain ⟨more', hmore', hall⟩ := hall
  rw [hexec] at hrun
  rw [hrun] at hmore
  obtain rfl : more' = more := List.append_cancel_left (hmore'.symm.trans hmore)
  rw [hexec']
  exact hsteps f' hrun hall t f.block.tape.rewind (.rewind t f.stack f.block.tape)

/-- Two constants and a copy are the arguments of a call, whose result is compared with the value
that was on the stack before. -/
theorem runBlock_onTop_compare :
    let f : Frame := ⟨{ name := "", code := [] }, .ofCode "f" [] [],
      { start := 0, fallthrough := some 4, tape := .ofList [⟨0, .op .push, .push [.int 1, .int 2]⟩,
        ⟨1, .op .dup, .none⟩, ⟨2, .op .native, .native 3 1 5 none (some "int")⟩,
        ⟨3, .op (.compareJump .eq), .branch 8⟩] },
      [.ofLiteral (.int 7), .ofLiteral (.int 6)], []⟩
    let f' := (runBlock.exec f).2
    let t : OperandStack := [.ofLiteral (.int 9)]
    runBlock.exec f = (.ok (), f') ∧ f.FindsAll f' ∧
      f'.block.tape.cells.map (·.stack.length) = [4, 5, 3, 1] ∧
      runBlock.exec (f.onTop t) = (.ok (), (f'.onTop t).withTape (f'.block.tape.onTop t)) := by
  intro f f' t
  have hok : (runBlock.exec f).1 = .ok () := by dsimp only [f]; cbv
  have hrun : runBlock.exec f = (.ok (), f') := Prod.ext hok rfl
  have hall : f.FindsAll f' := ⟨f'.events, rfl, by decide +kernel⟩
  exact ⟨hrun, hall, by decide +kernel, runBlock_onTop hrun hall t⟩

end Lift

end ScriptLift
