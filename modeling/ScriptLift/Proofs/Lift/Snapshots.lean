import Mathlib
import ScriptLift.Proofs.Lift.OnTop

/-!
# What a tape has recorded

A stack is recorded one instruction late: the call that reads on, or finishes, hands over the stack
that the instruction read last has left behind.  So the stack recorded at an index is the one handed
over by the last call that found the head just behind it (`Tape.snapshot_calls`), whatever was
appended, looked at or read again in between, and whether or not the call came upon the end.

An instruction makes nothing of the tape (`Lift.tapeless_step`).  So carrying out a block is
carrying out its instructions, and beside that a pass over the tape (`Lift.exec_steps`), which
records behind each instruction the stack that the instructions up to it have produced
(`Tape.records_calls`).
-/

namespace ScriptLift

namespace Tape

/-! ### Calls -/

/-- A use of a tape. -/
inductive Call where
  | append (i : Instruction)
  | next (stack : OperandStack)
  | peek
  | finish (stack : OperandStack)
  | rewind

namespace Call

/-- The stack that a call hands over. -/
def stack? : Call → Option OperandStack
  | next stack | finish stack => some stack
  | append _ | peek | rewind => none

/-- The instruction that a call appends. -/
def appended? : Call → Option Instruction
  | append i => some i
  | next _ | peek | finish _ | rewind => none

end Call

/-- The tape behind a call, also where the call came upon the end. -/
def call (t : Tape) : Call → Tape
  | .append i => t.append i
  | .next stack => (t.next stack).2
  | .peek => t
  | .finish stack => t.record stack
  | .rewind => t.rewind

/-- The tape behind several calls. -/
def calls (t : Tape) (cs : List Call) : Tape :=
  cs.foldl call t

/-- The stacks handed over while the head was at a position. -/
def handedAt (position : Nat) (t : Tape) : List Call → List OperandStack
  | [] => []
  | c :: cs =>
      (if t.position = position then c.stack?.toList else []) ++ handedAt position (t.call c) cs

/-- The stack recorded at an index, empty where there is no instruction. -/
def snapshot (t : Tape) (i : Nat) : OperandStack :=
  ((t.cells[i]?).map (·.stack)).getD []

/-- `n` is the index of the first instruction at the address `a`. -/
def IsFirstAt (is : List Instruction) (a : Int) (n : Nat) : Prop :=
  (∃ i, is[n]? = some i ∧ i.address = a) ∧ ∀ m < n, ∀ i, is[m]? = some i → i.address ≠ a

variable (t : Tape) (c : Call) (cs : List Call) (s : OperandStack)

/-! ### One call -/

theorem position_le_length : t.position ≤ t.length := by
  simp [position, length, cells]

@[simp]
theorem position_record : (t.record s).position = t.position := by
  unfold record
  split <;> simp_all [position]

/-- Reading never moves the head back. -/
theorem position_le_next : t.position ≤ (t.call (.next s)).position := by
  rw [← t.position_record s, call, next]
  split
  · simp [position]
  · exact le_rfl

/-- Reading on records the stack and moves the head over one cell. -/
theorem call_next {c : Cell} {cs : List Cell} (h : t.unread = c :: cs) :
    t.call (.next s) = t.readOn c cs s := by
  rw [call, next_eq h]

/-- Reading on changes the cells by what it records, and not otherwise. -/
@[simp]
theorem cells_next : (t.next s).2.cells = (t.record s).cells := by
  unfold next
  dsimp only
  split
  · rename_i c cs h
    rw [cells, cells, h]
    simp
  · rfl

/-- Rewinding moves the head only. -/
@[simp]
theorem cells_rewind : t.rewind.cells = t.cells := by
  simp [rewind, cells]

/-- A stack is recorded in the cell just behind the head, if there is one. -/
theorem snapshot_record (i : Nat) :
    (t.record s).snapshot i = if t.position = i + 1 then s else t.snapshot i := by
  unfold record position
  split
  · rename_i h
    simp [h]
  · rename_i c cs h
    simp only [snapshot, cells, h, List.reverse_cons, List.append_assoc, List.length_cons,
      Nat.add_right_cancel_iff]
    rcases Nat.lt_trichotomy i cs.length with hi | rfl | hi
    · simp [List.getElem?_append_left, hi, hi.ne']
    · simp
    · obtain ⟨k, rfl⟩ := Nat.exists_eq_add_of_lt hi
      simp [List.getElem?_append_right, Nat.add_assoc]

/-- **What one call does to the stacks recorded.** -/
theorem snapshot_call (i : Nat) :
    (t.call c).snapshot i
      = if t.position = i + 1 then c.stack?.getD (t.snapshot i) else t.snapshot i := by
  cases c with
  | next s =>
      rw [call, snapshot, cells_next]
      exact t.snapshot_record s i
  | finish s => exact t.snapshot_record s i
  | peek => simp [call, Call.stack?]
  | rewind => simp [call, Call.stack?, snapshot]
  | append j =>
      -- an instruction comes with the empty stack, as where there is none
      have hnew : (t.append j).snapshot i = t.snapshot i := by
        simp only [snapshot, cells_append]
        rcases Nat.lt_trichotomy i t.cells.length with h | rfl | h
        · rw [List.getElem?_append_left h]
        · simp
        · rw [List.getElem?_eq_none (by simp; omega), List.getElem?_eq_none h.le]
      simp [call, Call.stack?, hnew]

/-- The only call that changes the instructions is one that appends. -/
theorem instructions_call : (t.call c).instructions = t.instructions ++ c.appended?.toList := by
  cases c with
  | append j => simp [call, Call.appended?, instructions]
  | next s =>
      simpa [call, Call.appended?, instructions] using t.instructions_record s
  | finish s => simpa [call, Call.appended?] using t.instructions_record s
  | peek => simp [call, Call.appended?]
  | rewind => simp [call, Call.appended?, instructions]

/-! ### Any number of calls -/

/-- **The stack recorded at an index is the last one handed over behind it.** -/
theorem snapshot_calls (i : Nat) :
    (t.calls cs).snapshot i = (handedAt (i + 1) t cs).getLast?.getD (t.snapshot i) := by
  induction cs generalizing t with
  | nil => rfl
  | cons c cs ih =>
      calc (t.calls (c :: cs)).snapshot i
          = (handedAt (i + 1) (t.call c) cs).getLast?.getD ((t.call c).snapshot i) := ih (t.call c)
        _ = (handedAt (i + 1) t (c :: cs)).getLast?.getD (t.snapshot i) := by
            rw [snapshot_call, handedAt, List.getLast?_append]
            cases c.stack? <;> split <;> cases (handedAt (i + 1) (t.call c) cs).getLast? <;> rfl

/-- After any number of calls, the instructions are those there were and those appended, in
order. -/
theorem instructions_calls :
    (t.calls cs).instructions = t.instructions ++ cs.filterMap Call.appended? := by
  induction cs generalizing t with
  | nil => simp [calls]
  | cons c cs ih =>
      calc (t.calls (c :: cs)).instructions
          = (t.call c).instructions ++ cs.filterMap Call.appended? := ih (t.call c)
        _ = t.instructions ++ (c :: cs).filterMap Call.appended? := by
            rw [instructions_call, List.append_assoc]
            cases h : c.appended? <;> simp [h]

theorem length_instructions : t.instructions.length = t.length := by
  simp [instructions, length]

/-- No call takes an instruction away. -/
theorem length_le_calls : t.length ≤ (t.calls cs).length := by
  rw [← length_instructions, ← length_instructions, instructions_calls, List.length_append]
  exact Nat.le_add_right _ _

variable {t}

/-! ### The table of addresses -/

/-- The table has what a search for an address finds. -/
def Indexed (t : Tape) : Prop :=
  ∀ a, t.indexOf? a = t.instructions.findIdx? (·.address = a)

/-- An address is entered by the first instruction appended with it. -/
theorem Indexed.append (h : t.Indexed) (i : Instruction) : (t.append i).Indexed := by
  intro a
  have hinstructions : (t.append i).instructions = t.instructions ++ [i] := by
    simp [instructions]
  rw [hinstructions, List.findIdx?_append, ← h a, length_instructions, indexOf?, Tape.append,
    Assoc.lookup_putNew]
  by_cases ha : a = i.address
  · simp [indexOf?, ha]
  · simp [indexOf?, ha, Ne.symm ha]

/-- Reading enters no address. -/
theorem index_next : (t.next s).2.index = t.index := by
  rw [← t.index_record s, next]
  split <;> rfl

/-- **No call makes the table wrong.** -/
theorem Indexed.call (h : t.Indexed) (c : Call) : (t.call c).Indexed := by
  have hinstructions := t.instructions_call c
  cases c with
  | append i => exact h.append i
  | peek => exact h
  | next s | finish s | rewind =>
      intro a
      rw [hinstructions, Call.appended?, Option.toList_none, List.append_nil, ← h a]
      simp [Tape.call, indexOf?, index_next, Tape.rewind]

/-- **The table stays right whatever is done to the tape.** -/
theorem Indexed.calls (h : t.Indexed) (cs : List Call) : (t.calls cs).Indexed := by
  induction cs generalizing t with
  | nil => exact h
  | cons c cs ih => exact ih (h.call c)

/-- **The table of a tape is right**, for a tape is made by appending. -/
theorem indexed_ofList (code : List Instruction) : (ofList code).Indexed := by
  have hempty : ({} : Tape).Indexed := fun a => rfl
  have hcalls : ofList code = ({} : Tape).calls (code.map .append) := by
    rw [ofList_eq_foldl, calls, List.foldl_map]
    rfl
  rw [hcalls]
  exact hempty.calls _

/-- A table that is right finds the first instruction at an address. -/
theorem Indexed.indexOf?_eq_some_iff (h : t.Indexed) {a : Int} {n : Nat} :
    t.indexOf? a = some n ↔ IsFirstAt t.instructions a n := by
  rw [h a, List.findIdx?_eq_some_iff_getElem]
  constructor
  · rintro ⟨hn, hfirst, hbefore⟩
    refine ⟨⟨t.instructions[n], by simp [hn], by simpa using hfirst⟩, fun m hm i hi ha => ?_⟩
    obtain ⟨hlt, rfl⟩ := List.getElem?_eq_some_iff.mp hi
    exact hbefore m hm (by simpa using ha)
  · rintro ⟨⟨i, hi, ha⟩, hbefore⟩
    obtain ⟨hn, rfl⟩ := List.getElem?_eq_some_iff.mp hi
    refine ⟨hn, by simpa using ha, fun m hm => ?_⟩
    simpa using hbefore m hm t.instructions[m] (by simp [hm.trans hn])

/-- The stack of a cell is the snapshot at its index. -/
theorem cell_of_lt {i : Nat} (h : i < t.length) :
    (t.cell i).map (·.stack) = .ok (t.snapshot i) := by
  have hresolve : resolve? t.cells.length i = some i := if_pos h
  have hcell : t.cells[i]? = some t.cells[i] := List.getElem?_eq_getElem h
  simp [cell, atPosition?, hresolve, hcell, snapshot, Except.map]

end Tape

/-! ### Instructions and the tape -/

namespace Lift

variable {α β : Type} {m : Lift α} {k : α → Lift β} {f f' : Frame}

/-- The computation leaves the tape of the block alone and makes nothing of it. -/
def Tapeless (m : Lift α) : Prop :=
  ∀ (f : Frame) (tape : Tape), m.exec (f.withTape tape) = ((m.exec f).1, (m.exec f).2.withTape tape)

/-- Two computations that make nothing of the tape, one behind the other. -/
theorem Tapeless.bind (h : Tapeless m) (hk : ∀ a, Tapeless (k a)) : Tapeless (m >>= k) := by
  intro f tape
  rw [exec_bind, exec_bind, h f tape]
  cases m.exec f with
  | mk v f₁ =>
    cases v with
    | error e => rfl
    | ok a => exact hk a f₁ tape

/-- What is done next may depend on the frame, but not on its tape. -/
theorem Tapeless.get_bind {k : Frame → Lift β} (hk : ∀ f, Tapeless (k f))
    (hsame : ∀ (f : Frame) (tape : Tape), k (f.withTape tape) = k f) : Tapeless (get >>= k) := by
  intro f tape
  rw [exec_bind, exec_bind, exec_get, exec_get]
  dsimp only
  rw [hsame f tape]
  exact hk f f tape

theorem tapeless_pure (a : α) : Tapeless (pure a : Lift α) :=
  fun _ _ => rfl

theorem tapeless_liftM (x : Except Fault α) : Tapeless (liftM x : Lift α) := by
  intro f tape
  rw [exec_liftM, exec_liftM]

theorem tapeless_push (e : Expr) : Tapeless (push e) :=
  fun _ _ => rfl

theorem tapeless_pop : Tapeless pop :=
  fun _ _ => rfl

theorem tapeless_popMany (n : Int) : Tapeless (popMany n) :=
  fun _ _ => rfl

theorem tapeless_peek : Tapeless peek :=
  fun _ _ => rfl

theorem tapeless_report (e : Event) : Tapeless (report e) :=
  fun _ _ => rfl

/-- A statement goes into the block, not onto the tape. -/
theorem tapeless_emit (s : Stmt) : Tapeless (emit s) :=
  fun _ _ => rfl

theorem tapeless_throw (e : Fault) : Tapeless (throw e : Lift α) :=
  fun _ _ => rfl

/-- Which variable is meant does not depend on the tape. -/
theorem tapeless_locate (st : Storage) (i : Instruction) : Tapeless (locate st i) := by
  refine (tapeless_liftM _).bind fun n => ?_
  cases st with
  | «local» =>
      intro f tape
      have hroutine : (f.withTape tape).routine = f.routine := rfl
      simp only [exec_bind, exec_get, exec_liftM, hroutine]
      cases f.routine.slot n with
      | error e => rfl
      | ok out => rfl
  | static | global => exact tapeless_pure _

theorem tapeless_store (ref : Reference) : Tapeless (store ref) :=
  tapeless_pop.bind fun _ => Tapeless.bind (fun _ _ => rfl) fun _ => tapeless_emit _

theorem tapeless_binary (op : String) (t : DataType) : Tapeless (binary op t) :=
  tapeless_pop.bind fun _ => tapeless_pop.bind fun _ => tapeless_push _

/-- Nor do the arguments of a call. -/
theorem tapeless_invoke (name : String) (args returns : Int) (t : DataType) :
    Tapeless (invoke name args returns t) := by
  refine (tapeless_popMany args).bind fun es => ?_
  split
  · exact tapeless_emit _
  split
  · exact (tapeless_report _).bind fun _ => tapeless_push _
  · exact tapeless_push _

theorem tapeless_callRoutine (target : Int) : Tapeless (callRoutine target) := by
  refine .get_bind (fun f => ?_) fun _ _ => rfl
  cases f.program.callee? target with
  | some callee => exact tapeless_invoke _ _ _ _
  | none => exact (tapeless_report _).bind fun _ => tapeless_emit _

/-- Nor does what is inferred of a return. -/
theorem tapeless_inferReturn (count : Int) (values : List Expr) :
    Tapeless (inferReturn count values) := by
  intro f tape
  have hroutine : (f.withTape tape).routine = f.routine := rfl
  have htype : (f.withTape tape).typeOf = f.typeOf := rfl
  simp only [inferReturn, exec_bind, exec_get, exec_liftM, hroutine, htype]
  generalize f.routine.inferReturn count _ = out
  cases out <;> rfl

theorem tapeless_leave (returns : Int) : Tapeless (leave returns) := by
  have tail : Tapeless (do
      let values ← popMany returns
      inferReturn returns values
      emit (.ret values)) :=
    (tapeless_popMany returns).bind fun values =>
      (tapeless_inferReturn returns values).bind fun _ => tapeless_emit _
  unfold leave
  split
  · exact (tapeless_inferReturn returns []).bind fun _ => tail
  · exact tail

/-- The fall-through of a block is kept outside its tape, so a branch is tapeless too. -/
theorem tapeless_branch (i : Instruction) (condition : Expr) : Tapeless (branch i condition) := by
  refine (tapeless_liftM _).bind fun target => .get_bind (fun f => ?_) fun _ _ => rfl
  split
  · exact (tapeless_emit _).bind fun _ => tapeless_emit _
  · exact (tapeless_emit _).bind fun _ _ _ => rfl

/-- By induction on the list. -/
theorem tapeless_forM {γ : Type} {act : γ → Lift Unit} (h : ∀ x, Tapeless (act x)) (xs : List γ) :
    Tapeless (xs.forM act) := by
  induction xs with
  | nil => exact tapeless_pure _
  | cons x xs ih => exact (h x).bind fun _ => ih

/-- Every operation, by cases. -/
theorem tapeless_execute (o : Opcode) (i : Instruction) : Tapeless (execute o i) := by
  cases o with
  | nop | enter => exact tapeless_pure _
  | push =>
      simp only [execute]
      split
      · exact tapeless_forM (fun _ => tapeless_push _) _
      · exact tapeless_throw _
  | dup => exact tapeless_peek.bind fun _ => tapeless_push _
  | drop =>
      refine tapeless_pop.bind fun e => ?_
      split
      · exact tapeless_emit _
      · exact tapeless_pure _
  | load st => exact (tapeless_locate st i).bind fun _ => tapeless_push _
  | store st => exact (tapeless_locate st i).bind fun ref => tapeless_store ref
  | int o | float o | intCompare r | floatCompare r => exact tapeless_binary _ _
  | unary o => exact tapeless_pop.bind fun _ => tapeless_push _
  | native =>
      simp only [execute]
      split
      · exact tapeless_invoke _ _ _ _
      · exact tapeless_throw _
  | call =>
      simp only [execute]
      split
      · exact tapeless_callRoutine _
      · exact tapeless_throw _
  | leave =>
      simp only [execute]
      split
      · exact tapeless_leave _
      · exact tapeless_throw _
  | jump => exact (tapeless_liftM _).bind fun _ => tapeless_emit _
  | jumpIfZero => exact tapeless_pop.bind fun _ => tapeless_branch i _
  | compareJump r => exact tapeless_pop.bind fun _ => tapeless_pop.bind fun _ => tapeless_branch i _

theorem tapeless_skip (i : Instruction) : Tapeless (skip i) :=
  .get_bind (fun _ => (tapeless_report _).bind fun _ => tapeless_emit _) fun _ _ => rfl

/-- **An instruction makes nothing of the tape.** -/
theorem tapeless_step (i : Instruction) : Tapeless (step i) := by
  unfold step
  cases i.kind with
  | op o =>
      refine .get_bind (fun f => ?_) fun _ _ => rfl
      split
      · exact tapeless_execute o i
      · exact tapeless_skip i
  | other name => exact tapeless_skip i

/-! ### A pass over the tape -/

/-- The calls that carrying out instructions from `f` on makes to the tape: each instruction is
read, up to the first that fails, and if none does, the last stack is recorded. -/
def tapeCalls : List Instruction → Frame → List Tape.Call
  | [], f => [.finish f.stack]
  | i :: is, f =>
    .next f.stack ::
      match (step i).exec f with
      | (.ok _, f) => tapeCalls is f
      | (.error _, _) => []

theorem forM_step_cons (i : Instruction) (is : List Instruction) :
    (i :: is).forM step = step i >>= fun _ => is.forM step :=
  rfl

/-- **Carrying out what is left on a tape** is carrying out its instructions, and a pass over the
tape. -/
theorem exec_steps {is : List Instruction} {tape : Tape}
    (h : tape.unread.map (·.instruction) = is) :
    (steps is.length).exec (f.withTape tape)
      = (((is.forM step).exec f).1,
        ((is.forM step).exec f).2.withTape (tape.calls (tapeCalls is f))) := by
  induction is generalizing f tape with
  | nil => rfl
  | cons i is ih =>
      obtain ⟨c, cs, hc, rfl, hcs⟩ := List.map_eq_cons_iff.mp h
      have hnext := tape.call_next f.stack hc
      have hstep := tapeless_step c.instruction f (tape.call (.next f.stack))
      have hexec : (steps (is.length + 1)).exec (f.withTape tape)
          = (step c.instruction >>= fun _ => steps is.length).exec
              (f.withTape (tape.call (.next f.stack))) := by
        rw [hnext]
        exact exec_steps_succ (f := f.withTape tape) hc is.length
      rw [List.length_cons, hexec, forM_step_cons, exec_bind, exec_bind, hstep, tapeCalls]
      cases (step c.instruction).exec f with
      | mk v f₁ =>
        cases v with
        | error e => rfl
        | ok u =>
            have hunread : (tape.call (.next f.stack)).unread.map (·.instruction) = is := by
              rw [hnext]
              exact hcs
            exact ih hunread

/-- Behind the head nothing is handed over. -/
theorem handedAt_tapeCalls_of_lt {position : Nat} {tape : Tape} (h : position < tape.position)
    (is : List Instruction) : tape.handedAt position (tapeCalls is f) = [] := by
  induction is generalizing f tape with
  | nil => simp [tapeCalls, Tape.handedAt, h.ne']
  | cons i is ih =>
      rw [tapeCalls, Tape.handedAt, if_neg h.ne', List.nil_append]
      split
      · exact ih (h.trans_le (tape.position_le_next f.stack))
      · rfl

/-- **What a pass hands over** while the head is behind the first `k` instructions: the stack that
they have produced. -/
theorem handedAt_tapeCalls {is : List Instruction} {tape : Tape} {k : Nat}
    (h : tape.unread.map (·.instruction) = is) (hk : k ≤ is.length)
    (hrun : ((is.take k).forM step).exec f = (.ok (), f')) :
    tape.handedAt (tape.position + k) (tapeCalls is f) = [f'.stack] := by
  induction is generalizing f tape k with
  | nil =>
      obtain rfl : k = 0 := by simpa using hk
      cases hrun
      simp [tapeCalls, Tape.handedAt, Tape.Call.stack?]
  | cons i is ih =>
      obtain ⟨c, cs, hc, rfl, hcs⟩ := List.map_eq_cons_iff.mp h
      have hnext := tape.call_next f.stack hc
      have hposition : (tape.call (.next f.stack)).position = tape.position + 1 := by
        rw [hnext, ← tape.position_record f.stack]
        rfl
      rw [tapeCalls, Tape.handedAt]
      cases k with
      | zero =>
          -- the head has moved on before anything else is handed over
          cases hrun
          rw [Nat.add_zero, if_pos rfl]
          split
          · rw [handedAt_tapeCalls_of_lt (by omega)]
            rfl
          · rfl
      | succ k =>
          rw [if_neg (by omega), List.nil_append]
          rw [List.take_succ_cons, forM_step_cons, exec_bind] at hrun
          cases hs : (step c.instruction).exec f with
          | mk v f₁ =>
            rw [hs] at hrun
            cases v with
            | error e => cases hrun
            | ok u =>
                have hunread : (tape.call (.next f.stack)).unread.map (·.instruction) = is := by
                  rw [hnext]
                  exact hcs
                have hrest := ih hunread (Nat.le_of_succ_le_succ hk) hrun
                rw [hposition, Nat.add_assoc, Nat.add_comm 1 k] at hrest
                exact hrest

/-- **Carrying out a block** is carrying out its instructions, and a pass over its tape. -/
theorem exec_runBlock_eq (f : Frame) :
    runBlock.exec f
      = (((f.block.tape.instructions.forM step).exec f).1,
        ((f.block.tape.instructions.forM step).exec f).2.withTape
          (f.block.tape.calls (.rewind :: tapeCalls f.block.tape.instructions f))) := by
  obtain ⟨hexec, hunread⟩ := exec_runBlock f
  rw [hexec]
  exact exec_steps hunread

/-- Behind each instruction of a block the stack is recorded that the instructions up to it
produce. -/
theorem snapshot_runBlock {i : Nat} (hi : i < f.block.tape.length)
    (hrun : ((f.block.tape.instructions.take (i + 1)).forM step).exec f = (.ok (), f')) :
    (runBlock.exec f).2.block.tape.snapshot i = f'.stack := by
  have hlength : i + 1 ≤ f.block.tape.instructions.length := by
    rwa [Tape.length_instructions]
  have hunread : f.block.tape.rewind.unread.map (·.instruction) = f.block.tape.instructions :=
    (exec_runBlock f).2
  have hhanded := handedAt_tapeCalls hunread hlength hrun
  have hzero : f.block.tape.rewind.position + (i + 1) = i + 1 := by
    simp [Tape.position, Tape.rewind]
  rw [exec_runBlock_eq]
  change (f.block.tape.rewind.calls (tapeCalls f.block.tape.instructions f)).snapshot i = f'.stack
  rw [Tape.snapshot_calls, ← hzero, hhanded]
  rfl

/-- A block fails as soon as its instructions do. -/
theorem runBlock_of_error {n : Nat} {e : Fault}
    (h : ((f.block.tape.instructions.take n).forM step).exec f = (.error e, f')) :
    (runBlock.exec f).1 = .error e := by
  have hsplit : f.block.tape.instructions.forM step
      = ((f.block.tape.instructions.take n).forM step >>= fun _ =>
          (f.block.tape.instructions.drop n).forM step) := by
    conv_lhs => rw [← List.take_append_drop n f.block.tape.instructions]
    exact List.forM_append
  rw [exec_runBlock_eq, hsplit, exec_bind, h]

end Lift

/-- **A tape records the right stacks.**  After any calls the head is not behind the end; at each
index stands the stack handed over by the last call made with the head just behind it, and the empty
stack if there was none; and an address is found where the first instruction appended with it is.
So after a block was carried out, behind each instruction stands the stack that the instructions up
to it produce from the entry stack, unless they fail, and then the block fails in the same way. -/
theorem Tape.records_calls :
    (∀ (code : List Instruction) (cs : List Call),
      let t := (ofList code).calls cs
      t.position ≤ t.length ∧
      (∀ i : Nat, i < t.length →
        (t.cell i).map (·.stack) = .ok (((ofList code).handedAt (i + 1) cs).getLast?.getD [])) ∧
      ∀ a n, t.indexOf? a = some n ↔ IsFirstAt (code ++ cs.filterMap Call.appended?) a n) ∧
    ∀ (p : Program) (r : Routine) (b : Block) (events : List Event) (i : Nat), i < b.tape.length →
      let f : Frame := ⟨p, r, b, b.entryStack, events⟩
      let produced := ((b.tape.instructions.take (i + 1)).forM Lift.step).exec f
      (∀ f', produced = (.ok (), f') →
        ((Lift.runBlock.exec f).2.block.tape.cell i).map (·.stack) = .ok f'.stack) ∧
      ∀ e f', produced = (.error e, f') → (Lift.runBlock.exec f).1 = .error e := by
  refine ⟨fun code cs => ?_, fun p r b events i hi => ?_⟩
  · intro t
    refine ⟨t.position_le_length, fun i hi => ?_, fun a n => ?_⟩
    · have hnone : (ofList code).snapshot i = [] := by
        cases h : code[i]? <;> simp [snapshot, cells_ofList, h]
      rw [cell_of_lt hi, snapshot_calls, hnone]
    · rw [((indexed_ofList code).calls cs).indexOf?_eq_some_iff, instructions_calls,
        instructions_ofList]
  · intro f produced
    refine ⟨fun f' h => ?_, fun e f' h => Lift.runBlock_of_error (f := f) h⟩
    have hlength : i < (Lift.runBlock.exec f).2.block.tape.length := by
      rw [Lift.exec_runBlock_eq]
      exact hi.trans_le (b.tape.length_le_calls _)
    rw [cell_of_lt hlength, Lift.snapshot_runBlock (f := f) hi h]

/-- A tape of two instructions is read to its end and beyond, and, with an instruction more, read
again for a while; and a block fails behind the instruction that copies the value it starts with. -/
theorem Tape.records_calls_again :
    let nop : Int → Instruction := fun a => ⟨a, .op .nop, .none⟩
    let e : Int → Expr := fun n => .ofLiteral (.int n)
    let cs : List Call := [.next [], .next [e 1], .next [e 2], .append (nop 0), .rewind, .next [],
      .next [e 3], .peek, .finish [e 4, e 3]]
    let t := (ofList [nop 0, nop 4]).calls cs
    let b : Block := { start := 0, entryStack := [e 7], tape := .ofList [⟨0, .op .dup, .none⟩,
      ⟨1, .op .leave, .ret 0 2⟩] }
    let f : Frame := ⟨{ name := "", code := [] }, .ofCode "f" [] [], b, b.entryStack, []⟩
    (t.cell 0).map (·.stack) = .ok [e 3] ∧ (t.cell 1).map (·.stack) = .ok [e 4, e 3] ∧
      (t.cell 2).map (·.stack) = .ok [] ∧ t.indexOf? 0 = some 0 ∧
      ((Lift.runBlock.exec f).2.block.tape.cell 0).map (·.stack) = .ok [e 7, e 7] ∧
      (Lift.runBlock.exec f).1 = .error (.returnCount "f" 2) := by
  intro nop e cs t b f
  obtain ⟨htape, hblock⟩ := records_calls
  obtain ⟨-, hcells, hindex⟩ := htape [nop 0, nop 4] cs
  obtain ⟨hone, -⟩ := hblock f.program f.routine b [] 0 (by decide)
  obtain ⟨-, htwo⟩ := hblock f.program f.routine b [] 1 (by decide)
  refine ⟨hcells 0 (by decide), hcells 1 (by decide), hcells 2 (by decide),
    (hindex 0 0).mpr ⟨⟨nop 0, rfl, rfl⟩, by simp⟩, hone { f with stack := [e 7, e 7] } rfl, ?_⟩
  exact htwo (.returnCount "f" 2) _ rfl

end ScriptLift
