import ScriptLift.Lift.Step

/-!
# What carrying out an instruction can change

A computation on a frame is opened by `Lift.exec_bind` and the lemmas beside it.  What it may do to
the frame is said once, by `Frame.Emits f ss f'`: the statements `ss` were added to the block, and
the stack, the reports and what is known of variables and results may have changed, but nothing
else has.

An instruction that transfers no control emits plain statements only (`Lift.plain_execute`).  The
others end a block: a return emits itself, a jump a `goto`, and a conditional jump a branch whose
join becomes the continuation of the block.
-/

namespace ScriptLift

/-- The statement neither returns nor jumps nor branches. -/
def Stmt.IsPlain : Stmt → Prop
  | ret _ | branch .. | goto _ => False
  | _ => True

/-- Resolving a slot can declare locals, and changes nothing else of the routine. -/
theorem Routine.slot_ok {r r' : Routine} {n : Int} {ref : Reference}
    (h : r.slot n = .ok (ref, r')) :
    ∃ locals, r' = { r with locals } := by
  unfold Routine.slot at h
  split at h
  · split at h
    · cases h
      exact ⟨r.locals, rfl⟩
    · cases h
  · cases h
    exact ⟨_, rfl⟩

/-- A type that is learnt changes the variables of the routine only. -/
theorem Routine.learn_eq (r : Routine) (p : Place) (t : DataType) :
    ∃ inputs locals, r.learn p t = { r with inputs, locals } := by
  cases p with
  | input n => exact ⟨_, r.locals, rfl⟩
  | auto n => exact ⟨r.inputs, _, rfl⟩
  | static | global | loose => exact ⟨r.inputs, r.locals, rfl⟩

namespace Lift

variable {α β : Type} {f f' : Frame}

/-! ### Opening computations -/

/-- A value changes nothing. -/
@[simp]
theorem exec_pure (a : α) (f : Frame) : (pure a : Lift α).exec f = (.ok a, f) := rfl

/-- The second computation runs where the first ended; after a fault it does not run, and the frame
stays as the first left it. -/
theorem exec_bind (m : Lift α) (k : α → Lift β) (f : Frame) :
    (m >>= k).exec f
      = match m.exec f with
        | (.ok a, f') => (k a).exec f'
        | (.error e, f') => (.error e, f') := by
  simp only [exec, ExceptT.run_bind, StateT.run_bind]
  generalize StateT.run (ExceptT.run m) f = out
  obtain ⟨v, f'⟩ := out
  cases v <;> rfl

@[simp]
theorem exec_get (f : Frame) : (get : Lift Frame).exec f = (.ok f, f) := rfl

/-- Everything in the frame can be replaced. -/
@[simp]
theorem exec_set (f f' : Frame) : (set f' : Lift Unit).exec f = (.ok (), f') := rfl

@[simp]
theorem exec_modify (g : Frame → Frame) (f : Frame) :
    (modify g : Lift Unit).exec f = (.ok (), g f) := rfl

@[simp]
theorem exec_push (e : Expr) (f : Frame) :
    (push e).exec f = (.ok (), { f with stack := e :: f.stack }) := rfl

/-- The top of the stack, or the placeholder of an empty one, with what is reported then. -/
@[simp]
theorem exec_pop (f : Frame) :
    pop.exec f
      = (.ok f.stack.pop.1, { f.report f.stack.pop.2.2 with stack := f.stack.pop.2.1 }) := rfl

/-- Several values at once; a negative count takes none. -/
@[simp]
theorem exec_popMany (n : Int) (f : Frame) :
    (popMany n).exec f
      = (.ok (f.stack.popMany n.toNat).1,
        { f.report (f.stack.popMany n.toNat).2.2 with
          stack := (f.stack.popMany n.toNat).2.1 }) := rfl

/-- The stack stays as it is, but an empty one is reported. -/
@[simp]
theorem exec_peek (f : Frame) :
    peek.exec f = (.ok f.stack.peek.1, f.report f.stack.peek.2) := rfl

@[simp]
theorem exec_report (e : Event) (f : Frame) : (report e).exec f = (.ok (), f.report [e]) := rfl

@[simp]
theorem exec_emit (s : Stmt) (f : Frame) :
    (emit s).exec f = (.ok (), { f with block := f.block.emit s }) := rfl

/-- A computation that knows no frame leaves it as it is, also when it faults. -/
@[simp]
theorem exec_liftM (x : Except Fault α) (f : Frame) : (liftM x : Lift α).exec f = (x, f) := by
  cases x <;> rfl

end Lift

/-! ### Effects -/

/-- Between the frames, `ss` was emitted, and nothing has changed but the stack, the reports, and
what is known of variables and results. -/
structure Frame.Emits (f : Frame) (ss : List Stmt) (f' : Frame) : Prop where
  handled : f'.program.handled = f.program.handled
  name : f'.routine.name = f.routine.name
  address : f'.routine.address = f.routine.address
  code : f'.routine.code = f.routine.code
  graph : f'.routine.graph = f.routine.graph
  block : f'.block = { f.block with statements := f.block.statements ++ ss }

namespace Frame.Emits

variable {f f' f'' : Frame} {ss ts : List Stmt}

/-- Nothing was added. -/
theorem refl (f : Frame) : f.Emits [] f :=
  ⟨rfl, rfl, rfl, rfl, rfl, by simp⟩

/-- What two steps add stands in the order of the steps. -/
theorem trans (h : f.Emits ss f') (h' : f'.Emits ts f'') : f.Emits (ss ++ ts) f'' where
  handled := h'.handled.trans h.handled
  name := h'.name.trans h.name
  address := h'.address.trans h.address
  code := h'.code.trans h.code
  graph := h'.graph.trans h.graph
  block := by rw [h'.block, h.block, List.append_assoc]

end Frame.Emits

namespace Lift

variable {α β : Type} {f f' : Frame} {m : Lift α} {k : α → Lift β}

/-- Whatever comes of the computation, it emits nothing. -/
def Quiet (m : Lift α) : Prop :=
  ∀ f : Frame, f.Emits [] (m.exec f).2

/-- Whatever comes of the computation, it emits plain statements only. -/
def Plain (m : Lift α) : Prop :=
  ∀ f : Frame, ∃ ss, (∀ s ∈ ss, s.IsPlain) ∧ f.Emits ss (m.exec f).2

/-- To add nothing is to add plain statements only. -/
theorem Quiet.plain (h : Quiet m) : Plain m :=
  fun f => ⟨[], by simp, h f⟩

/-- Two computations that add nothing, one behind the other. -/
theorem Quiet.bind (h : Quiet m) (hk : ∀ a, Quiet (k a)) : Quiet (m >>= k) := by
  intro f
  have hm := h f
  rw [exec_bind]
  generalize m.exec f = out at hm
  obtain ⟨v, f'⟩ := out
  cases v with
  | error e => exact hm
  | ok a => exact hm.trans (hk a f')

/-- Whether the first computation faults or not, what it added is plain; the second adds to that. -/
theorem Plain.bind (h : Plain m) (hk : ∀ a, Plain (k a)) : Plain (m >>= k) := by
  intro f
  obtain ⟨ss, hss, hm⟩ := h f
  rw [exec_bind]
  generalize m.exec f = out at hm
  obtain ⟨v, f'⟩ := out
  cases v with
  | error e => exact ⟨ss, hss, hm⟩
  | ok a =>
      obtain ⟨ts, hts, hm'⟩ := hk a f'
      refine ⟨ss ++ ts, fun s hs => ?_, hm.trans hm'⟩
      exact (List.mem_append.mp hs).elim (hss s) (hts s)

theorem quiet_pure (a : α) : Quiet (pure a : Lift α) :=
  fun f => .refl f

/-- A fault adds nothing. -/
theorem quiet_throw (e : Fault) : Quiet (throw e : Lift α) :=
  fun f => .refl f

theorem quiet_get : Quiet (get : Lift Frame) :=
  fun f => .refl f

theorem quiet_liftM (x : Except Fault α) : Quiet (liftM x : Lift α) := by
  intro f
  rw [exec_liftM]
  exact .refl f

theorem quiet_push (e : Expr) : Quiet (push e) :=
  fun _ => ⟨rfl, rfl, rfl, rfl, rfl, by simp⟩

/-- Taking a value adds no statement, even from an empty stack. -/
theorem quiet_pop : Quiet pop :=
  fun _ => ⟨rfl, rfl, rfl, rfl, rfl, by simp [Frame.report]⟩

theorem quiet_peek : Quiet peek :=
  fun _ => ⟨rfl, rfl, rfl, rfl, rfl, by simp [Frame.report]⟩

theorem quiet_popMany (n : Int) : Quiet (popMany n) :=
  fun _ => ⟨rfl, rfl, rfl, rfl, rfl, by simp [Frame.report]⟩

theorem quiet_report (e : Event) : Quiet (report e) :=
  fun _ => ⟨rfl, rfl, rfl, rfl, rfl, by simp [Frame.report]⟩

/-- The only statement added is the one emitted. -/
theorem emits_emit (s : Stmt) (f : Frame) : f.Emits [s] ((emit s).exec f).2 :=
  ⟨rfl, rfl, rfl, rfl, rfl, rfl⟩

/-- A statement that transfers no control may be emitted. -/
theorem plain_emit {s : Stmt} (h : s.IsPlain) : Plain (emit s) :=
  fun f => ⟨[s], by simpa using h, emits_emit s f⟩

/-! ### The operations that transfer no control -/

/-- Finding a variable may declare it, which is no statement of the block. -/
theorem quiet_locate (st : Storage) (i : Instruction) : Quiet (locate st i) := by
  unfold locate
  refine (quiet_liftM _).bind fun n => ?_
  cases st with
  | «local» =>
      intro f
      simp only [exec_bind, exec_get, exec_liftM]
      cases h : f.routine.slot n with
      | error e => exact .refl f
      | ok out =>
          obtain ⟨ref, r'⟩ := out
          obtain ⟨locals, rfl⟩ := Routine.slot_ok h
          exact ⟨rfl, rfl, rfl, rfl, rfl, by simp⟩
  | static => exact quiet_pure _
  | global => exact quiet_pure _

/-- A store adds the assignment. -/
theorem plain_store (ref : Reference) : Plain (store ref) := by
  unfold store
  refine quiet_pop.plain.bind fun value => Plain.bind ?_ fun _ => plain_emit trivial
  refine Quiet.plain fun f => ?_
  obtain ⟨inputs, locals, hr⟩ := f.routine.learn_eq ref.place (value.type f.typeOf)
  simp only [exec_modify, Frame.learn, Program.learn, Frame.report, hr]
  exact ⟨rfl, rfl, rfl, rfl, rfl, by simp⟩

theorem quiet_binary (op : String) (t : DataType) : Quiet (binary op t) :=
  quiet_pop.bind fun _ => quiet_pop.bind fun _ => quiet_push _

/-- A call without a result is a statement; one with a result stays on the stack. -/
theorem plain_invoke (name : String) (args returns : Int) (t : DataType) :
    Plain (invoke name args returns t) := by
  unfold invoke
  refine (quiet_popMany args).plain.bind fun es => ?_
  split
  · exact plain_emit trivial
  split
  · exact ((quiet_report _).bind fun _ => quiet_push _).plain
  · exact ((quiet_pure _).bind fun _ => quiet_push _).plain

/-- A call to a routine is an invocation; to an address without one, a comment. -/
theorem plain_callRoutine (target : Int) : Plain (callRoutine target) := by
  unfold callRoutine
  refine quiet_get.plain.bind fun f => ?_
  split
  · exact plain_invoke _ _ _ _
  · exact (quiet_report _).plain.bind fun _ => plain_emit trivial

/-- The constants of one instruction are pushed one by one, and none adds a statement. -/
theorem quiet_forM_push (vs : List Literal) :
    Quiet (vs.forM fun v => push (.ofLiteral v)) := by
  induction vs with
  | nil => exact quiet_pure _
  | cons v vs ih => exact (quiet_push _).bind fun _ => ih

/-- **An operation that transfers no control emits plain statements only.** -/
theorem plain_execute {o : Opcode} (h : o.isTransfer = false) (i : Instruction) :
    Plain (execute o i) := by
  cases o with
  | nop | enter => exact (quiet_pure _).plain
  | push =>
      simp only [execute]
      split
      · exact (quiet_forM_push _).plain
      · exact (quiet_throw _).plain
  | dup => exact (quiet_peek.bind fun _ => quiet_push _).plain
  | drop =>
      refine quiet_pop.plain.bind fun e => ?_
      split
      · exact plain_emit trivial
      · exact (quiet_pure _).plain
  | load st => exact ((quiet_locate st i).bind fun _ => quiet_push _).plain
  | store st => exact (quiet_locate st i).plain.bind fun _ => plain_store _
  | int o => exact (quiet_binary _ _).plain
  | float o => exact (quiet_binary _ _).plain
  | intCompare r => exact (quiet_binary _ _).plain
  | floatCompare r => exact (quiet_binary _ _).plain
  | unary o => exact (quiet_pop.bind fun _ => quiet_push _).plain
  | native =>
      simp only [execute]
      split
      · exact plain_invoke _ _ _ _
      · exact (quiet_throw _).plain
  | call =>
      simp only [execute]
      split
      · exact plain_callRoutine _
      · exact (quiet_throw _).plain
  | leave | jump | jumpIfZero => simp [Opcode.isTransfer, Opcode.isConditional] at h
  | compareJump r => simp [Opcode.isTransfer, Opcode.isConditional] at h

/-- An instruction that is not carried out is kept as a comment. -/
theorem plain_skip (i : Instruction) : Plain (skip i) :=
  quiet_get.plain.bind fun _ => (quiet_report _).plain.bind fun _ => plain_emit trivial

/-- An instruction that transfers no control adds plain statements, carried out or not. -/
theorem plain_step {i : Instruction} (h : i.isTransfer = false) : Plain (step i) := by
  unfold step
  split
  · rename_i o ho
    refine quiet_get.plain.bind fun f => ?_
    split
    · exact plain_execute (by simpa [Instruction.isTransfer, Kind.isTransfer, ho] using h) i
    · exact plain_skip i
  · exact plain_skip i

end Lift

end ScriptLift
