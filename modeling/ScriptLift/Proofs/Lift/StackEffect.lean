import ScriptLift.Proofs.Lift.Ending

/-!
# What carrying out a block does to the operand stack

Unless a value is missing, an instruction makes the operand stack deeper or shallower by a number
that can be told from the instruction and the table of routines (`Program.effect`), and it puts
nothing on the stack or into a statement that is not built from what was there (`Expr.Hereditary`).
`Lift.Effect` says both of a computation, together with what the computation leaves alone; it is
composed by `bind` and proved once for every operation (`Lift.effect_step`).

A block that has been carried out keeps the stack it left behind with its last instruction
(`Block.exitStack`).
-/

namespace ScriptLift

/-! ### The effect of an instruction -/

/-- How much deeper a call leaves the stack. -/
def callEffect (args returns : Int) : Int :=
  (if returns = 0 then 0 else 1) - args.toNat

namespace Program

/-- How much deeper an operation leaves the stack. -/
def operationEffect (p : Program) (o : Opcode) (operands : Operands) : Int :=
  match o, operands with
  | .push, .push values => values.length
  | .dup, _ | .load _, _ => 1
  | .drop, _ | .store _, _ | .int _, _ | .float _, _ | .intCompare _, _ | .floatCompare _, _
  | .jumpIfZero, _ => -1
  | .compareJump _, _ => -2
  | .native, .native args returns _ _ _ => callEffect args returns
  | .call, .call target =>
    match p.callee? target with
    | some callee => callEffect callee.args callee.returns
    | none => 0
  | .leave, .ret _ returns => -returns.toNat
  | _, _ => 0

/-- How much deeper an instruction leaves the stack. -/
def effect (p : Program) (i : Instruction) : Int :=
  match i.kind with
  | .op o => if o ∈ p.handled then p.operationEffect o i.operands else 0
  | .other _ => 0

/-- How much deeper several instructions leave the stack. -/
def totalEffect (p : Program) : List Instruction → Int
  | [] => 0
  | i :: is => p.effect i + p.totalEffect is

/-- The programs have the same operations carried out and the same table of routines. -/
structure SameTables (p p' : Program) : Prop where
  handled : p'.handled = p.handled
  callees : p'.callees = p.callees

variable {p p' p'' : Program}

theorem SameTables.refl (p : Program) : p.SameTables p :=
  ⟨rfl, rfl⟩

/-- A program keeps its tables through several steps. -/
theorem SameTables.trans (h : p.SameTables p') (h' : p'.SameTables p'') : p.SameTables p'' :=
  ⟨h'.handled.trans h.handled, h'.callees.trans h.callees⟩

/-- The routine at an address is found in the table. -/
theorem SameTables.callee? (h : p.SameTables p') (a : Int) : p'.callee? a = p.callee? a := by
  rw [Program.callee?, Program.callee?, h.callees]

end Program

/-! ### What expressions are built from -/

/-- The expressions in a statement. -/
def Stmt.exprs : Stmt → List Expr
  | assign _ value => [value]
  | call e => [e]
  | ret values => values
  | branch condition .. => [condition]
  | declare _ | comment _ | goto _ => []

/-- What is built from expressions with the property has it too. -/
structure Expr.Hereditary (Q : Expr → Prop) : Prop where
  literal : ∀ v, Q (.ofLiteral v)
  var : ∀ ref, Q (.var ref)
  binary : ∀ {l r}, Q l → Q r → ∀ op t, Q (.binary l op r t)
  unary : ∀ {e}, Q e → ∀ op t, Q (.unary op e t)
  call : ∀ {es}, (∀ e ∈ es, Q e) → ∀ name t, Q (.call name es t)

/-- Where only depths matter, any expression will do. -/
theorem Expr.hereditary_true : Hereditary fun _ => True :=
  ⟨fun _ => trivial, fun _ => trivial, fun _ _ _ _ => trivial, fun _ _ _ => trivial,
    fun _ _ _ => trivial⟩

/-- The expressions recorded on the tape have the property. -/
def Tape.Holds (Q : Expr → Prop) (t : Tape) : Prop :=
  ∀ c ∈ t.cells, ∀ e ∈ c.stack, Q e

/-- The expressions in the block have the property. -/
structure Block.Holds (Q : Expr → Prop) (b : Block) : Prop where
  statements : ∀ s ∈ b.statements, ∀ e ∈ s.exprs, Q e
  tape : b.tape.Holds Q
  entryStack : ∀ e ∈ b.entryStack, Q e

/-- The expressions on the stack and in the statements have the property. -/
structure Frame.Holds (Q : Expr → Prop) (f : Frame) : Prop where
  stack : ∀ e ∈ f.stack, Q e
  statements : ∀ s ∈ f.block.statements, ∀ e ∈ s.exprs, Q e

/-! ### Reports -/

/-- The event is a report on where ways meet. -/
def Event.isJoin : Event → Bool
  | joinMismatch .. => true
  | _ => false

/-- More has been reported, and nothing about where ways meet. -/
def Event.Adds (events events' : List Event) : Prop :=
  ∃ more, events' = events ++ more ∧ ∀ e ∈ more, e.isJoin = false

namespace Event.Adds

variable {events events' events'' : List Event}

theorem refl (events : List Event) : Adds events events :=
  ⟨[], by simp, by simp⟩

/-- Reports on other things than joins. -/
theorem append (events : List Event) {more : List Event} (h : ∀ e ∈ more, e.isJoin = false) :
    Adds events (events ++ more) :=
  ⟨more, rfl, h⟩

theorem trans (h : Adds events events') (h' : Adds events' events'') : Adds events events'' := by
  obtain ⟨more, rfl, hmore⟩ := h
  obtain ⟨more', rfl, hmore'⟩ := h'
  exact ⟨more ++ more', List.append_assoc .., List.forall_mem_append.mpr ⟨hmore, hmore'⟩⟩

/-- What was reported stays in front. -/
theorem isPrefix (h : Adds events events') : events <+: events' := by
  obtain ⟨more, rfl, -⟩ := h
  exact List.prefix_append _ _

end Event.Adds

/-! ### Computations -/

/-- Between the frames statements may have been emitted, snapshots recorded and events reported, and
something been learnt about variables and results. -/
structure Frame.Grows (f f' : Frame) : Prop where
  tables : f.program.SameTables f'.program
  address : f'.routine.address = f.routine.address
  code : f'.routine.code = f.routine.code
  graph : f'.routine.graph = f.routine.graph
  block : f'.block = { f.block with
    statements := f'.block.statements
    continuation := f'.block.continuation
    tape := f'.block.tape }
  instructions : f'.block.tape.instructions = f.block.tape.instructions
  events : Event.Adds f.events f'.events

namespace Frame.Grows

variable {f f' f'' : Frame}

theorem refl (f : Frame) : f.Grows f :=
  ⟨.refl _, rfl, rfl, rfl, rfl, rfl, .refl _⟩

/-- Nothing that was added is taken away later. -/
theorem trans (h : f.Grows f') (h' : f'.Grows f'') : f.Grows f'' where
  tables := h.tables.trans h'.tables
  address := h'.address.trans h.address
  code := h'.code.trans h.code
  graph := h'.graph.trans h.graph
  block := by rw [h'.block, h.block]
  instructions := h'.instructions.trans h.instructions
  events := h.events.trans h'.events

/-- What was not reported later was not reported before. -/
theorem notMem (h : f.Grows f') {e : Event} (he : e ∉ f'.events) : e ∉ f.events :=
  fun hm => he (h.events.isPrefix.mem hm)

end Frame.Grows

/-- Between the frames, something was learnt about variables and results, and something reported. -/
structure Frame.Learns (f f' : Frame) : Prop where
  tables : f.program.SameTables f'.program
  address : f'.routine.address = f.routine.address
  code : f'.routine.code = f.routine.code
  graph : f'.routine.graph = f.routine.graph
  block : f'.block = f.block
  stack : f'.stack = f.stack
  events : Event.Adds f.events f'.events

namespace Frame.Learns

variable {f f' : Frame}

/-- To learn something is one way to grow. -/
theorem grows (h : f.Learns f') : f.Grows f' where
  tables := h.tables
  address := h.address
  code := h.code
  graph := h.graph
  block := by rw [h.block]
  instructions := by rw [h.block]
  events := h.events

theorem refl (f : Frame) : f.Learns f :=
  ⟨.refl _, rfl, rfl, rfl, rfl, rfl, .refl _⟩

/-- A report changes nothing else. -/
theorem report (f : Frame) {events : List Event} (h : ∀ e ∈ events, e.isJoin = false) :
    f.Learns (f.report events) :=
  ⟨.refl _, rfl, rfl, rfl, rfl, rfl, .append _ h⟩

end Frame.Learns

namespace Lift

variable {α β : Type} {p : Program} {Q : Expr → Prop} {pre : Prop} {m : Lift α} {k : α → Lift β}
  {d d' : Int} {post : α → Prop} {post' : β → Prop}

/-- In a program with the tables of `p`, a computation that comes to a value leaves the stack deeper
by `d`, if it finds every value it takes.  Then expressions with the property `Q` are built from
such expressions, under the condition `pre`, and the value satisfies `post`; that is so without the
values it takes, too, if what stands for a missing value has the property. -/
structure Effect (p : Program) (Q : Expr → Prop) (pre : Prop) (m : Lift α) (d : Int)
    (post : α → Prop) : Prop where
  grows : ∀ f : Frame, p.SameTables f.program → f.Grows (m.exec f).2
  tape : ∀ f : Frame, p.SameTables f.program → (m.exec f).2.block.tape = f.block.tape
  depth : ∀ (f f' : Frame) (a : α), p.SameTables f.program → m.exec f = (.ok a, f') →
    Event.underflow ∉ f'.events → (f'.stack.length : Int) = f.stack.length + d
  holds : ∀ (f f' : Frame) (a : α), p.SameTables f.program → m.exec f = (.ok a, f') → pre →
    Event.underflow ∉ f'.events ∨ Q .underflow → f.Holds Q → f'.Holds Q ∧ post a

/-- The second part has to do what the first leaves of the effect. -/
theorem Effect.bind (h : Effect p Q pre m d post)
    (hk : ∀ a, Effect p Q (pre ∧ post a) (k a) (d' - d) post') :
    Effect p Q pre (m >>= k) d' post' := by
  -- a value of the whole is one of the first part and then one of the second
  have split : ∀ (f f' : Frame) (b : β), (m >>= k).exec f = (.ok b, f') →
      ∃ a f₁, m.exec f = (.ok a, f₁) ∧ (k a).exec f₁ = (.ok b, f') := by
    intro f f' b hb
    rw [exec_bind] at hb
    split at hb
    · rename_i a f₁ hm
      exact ⟨a, f₁, hm, hb⟩
    · cases hb
  have tables : ∀ (f f₁ : Frame) (a : α), p.SameTables f.program → m.exec f = (.ok a, f₁) →
      p.SameTables f₁.program := by
    intro f f₁ a hp hm
    have := (h.grows f hp).tables
    rw [hm] at this
    exact hp.trans this
  refine ⟨fun f hp => ?_, fun f hp => ?_, fun f f' b hp hb hu => ?_,
    fun f f' b hp hb hpre hu hf => ?_⟩
  · have hm := h.grows f hp
    rw [exec_bind]
    split
    · rename_i a f₁ hf₁
      rw [hf₁] at hm
      exact hm.trans ((hk a).grows f₁ (tables f f₁ a hp hf₁))
    · rename_i e f₁ hf₁
      rw [hf₁] at hm
      exact hm
  · have hm := h.tape f hp
    rw [exec_bind]
    split
    · rename_i a f₁ hf₁
      rw [hf₁] at hm
      exact ((hk a).tape f₁ (tables f f₁ a hp hf₁)).trans hm
    · rename_i e f₁ hf₁
      rw [hf₁] at hm
      exact hm
  all_goals
    obtain ⟨a, f₁, hm, hka⟩ := split f f' b hb
    have hp₁ := tables f f₁ a hp hm
    have hgrows := (hk a).grows f₁ hp₁
    rw [hka] at hgrows
  · have h₁ := h.depth f f₁ a hp hm (hgrows.notMem hu)
    have h₂ := (hk a).depth f₁ f' b hp₁ hka hu
    omega
  · obtain ⟨hf₁, ha⟩ := h.holds f f₁ a hp hm hpre (hu.imp_left hgrows.notMem) hf
    exact (hk a).holds f₁ f' b hp₁ hka ⟨hpre, ha⟩ hu hf₁

/-- As `Effect.bind`, behind a computation that keeps the depth. -/
theorem Effect.bind_of_zero (h : Effect p Q pre m 0 post)
    (hk : ∀ a, Effect p Q (pre ∧ post a) (k a) d post') : Effect p Q pre (m >>= k) d post' :=
  h.bind fun a => by simpa using hk a

/-- The frame read first is one of a program with the same tables. -/
theorem Effect.get_bind {k : Frame → Lift β}
    (hk : ∀ f, p.SameTables f.program → Effect p Q pre (k f) d post') :
    Effect p Q pre (get >>= k) d post' where
  grows f hp := (hk f hp).grows f hp
  tape f hp := (hk f hp).tape f hp
  depth f f' b hp hb := (hk f hp).depth f f' b hp hb
  holds f f' b hp hb := (hk f hp).holds f f' b hp hb

/-! ### Primitive computations -/

theorem effect_pure {a : α} (h : pre → post a) : Effect p Q pre (pure a) 0 post where
  grows f _ := .refl f
  tape _ _ := rfl
  depth f f' b _ hb _ := by
    cases hb
    simp
  holds f f' b _ hb hpre _ hf := by
    cases hb
    exact ⟨hf, h hpre⟩

/-- A computation that comes to no value has any effect. -/
theorem effect_throw (e : Fault) : Effect p Q pre (throw e : Lift α) d post where
  grows f _ := .refl f
  tape _ _ := rfl
  depth f f' b _ hb := by cases hb
  holds f f' b _ hb := by cases hb

theorem effect_liftM (x : Except Fault α) : Effect p Q pre (liftM x) 0 fun _ => True := by
  cases x with
  | error e => exact effect_throw e
  | ok a => exact effect_pure fun _ => trivial

/-- One value more. -/
theorem effect_push {e : Expr} (h : pre → Q e) : Effect p Q pre (push e) 1 fun _ => True where
  grows f _ := ⟨.refl _, rfl, rfl, rfl, rfl, rfl, .refl _⟩
  tape _ _ := rfl
  depth f f' b _ hb _ := by
    cases hb
    simp
  holds f f' b _ hb hpre _ hf := by
    cases hb
    exact ⟨⟨List.forall_mem_cons.mpr ⟨h hpre, hf.stack⟩, hf.statements⟩, trivial⟩

end Lift

namespace OperandStack

variable {α : Type} {st : OperandStack} {Q : Expr → Prop}

/-- What is left of the stack has the depth `st.length + d` and the values taken satisfy `post`, if
no value was missing or what stands for one is as good as any. -/
structure Takes (Q : Expr → Prop) (st : OperandStack) (d : Int) (post : α → Prop)
    (out : α × OperandStack × List Event) : Prop where
  depth : Event.underflow ∉ out.2.2 → (out.2.1.length : Int) = st.length + d
  holds : Event.underflow ∉ out.2.2 ∨ Q .underflow → (∀ e ∈ st, Q e) →
    post out.1 ∧ ∀ e ∈ out.2.1, Q e
  events : ∀ e ∈ out.2.2, e.isJoin = false

/-- One value less, or the placeholder and a report. -/
theorem takes_pop (st : OperandStack) : Takes Q st (-1) Q st.pop := by
  cases st with
  | nil =>
      exact ⟨by simp [pop], fun hu _ => ⟨hu.resolve_left (by simp [pop]), by simp [pop]⟩,
        by simp [pop, Event.isJoin]⟩
  | cons e st =>
      refine ⟨fun _ => ?_, fun _ h => ⟨h e (by simp), fun x hx => h x (List.mem_cons_of_mem e hx)⟩,
        by simp [pop]⟩
      simp only [pop, List.length_cons]
      omega

theorem takes_peek (st : OperandStack) : Takes Q st 0 Q (st.peek.1, st, st.peek.2) := by
  cases st with
  | nil =>
      exact ⟨fun _ => by simp, fun hu h => ⟨hu.resolve_left (by simp [peek]), h⟩,
        by simp [peek, Event.isJoin]⟩
  | cons e st => exact ⟨fun _ => by simp, fun _ h => ⟨h e (by simp), h⟩, by simp [peek]⟩

/-- By induction on the number: one value after the other. -/
theorem takes_popMany (n : Nat) (st : OperandStack) :
    Takes Q st (-n) (fun es => ∀ e ∈ es, Q e) (st.popMany n) := by
  induction n generalizing st with
  | zero => exact ⟨by simp [popMany], fun _ h => ⟨by simp [popMany], h⟩, by simp [popMany]⟩
  | succ n ih =>
      have hone := takes_pop (Q := Q) st
      have hmore := ih st.pop.2.1
      refine ⟨fun hu => ?_, fun hu h => ?_, List.forall_mem_append.mpr ⟨hone.events, hmore.events⟩⟩
      · have hu' : Event.underflow ∉ st.pop.2.2 ∧
            Event.underflow ∉ (popMany n st.pop.2.1).2.2 := by simpa [popMany] using hu
        have h₁ := hone.depth hu'.1
        have h₂ := hmore.depth hu'.2
        show ((popMany n st.pop.2.1).2.1.length : Int) = _
        omega
      · simp only [popMany, List.mem_append, not_or] at hu ⊢
        obtain ⟨he, hst⟩ := hone.holds (hu.imp_left (·.1)) h
        obtain ⟨hes, hst'⟩ := hmore.holds (hu.imp_left (·.2)) hst
        refine ⟨fun x hx => hx.elim (hes x) fun hx => ?_, hst'⟩
        rw [List.mem_singleton.mp hx]
        exact he

end OperandStack

namespace Lift

variable {α β : Type} {p : Program} {Q : Expr → Prop} {pre : Prop} {d : Int}

/-- A computation that takes values and reports those that are missing. -/
theorem effect_take {m : Lift α} {take : OperandStack → α × OperandStack × List Event}
    {post : α → Prop}
    (hm : ∀ f : Frame, m.exec f = (.ok (take f.stack).1,
      { f.report (take f.stack).2.2 with stack := (take f.stack).2.1 }))
    (h : ∀ st, OperandStack.Takes Q st d post (take st)) : Effect p Q pre m d post where
  grows f _ := by
    rw [hm]
    exact ⟨.refl _, rfl, rfl, rfl, rfl, rfl, .append _ (h f.stack).events⟩
  tape f _ := by rw [hm]; rfl
  depth f f' b _ hb hu := by
    rw [hm] at hb
    cases hb
    exact (h f.stack).depth fun h' => hu (List.mem_append_right f.events h')
  holds f f' b _ hb _ hu hf := by
    rw [hm] at hb
    cases hb
    obtain ⟨ha, hst⟩ := (h f.stack).holds
      (hu.imp_left fun hu h' => hu (List.mem_append_right f.events h')) hf.stack
    exact ⟨⟨hst, hf.statements⟩, ha⟩

theorem effect_pop : Effect p Q pre pop (-1) Q :=
  effect_take exec_pop OperandStack.takes_pop

theorem effect_peek : Effect p Q pre peek 0 Q :=
  effect_take exec_peek OperandStack.takes_peek

theorem effect_popMany (n : Int) :
    Effect p Q pre (popMany n) (-n.toNat) fun es => ∀ e ∈ es, Q e :=
  effect_take (exec_popMany n) (OperandStack.takes_popMany n.toNat)

/-- The expressions of the statement have to have the property. -/
theorem effect_emit {s : Stmt} (h : pre → ∀ e ∈ s.exprs, Q e) :
    Effect p Q pre (emit s) 0 fun _ => True where
  grows f _ := ⟨.refl _, rfl, rfl, rfl, rfl, rfl, .refl _⟩
  tape _ _ := rfl
  depth f f' b _ hb _ := by
    cases hb
    simp
  holds f f' b _ hb hpre _ hf := by
    cases hb
    refine ⟨⟨hf.stack, fun t ht => ?_⟩, trivial⟩
    rcases List.mem_append.mp ht with ht | ht
    · exact hf.statements t ht
    · rw [List.mem_singleton.mp ht]
      exact h hpre

/-- What is learnt about variables and results does not touch the stack or the block. -/
theorem effect_of_learns {m : Lift α} (h : ∀ f : Frame, f.Learns (m.exec f).2) :
    Effect p Q pre m 0 fun _ => True where
  grows f _ := (h f).grows
  tape f _ := congrArg Block.tape (h f).block
  depth f f' b _ hb _ := by
    have hs : f.Learns f' := by simpa [hb] using h f
    simp [hs.stack]
  holds f f' b _ hb _ _ hf := by
    have hs : f.Learns f' := by simpa [hb] using h f
    exact ⟨⟨by rw [hs.stack]; exact hf.stack, by rw [hs.block]; exact hf.statements⟩, trivial⟩

/-- Where the layout goes on has nothing to do with the stack. -/
theorem effect_continueAt (join : Int) :
    Effect p Q pre
      (modify fun f => { f with block := { f.block with continuation := some join } }) 0
      fun _ => True where
  grows f _ := ⟨.refl _, rfl, rfl, rfl, rfl, rfl, .refl _⟩
  tape _ _ := rfl
  depth f f' b _ hb _ := by
    cases hb
    simp
  holds f f' b _ hb _ _ hf := by
    cases hb
    exact ⟨⟨hf.stack, hf.statements⟩, trivial⟩

theorem effect_report {e : Event} (h : e.isJoin = false) :
    Effect p Q pre (report e) 0 fun _ => True :=
  effect_of_learns fun f => .report f (List.forall_mem_singleton.mpr h)

/-! ### Operations -/

/-- Resolving a variable may declare a local. -/
theorem learns_locate (st : Storage) (i : Instruction) (f : Frame) :
    f.Learns ((locate st i).exec f).2 := by
  unfold locate
  rw [exec_bind, exec_liftM]
  cases i.slot with
  | error e => exact .refl f
  | ok n =>
      cases st with
      | «local» =>
          simp only [exec_bind, exec_get, exec_liftM]
          cases hs : f.routine.slot n with
          | error e => exact .refl f
          | ok out =>
              obtain ⟨ref, r⟩ := out
              obtain ⟨locals, rfl⟩ := Routine.slot_ok hs
              exact ⟨.refl _, rfl, rfl, rfl, rfl, rfl, .refl _⟩
      | static | global => exact .refl f

theorem effect_locate (st : Storage) (i : Instruction) :
    Effect p Q pre (locate st i) 0 fun _ => True :=
  effect_of_learns (learns_locate st i)

/-- What is reported of types is nothing about joins. -/
theorem isJoin_learnEvents (name : String) (known new : DataType) :
    ∀ e ∈ learnEvents name known new, e.isJoin = false := by
  unfold learnEvents
  split <;> simp [Event.isJoin]

/-- A type that is learnt goes into the routine or into the shared typing. -/
theorem learns_learn (f : Frame) (ref : Reference) (new : DataType) :
    f.Learns (f.learn ref new) := by
  obtain ⟨inputs, locals, hr⟩ := f.routine.learn_eq ref.place new
  simp only [Frame.learn, Program.learn, Frame.report, hr]
  exact ⟨⟨rfl, rfl⟩, rfl, rfl, rfl, rfl, rfl, .append _ (isJoin_learnEvents ref.name _ _)⟩

/-- A store takes one value. -/
theorem effect_store (ref : Reference) : Effect p Q pre (store ref) (-1) fun _ => True :=
  effect_pop.bind fun value => Effect.bind_of_zero
    (effect_of_learns fun f => learns_learn f ref (value.type f.typeOf)) fun _ =>
    effect_emit fun ⟨⟨_, hv⟩, _⟩ => by simpa [Stmt.exprs] using hv

/-- Two values are taken and one is pushed. -/
theorem effect_binary (hQ : Expr.Hereditary Q) (op : String) (t : DataType) :
    Effect p Q pre (binary op t) (-1) fun _ => True :=
  effect_pop.bind fun _ => effect_pop.bind fun _ =>
    effect_push fun ⟨⟨_, hr⟩, hl⟩ => hQ.binary hl hr op t

/-- As many values are taken as there are arguments, and one is pushed if there is a result. -/
theorem effect_invoke (hQ : Expr.Hereditary Q) (name : String) (args returns : Int) (t : DataType) :
    Effect p Q pre (invoke name args returns t) (callEffect args returns) fun _ => True := by
  refine (effect_popMany args).bind fun es => ?_
  split
  · rename_i h
    rw [show callEffect args returns - -(args.toNat : Int) = 0 by simp [callEffect, h]]
    exact effect_emit fun ⟨_, hes⟩ => by simpa [Stmt.exprs] using hQ.call hes name t
  · rename_i h
    rw [show callEffect args returns - -(args.toNat : Int) = 1 by simp [callEffect, h]]
    split
    · exact (effect_report rfl).bind_of_zero fun _ =>
        effect_push fun ⟨⟨_, hes⟩, _⟩ => hQ.call hes name t
    · exact effect_push fun ⟨_, hes⟩ => hQ.call hes name t

/-- The effect of a call is that of the routine in the table; without one, nothing is taken. -/
theorem effect_callRoutine (hQ : Expr.Hereditary Q) (target : Int) :
    Effect p Q pre (callRoutine target) (p.operationEffect .call (.call target)) fun _ => True := by
  refine .get_bind fun f hp => ?_
  rw [hp.callee?, Program.operationEffect]
  cases p.callee? target with
  | some callee => exact effect_invoke hQ _ _ _ _
  | none =>
      exact (effect_report rfl).bind_of_zero fun _ => effect_emit fun _ => by simp [Stmt.exprs]

theorem isJoin_inferReturn {r r' : Routine} {count : Int} {top : DataType} {events : List Event}
    (h : r.inferReturn count top = .ok (r', events)) : ∀ e ∈ events, e.isJoin = false := by
  unfold Routine.inferReturn at h
  split at h
  · cases h
  split at h
  · cases h
    simp
  split at h
  · cases h
    simp [Event.isJoin]
  split at h
  · cases h
    simp [Event.isJoin]
  · cases h
    simp

/-- What is inferred goes into the result of the routine. -/
theorem learns_inferReturn (count : Int) (values : List Expr) (f : Frame) :
    f.Learns ((inferReturn count values).exec f).2 := by
  simp only [inferReturn, exec_bind, exec_get, exec_liftM]
  generalize h : f.routine.inferReturn count _ = out
  cases out with
  | error e => exact .refl f
  | ok out =>
      obtain ⟨r, events⟩ := out
      have hevents := isJoin_inferReturn h
      obtain ⟨result, rfl⟩ := inferReturn_ok h
      exact ⟨.refl _, rfl, rfl, rfl, rfl, rfl, .append _ hevents⟩

theorem effect_inferReturn (count : Int) (values : List Expr) :
    Effect p Q pre (inferReturn count values) 0 fun _ => True :=
  effect_of_learns (learns_inferReturn count values)

/-- A return takes the values it gives back. -/
theorem effect_leave (returns : Int) :
    Effect p Q pre (leave returns) (-returns.toNat) fun _ => True := by
  have tail : ∀ pre : Prop, Effect p Q pre (do
      let values ← popMany returns
      inferReturn returns values
      emit (.ret values)) (-returns.toNat) fun _ => True := by
    refine fun pre => (effect_popMany returns).bind fun values => ?_
    rw [Int.sub_self]
    exact (effect_inferReturn returns values).bind_of_zero fun _ => effect_emit fun ⟨⟨_, h⟩, _⟩ => h
  unfold leave
  split
  · exact (effect_inferReturn returns []).bind_of_zero fun _ => tail _
  · exact tail pre

/-- The condition has been taken before; the branch keeps the depth. -/
theorem effect_branch (i : Instruction) {c : Expr} (hc : pre → Q c) :
    Effect p Q pre (branch i c) 0 fun _ => True := by
  refine (effect_liftM _).bind_of_zero fun t => .get_bind fun f _ => ?_
  split
  · exact (effect_emit fun _ => by simp [Stmt.exprs]).bind_of_zero fun _ =>
      effect_emit fun _ => by simp [Stmt.exprs]
  · exact (effect_emit fun ⟨h, _⟩ => by simpa [Stmt.exprs] using hc h).bind_of_zero fun _ =>
      effect_continueAt _

/-- By induction on the constants: one value more for each. -/
theorem effect_forM_push (hQ : Expr.Hereditary Q) (values : List Literal) :
    Effect p Q pre (values.forM fun v => push (.ofLiteral v)) values.length fun _ => True := by
  induction values generalizing pre with
  | nil => exact effect_pure fun _ => trivial
  | cons v values ih =>
      refine (effect_push fun _ => hQ.literal v).bind fun _ => ?_
      rw [List.length_cons, Int.natCast_add, Int.natCast_one, Int.add_sub_cancel]
      exact ih

/-- **The effect of an operation.** -/
theorem effect_execute (hQ : Expr.Hereditary Q) (o : Opcode) (i : Instruction) :
    Effect p Q pre (execute o i) (p.operationEffect o i.operands) fun _ => True := by
  cases o with
  | nop | enter => exact effect_pure fun _ => trivial
  | push =>
      simp only [execute]
      split
      · rename_i h
        rw [h]
        exact effect_forM_push hQ _
      · exact effect_throw _
  | dup => exact effect_peek.bind fun _ => effect_push And.right
  | drop =>
      refine effect_pop.bind fun e => ?_
      split
      · exact effect_emit fun h => by simpa [Stmt.exprs] using h.2
      · exact effect_pure fun _ => trivial
  | load st => exact (effect_locate st i).bind fun ref => effect_push fun _ => hQ.var ref
  | store st => exact (effect_locate st i).bind_of_zero fun ref => effect_store ref
  | int o | float o | intCompare r | floatCompare r => exact effect_binary hQ _ _
  | unary o => exact effect_pop.bind fun _ => effect_push fun h => hQ.unary h.2 _ _
  | native =>
      simp only [execute]
      split
      · rename_i h
        rw [h]
        exact effect_invoke hQ _ _ _ _
      · exact effect_throw _
  | call =>
      simp only [execute]
      split
      · rename_i h
        rw [h]
        exact effect_callRoutine hQ _
      · exact effect_throw _
  | leave =>
      simp only [execute]
      split
      · rename_i h
        rw [h]
        exact effect_leave _
      · exact effect_throw _
  | jump => exact (effect_liftM _).bind_of_zero fun _ => effect_emit fun _ => by simp [Stmt.exprs]
  | jumpIfZero => exact effect_pop.bind fun _ => effect_branch i And.right
  | compareJump r =>
      exact effect_pop.bind fun _ => effect_pop.bind fun _ =>
        effect_branch i fun h => hQ.binary h.2 h.1.2 _ _

/-- An instruction that is not carried out keeps the depth. -/
theorem effect_skip (i : Instruction) : Effect p Q pre (skip i) 0 fun _ => True :=
  .get_bind fun _ _ => (effect_report rfl).bind_of_zero fun _ =>
    effect_emit fun _ => by simp [Stmt.exprs]

/-- **The effect of an instruction.** -/
theorem effect_step (hQ : Expr.Hereditary Q) (i : Instruction) :
    Effect p Q pre (step i) (p.effect i) fun _ => True := by
  unfold step Program.effect
  cases i.kind with
  | op o =>
      refine .get_bind fun f hp => ?_
      rw [hp.handled]
      dsimp only
      split
      · exact effect_execute hQ o i
      · exact effect_skip i
  | other name => exact effect_skip i

end Lift

/-! ### Whole blocks -/

namespace Tape

variable {Q : Expr → Prop} {t t' : Tape} {st : OperandStack}

/-- A stack of good expressions is recorded on a good tape. -/
theorem Holds.record (h : t.Holds Q) (hst : ∀ e ∈ st, Q e) : (t.record st).Holds Q := by
  unfold Tape.record
  split
  · exact h
  · rename_i c cs hr
    intro d hd e he
    have hd' : d ∈ cs ∨ d = { c with stack := st } ∨ d ∈ t.unread := by simpa [cells] using hd
    rcases hd' with hd | rfl | hd
    · exact h d (by simp [cells, hr, hd]) e he
    · exact hst e he
    · exact h d (by simp [cells, hd]) e he

theorem Holds.rewind (h : t.Holds Q) : t.rewind.Holds Q := by
  simpa [Holds, Tape.rewind, cells] using h

/-- Reading on records the stack and moves the head over one cell. -/
theorem next_eq {c : Cell} {cs : List Cell} (h : t.unread = c :: cs) (st : OperandStack) :
    t.next st = (.ok c.instruction, t.readOn c cs st) := by
  simp [next, readOn, h]

/-- Reading on records the stack at hand. -/
theorem Holds.next {c : Cell} {cs : List Cell} (h : t.Holds Q) (hst : ∀ e ∈ st, Q e)
    (hu : t.unread = c :: cs) : (t.readOn c cs st).Holds Q := by
  simpa [Holds, cells, readOn, hu] using h.record hst

/-- The stack recorded last is the one with the instruction read last. -/
theorem stack_of_record {c : Cell} (h : c ∈ (t.record st).read.head?) : c.stack = st := by
  unfold record at h
  split at h
  · rename_i hr
    simp [hr] at h
  · simp only [List.head?_cons, Option.mem_some_iff] at h
    rw [← h]

end Tape

/-- The stack that the block leaves behind: the one recorded with its last instruction, or the one
it started with if there is no instruction. -/
def Block.exitStack (b : Block) : OperandStack :=
  (b.tape.cells.getLast?.map (·.stack)).getD b.entryStack

/-- Between the frames, the instructions `is` that were left on the tape were carried out. -/
structure Frame.Passes (p : Program) (Q : Expr → Prop) (is : List Instruction) (f f' : Frame) :
    Prop where
  unread : f'.block.tape.unread = []
  last : ∀ c ∈ f'.block.tape.read.head?, c.stack = f'.stack
  stays : is = [] → f'.stack = f.stack
  depth : Event.underflow ∉ f'.events →
    (f'.stack.length : Int) = f.stack.length + p.totalEffect is
  holds : Event.underflow ∉ f'.events ∨ Q .underflow → f.Holds Q → f.block.tape.Holds Q →
    f'.Holds Q ∧ f'.block.tape.Holds Q

namespace Lift

variable {p : Program} {Q : Expr → Prop} {f f' : Frame}

/-- **Carrying out what is left on the tape.** -/
theorem steps_effect (hQ : Expr.Hereditary Q) {is : List Instruction} (hp : p.SameTables f.program)
    (hu : f.block.tape.unread.map (·.instruction) = is) :
    f.Grows ((steps is.length).exec f).2 ∧
      ∀ f', (steps is.length).exec f = (.ok (), f') → f.Passes p Q is f' := by
  induction is generalizing f with
  | nil =>
      refine ⟨⟨.refl _, rfl, rfl, rfl, rfl, Tape.instructions_record _ _, .refl _⟩,
        fun f' hf' => ?_⟩
      cases hf'
      refine ⟨by simpa using hu, fun c hc => Tape.stack_of_record hc, fun _ => rfl,
        by simp [Program.totalEffect],
        fun _ hf ht => ⟨⟨hf.stack, hf.statements⟩, ht.record hf.stack⟩⟩
  | cons i is ih =>
      obtain ⟨c, cs, hc, rfl, hcs⟩ := List.map_eq_cons_iff.mp hu
      obtain ⟨f₀, hnext, rfl⟩ : ∃ f₀, next.exec f = (.ok c.instruction, f₀) ∧
          f₀ = f.withTape (f.block.tape.readOn c cs f.stack) := by
        refine ⟨_, ?_, rfl⟩
        simp only [next, exec_bind, exec_get, exec_set, exec_liftM, Tape.next_eq hc]
        rfl
      have h₀ : f.Grows (f.withTape (f.block.tape.readOn c cs f.stack)) :=
        ⟨.refl _, rfl, rfl, rfl, rfl, Tape.instructions_readOn hc f.stack, .refl _⟩
      have hstep : Effect p Q True (step c.instruction) (p.effect c.instruction) fun _ => True :=
        effect_step hQ _
      have h₁ := hstep.grows _ (hp.trans h₀.tables)
      have htape := hstep.tape _ (hp.trans h₀.tables)
      rw [List.length_cons, steps, exec_bind, hnext]
      dsimp only
      rw [exec_bind]
      cases hs : (step c.instruction).exec _ with
      | mk v f₁ =>
        rw [hs] at h₁ htape
        cases v with
        | error e => exact ⟨h₀.trans h₁, fun f' hf' => by cases hf'⟩
        | ok u =>
            obtain ⟨hgrows, hpass⟩ :=
              ih (f := f₁) (hp.trans (h₀.trans h₁).tables) (by rw [htape]; exact hcs)
            refine ⟨(h₀.trans h₁).trans hgrows, fun f' hf' => ?_⟩
            have hrest := hpass f' hf'
            have hg : f₁.Grows f' := by simpa [hf'] using hgrows
            refine ⟨hrest.unread, hrest.last, by simp, fun hu => ?_, fun hu hf ht => ?_⟩
            -- a value missing in this step would be among the events at the end
            · have hd₁ := hstep.depth _ f₁ u (hp.trans h₀.tables) hs (hg.notMem hu)
              have hd₂ := hrest.depth hu
              have hst : (f.withTape (f.block.tape.readOn c cs f.stack)).stack = f.stack := rfl
              rw [hst] at hd₁
              rw [Program.totalEffect]
              omega
            · obtain ⟨hf₁, -⟩ := hstep.holds _ f₁ u (hp.trans h₀.tables) hs trivial
                (hu.imp_left hg.notMem) ⟨hf.stack, hf.statements⟩
              exact hrest.holds hu hf₁ (by rw [htape]; exact ht.next hf.stack hc)

/-- **Carrying out a block** that starts with its entry stack.  It keeps what it leaves behind, and
it leaves the stack deeper by the effect of its instructions. -/
theorem runBlock_effect (hQ : Expr.Hereditary Q) (hs : f.stack = f.block.entryStack) :
    f.Grows (runBlock.exec f).2 ∧ ∀ f', runBlock.exec f = (.ok (), f') →
      f'.block.exitStack = f'.stack ∧
      (Event.underflow ∉ f'.events → (f'.stack.length : Int)
        = f.stack.length + f.program.totalEffect f.block.tape.instructions) ∧
      (Event.underflow ∉ f'.events ∨ Q .underflow → f.block.Holds Q → f'.block.Holds Q) := by
  obtain ⟨hexec, hunread⟩ := exec_runBlock f
  have h₀ : f.Grows (f.withTape f.block.tape.rewind) :=
    ⟨.refl _, rfl, rfl, rfl, rfl, Tape.instructions_rewind _, .refl _⟩
  obtain ⟨hgrows, hpass⟩ := steps_effect hQ h₀.tables hunread
  rw [hexec]
  refine ⟨h₀.trans hgrows, fun f' hf' => ?_⟩
  have h := hpass f' hf'
  have hg : f.Grows f' := by
    rw [hf'] at hgrows
    exact h₀.trans hgrows
  have hentry : f'.block.entryStack = f.block.entryStack := by rw [hg.block]
  refine ⟨?_, h.depth, fun hu hb => ?_⟩
  · have hcells : f'.block.tape.cells = f'.block.tape.read.reverse := by
      simp [Tape.cells, h.unread]
    rw [Block.exitStack, hcells, List.getLast?_reverse]
    cases hr : f'.block.tape.read with
    | nil =>
        have hnil : f.block.tape.instructions = [] := by
          rw [← hg.instructions, Tape.instructions, hcells, hr]
          rfl
        simp only [List.head?_nil, Option.map_none, Option.getD_none]
        rw [hentry, h.stays hnil]
        exact hs.symm
    | cons c cs => exact h.last c (by simp [hr])
  · have hstack : ∀ e ∈ f.stack, Q e := by
      rw [hs]
      exact hb.entryStack
    obtain ⟨hf₁, ht⟩ := h.holds hu ⟨hstack, hb.statements⟩ hb.tape.rewind
    exact ⟨hf₁.statements, ht, by rw [hentry]; exact hb.entryStack⟩

end Lift

end ScriptLift
