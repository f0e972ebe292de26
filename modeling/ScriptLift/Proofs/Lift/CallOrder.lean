import Mathlib
import ScriptLift.Proofs.Lift.Moments
import ScriptLift.Proofs.Lift.StraightLine

/-!
# Which calls are made, and in which order

A call with a result waits on the operand stack, inside a value, until something takes the value.
So the calls of a run are in two places: those *made* stand in the statements, and those *pending*
in the values on the stack.  An instruction takes the calls of its statement from the top of the
stack, its own call last, and leaves the others pending (`Lift.accounts_step`).

So nothing is lost or made twice, as long as no value with a call in it is copied, or dropped
without being a call itself (`Moment.KeepsCalls`).  The order is another matter: a statement is
emitted at once, and the calls that are pending below come only later.  It is kept if a statement
with a call in it is only emitted when none is pending (`Moment.InTurn`).
-/

namespace ScriptLift

/-! ### Calls in expressions -/

/-- What is called: the name, the number of arguments, and the type of the result. -/
structure Signature where
  name : String
  args : Nat
  type : DataType
  deriving DecidableEq

namespace Expr

mutual

/-- The calls that evaluating an expression makes: from left to right, the arguments before the
call. -/
def calls : Expr → List Signature
  | literal .. => []
  | var _ => []
  | binary l _ r _ => l.calls ++ r.calls
  | unary _ e _ => e.calls
  | call name args type => callsAll args ++ [⟨name, args.length, type⟩]

/-- The calls in several expressions. -/
def callsAll : List Expr → List Signature
  | [] => []
  | e :: es => e.calls ++ callsAll es

end

/-- Expressions one behind the other make their calls in turn. -/
@[simp]
theorem callsAll_append (es es' : List Expr) :
    callsAll (es ++ es') = callsAll es ++ callsAll es' := by
  induction es with
  | nil => rfl
  | cons e es ih => rw [List.cons_append, callsAll, callsAll, ih, List.append_assoc]

theorem callsAll_singleton (e : Expr) : callsAll [e] = e.calls :=
  List.append_nil _

end Expr

/-- The calls that carrying out a statement makes. -/
def Stmt.calls (s : Stmt) : List Signature :=
  Expr.callsAll s.exprs

/-- The calls that the statements make, from top to bottom. -/
def callsIn (ss : List Stmt) : List Signature :=
  ss.flatMap Stmt.calls

@[simp]
theorem callsIn_nil : callsIn [] = [] :=
  rfl

/-- Statements further down make their calls later. -/
@[simp]
theorem callsIn_append (ss ss' : List Stmt) : callsIn (ss ++ ss') = callsIn ss ++ callsIn ss' :=
  List.flatMap_append

@[simp]
theorem callsIn_singleton (s : Stmt) : callsIn [s] = s.calls :=
  List.append_nil _

/-! ### Calls in code -/

namespace Program

/-- The call that an operation makes, if it makes one.  There is none to a routine that is not
known. -/
def operationCall? (p : Program) (o : Opcode) (operands : Operands) : Option Signature :=
  match o, operands with
  | .native, .native args returns hash name resultType =>
    some ⟨(givenName? (name.map (·.text))).getD ("native_0x" ++ Text.hex 16 hash), args.toNat,
      if returns = 0 then .void else .ofName? resultType⟩
  | .call, .call target => (p.callee? target).map fun callee => ⟨callee.name, callee.args, .unknown⟩
  | _, _ => none

/-- The call that an instruction makes, if it makes one. -/
def called? (p : Program) (i : Instruction) : Option Signature :=
  match i.kind with
  | .op o => if p.handled.contains o then p.operationCall? o i.operands else none
  | .other _ => none

/-- The calls that instructions make, in order. -/
def calledBy (p : Program) (is : List Instruction) : List Signature :=
  is.filterMap p.called?

theorem calledBy_append (p : Program) (is is' : List Instruction) :
    p.calledBy (is ++ is') = p.calledBy is ++ p.calledBy is' :=
  List.filterMap_append

theorem calledBy_singleton (p : Program) (i : Instruction) :
    p.calledBy [i] = (p.called? i).toList := by
  rw [calledBy]
  cases h : p.called? i <;> simp [h]

/-- What instructions call depends on the tables of a program only. -/
theorem SameTables.calledBy {p p' : Program} (h : p.SameTables p') : p'.calledBy = p.calledBy := by
  funext is
  unfold Program.calledBy called? operationCall?
  simp only [h.handled, h.callee?]

end Program

/-! ### Calls on the stack -/

namespace OperandStack

/-- The calls in the values on the stack, deepest first. -/
def pending (st : OperandStack) : List Signature :=
  Expr.callsAll st.reverse

/-- What is pushed makes its calls last. -/
@[simp]
theorem pending_cons (e : Expr) (st : OperandStack) :
    pending (e :: st) = pending st ++ e.calls := by
  rw [pending, pending, List.reverse_cons, Expr.callsAll_append, Expr.callsAll_singleton]

/-- The value taken had the last of the pending calls. -/
theorem pending_pop (st : OperandStack) : pending st.pop.2.1 ++ st.pop.1.calls = pending st := by
  cases st with
  | nil => rfl
  | cons e st => exact (pending_cons e st).symm

/-- Values are taken in the order they were pushed. -/
theorem pending_popMany (n : Nat) (st : OperandStack) :
    pending (st.popMany n).2.1 ++ Expr.callsAll (st.popMany n).1 = pending st := by
  induction n generalizing st with
  | zero => exact List.append_nil _
  | succ n ih =>
      simp only [popMany, Expr.callsAll_append, Expr.callsAll_singleton]
      rw [← List.append_assoc, ih, pending_pop]

end OperandStack

/-! ### Accounts -/

/-- From `f` on statements have been emitted.  The calls that were pending or are new are now in
them or pending, those in the statements being the last. -/
def Frame.Accounts (f f' : Frame) (new : List Signature) : Prop :=
  ∃ ss, f'.block.statements = f.block.statements ++ ss ∧
    f.stack.pending ++ new = f'.stack.pending ++ callsIn ss

namespace Lift

variable {α β : Type} {m : Lift α} {k : α → Lift β} {held : List Signature}
  {c : α → List Signature}

/-- A computation that comes to a value has emitted nothing, and the calls in its value are those
that were held before and those it has taken from the stack. -/
def Draws (m : Lift α) (held : List Signature) (c : α → List Signature) : Prop :=
  ∀ (f f' : Frame) (a : α), m.exec f = (.ok a, f') →
    f'.block.statements = f.block.statements ∧ f.stack.pending ++ held = f'.stack.pending ++ c a

/-- A computation that comes to an end leaves in statements and on the stack what was pending and
what is held. -/
def Accounts (m : Lift α) (held : List Signature) : Prop :=
  ∀ (f f' : Frame) (a : α), m.exec f = (.ok a, f') → f.Accounts f' held

/-- A computation that ends up holding nothing has put all calls back. -/
theorem Draws.accounts (h : Draws m held fun _ => []) : Accounts m held := by
  intro f f' a hexec
  obtain ⟨hss, hcalls⟩ := h f f' a hexec
  exact ⟨[], by simpa using hss, hcalls⟩

/-- What the first computation holds, the second puts into statements or back on the stack. -/
theorem Draws.bind_accounts (h : Draws m held c) (hk : ∀ a, Accounts (k a) (c a)) :
    Accounts (m >>= k) held := by
  intro f f' b hexec
  rw [exec_bind] at hexec
  cases hm : m.exec f with
  | mk v f₁ =>
    rw [hm] at hexec
    cases v with
    | error e => cases hexec
    | ok a =>
        obtain ⟨hss, hcalls⟩ := h f f₁ a hm
        obtain ⟨ss, hss', hcalls'⟩ := hk a f₁ f' b hexec
        exact ⟨ss, by rw [hss', hss], hcalls.trans hcalls'⟩

/-- What is learnt about variables and results has nothing to do with calls. -/
theorem draws_of_learns (h : ∀ f : Frame, f.Learns (m.exec f).2) : Draws m held fun _ => held := by
  intro f f' a hexec
  have hf := h f
  rw [hexec] at hf
  exact ⟨by rw [hf.block], by rw [hf.stack]⟩

theorem draws_pure (a : α) : Draws (pure a : Lift α) held fun _ => held :=
  draws_of_learns .refl

theorem draws_get : Draws (get : Lift Frame) held fun _ => held :=
  draws_of_learns .refl

theorem draws_liftM (x : Except Fault α) : Draws (liftM x : Lift α) held fun _ => held := by
  refine draws_of_learns fun f => ?_
  rw [exec_liftM]
  exact .refl f

theorem draws_report {e : Event} (h : e.isJoin = false) : Draws (report e) held fun _ => held :=
  draws_of_learns fun f => .report f (List.forall_mem_singleton.mpr h)

theorem accounts_throw (e : Fault) : Accounts (throw e : Lift α) held := by
  intro f f' a hexec
  cases hexec

/-- Values that are taken from the stack come with their calls. -/
theorem draws_take {take : OperandStack → α × OperandStack × List Event}
    (hm : ∀ f : Frame, m.exec f = (.ok (take f.stack).1,
      { f.report (take f.stack).2.2 with stack := (take f.stack).2.1 }))
    (h : ∀ st, OperandStack.pending (take st).2.1 ++ c (take st).1 = OperandStack.pending st) :
    Draws m held fun a => c a ++ held := by
  intro f f' a hexec
  rw [hm] at hexec
  obtain ⟨hv, rfl⟩ := Prod.mk.inj hexec
  obtain rfl := Except.ok.inj hv
  exact ⟨rfl, by rw [← List.append_assoc, h]⟩

/-- Taking a value takes the calls in it off the stack, and in front of those held. -/
theorem draws_pop : Draws pop held fun e => e.calls ++ held :=
  draws_take exec_pop OperandStack.pending_pop

/-- The same for several values, the deepest first. -/
theorem draws_popMany (n : Int) : Draws (popMany n) held fun es => Expr.callsAll es ++ held :=
  draws_take (exec_popMany n) (OperandStack.pending_popMany n.toNat)

/-- The calls held are pending again, if they are those of the value pushed. -/
theorem accounts_push {e : Expr} (h : held = e.calls) : Accounts (push e) held := by
  intro f f' a hexec
  cases hexec
  exact ⟨[], by simp, by simp [h]⟩

/-- The calls held are made, if they are those of the statement. -/
theorem accounts_emit {s : Stmt} (h : held = s.calls) : Accounts (emit s) held := by
  intro f f' a hexec
  cases hexec
  exact ⟨[s], rfl, by simp [h]⟩

/-! ### Operations -/

/-- A store puts the calls of the value into the assignment. -/
theorem accounts_store (ref : Reference) : Accounts (store ref) [] := by
  refine draws_pop.bind_accounts fun value => Draws.bind_accounts
    (draws_of_learns fun f => learns_learn f ref (value.type f.typeOf)) fun _ => accounts_emit ?_
  simp [Stmt.calls, Stmt.exprs, Expr.callsAll]

theorem accounts_load (st : Storage) (i : Instruction) : Accounts (execute (.load st) i) [] :=
  (draws_of_learns (learns_locate st i)).bind_accounts fun _ => accounts_push rfl

theorem accounts_jump (i : Instruction) : Accounts (execute .jump i) [] :=
  (draws_liftM i.target).bind_accounts fun _ => accounts_emit rfl

/-- The operands are taken from the right, and their calls stay in order. -/
theorem accounts_binary (op : String) (t : DataType) : Accounts (binary op t) [] := by
  refine draws_pop.bind_accounts fun right => draws_pop.bind_accounts fun left => accounts_push ?_
  simp [Expr.calls]

/-- A call comes behind those in its arguments. -/
theorem draws_args (name : String) (n : Int) (t : DataType) :
    Draws (popMany n) [⟨name, n.toNat, t⟩] fun es => (Expr.call name es t).calls := by
  intro f f' es hexec
  have hdraws : Draws (popMany n) [⟨name, n.toNat, t⟩] _ := draws_popMany n
  obtain ⟨hss, hcalls⟩ := hdraws f f' es hexec
  have hlength : es.length = n.toNat := by
    rw [exec_popMany] at hexec
    obtain rfl := Except.ok.inj (Prod.mk.inj hexec).1
    exact OperandStack.length_popMany n.toNat f.stack
  exact ⟨hss, by rw [hcalls]; simp only [Expr.calls, hlength]⟩

/-- A call is new, and it is the last: its arguments were pending before. -/
theorem accounts_invoke (name : String) (args returns : Int) (t : DataType) :
    Accounts (invoke name args returns t) [⟨name, args.toNat, t⟩] := by
  refine (draws_args name args t).bind_accounts fun es => ?_
  have hcall : (Stmt.call (.call name es t)).calls = (Expr.call name es t).calls :=
    Expr.callsAll_singleton _
  dsimp only
  split
  · exact accounts_emit hcall.symm
  · split
    · exact (draws_report rfl).bind_accounts fun _ => accounts_push rfl
    · exact accounts_push rfl

/-- A return puts the calls of its values into the statement. -/
theorem accounts_leave (returns : Int) : Accounts (leave returns) [] := by
  have tail : Accounts (do
      let values ← popMany returns
      inferReturn returns values
      emit (.ret values)) [] := by
    refine (draws_popMany returns).bind_accounts fun values => Draws.bind_accounts
      (draws_of_learns (learns_inferReturn returns values)) fun _ => accounts_emit ?_
    exact List.append_nil _
  unfold leave
  split
  · exact (draws_of_learns (learns_inferReturn returns [])).bind_accounts fun _ => tail
  · exact tail

theorem accounts_forM_push (values : List Literal) :
    Accounts (values.forM fun v => push (.ofLiteral v)) [] := by
  induction values with
  | nil => exact (draws_pure ()).accounts
  | cons v values ih =>
      refine Draws.bind_accounts (c := fun _ => []) (fun f f' a hexec => ?_) fun _ => ih
      cases hexec
      exact ⟨rfl, by simp [Expr.ofLiteral, Expr.calls]⟩

end Lift

/-! ### One instruction -/

namespace Moment

/-- No call is copied, and none is dropped with the value it is in.  To drop the call itself is to
make it for nothing, and that is a statement. -/
def KeepsCalls (m : Moment) : Prop :=
  (m.instruction.kind = .op .dup → m.frame.stack.peek.1.calls = []) ∧
    (m.instruction.kind = .op .drop →
      m.frame.stack.pop.1.isCall = true ∨ m.frame.stack.pop.1.calls = [])

/-- No call is made in a statement while another is pending. -/
def InTurn (m : Moment) : Prop :=
  let f := ((Lift.step m.instruction).exec m.frame).2
  callsIn f.block.statements = callsIn m.frame.block.statements ∨ f.stack.pending = []

instance (m : Moment) : Decidable m.KeepsCalls :=
  inferInstanceAs (Decidable (_ ∧ _))

instance (m : Moment) : Decidable m.InTurn :=
  inferInstanceAs (Decidable (_ ∨ _))

end Moment

namespace Lift

variable {f f' : Frame} {i : Instruction}

/-- A copy makes no call twice, if the value copied makes none. -/
theorem accounts_dup (hkeeps : f.stack.peek.1.calls = [])
    (hexec : (execute .dup i).exec f = (.ok (), f')) : f.Accounts f' [] := by
  change (peek >>= push).exec f = _ at hexec
  rw [exec_bind, exec_peek] at hexec
  cases hexec
  exact ⟨[], by simp [Frame.report], by simp [hkeeps, Frame.report]⟩

/-- A value that is dropped takes no call with it, if it makes none or is the call. -/
theorem accounts_drop (hkeeps : f.stack.pop.1.isCall = true ∨ f.stack.pop.1.calls = [])
    (hexec : (execute .drop i).exec f = (.ok (), f')) : f.Accounts f' [] := by
  change (pop >>= fun e => if e.isCall then emit (.call e) else pure ()).exec f = _ at hexec
  rw [exec_bind, exec_pop] at hexec
  dsimp only at hexec
  have hpending := f.stack.pending_pop
  split at hexec
  · cases hexec
    exact ⟨[.call f.stack.pop.1], rfl, by
      simpa [Stmt.calls, Stmt.exprs, Expr.callsAll] using hpending.symm⟩
  · rename_i hcall
    cases hexec
    refine ⟨[], by simp [Frame.report], ?_⟩
    rw [hkeeps.resolve_left hcall] at hpending
    simpa using hpending.symm

/-- A call to a routine that is not known is only a comment. -/
theorem accounts_callRoutine (target : Int) (hexec : (callRoutine target).exec f = (.ok (), f')) :
    f.Accounts f' ((f.program.callee? target).map fun callee =>
      (⟨callee.name, callee.args, .unknown⟩ : Signature)).toList := by
  rw [callRoutine, exec_bind, exec_get] at hexec
  dsimp only at hexec
  cases hcallee : f.program.callee? target with
  | none =>
      rw [hcallee] at hexec
      exact (draws_report rfl).bind_accounts (fun _ => accounts_emit rfl) f f' () hexec
  | some callee =>
      rw [hcallee] at hexec
      exact accounts_invoke _ _ _ _ f f' () hexec

/-- **What an operation does to calls.** -/
theorem accounts_execute {o : Opcode} (ho : o.isConditional = false)
    (hdup : o = .dup → f.stack.peek.1.calls = [])
    (hdrop : o = .drop → f.stack.pop.1.isCall = true ∨ f.stack.pop.1.calls = [])
    (hexec : (execute o i).exec f = (.ok (), f')) :
    f.Accounts f' (f.program.operationCall? o i.operands).toList := by
  cases o with
  | nop | enter => exact (draws_pure ()).accounts f f' () hexec
  | push =>
      simp only [execute] at hexec
      split at hexec
      · exact accounts_forM_push _ f f' () hexec
      · exact accounts_throw _ f f' () hexec
  | dup => exact accounts_dup (hdup rfl) hexec
  | drop => exact accounts_drop (hdrop rfl) hexec
  | load st => exact accounts_load st i f f' () hexec
  | store st =>
      exact (draws_of_learns (learns_locate st i)).bind_accounts accounts_store f f' () hexec
  | int o | float o | intCompare r | floatCompare r => exact accounts_binary _ _ f f' () hexec
  | unary o =>
      refine draws_pop.bind_accounts (fun e => accounts_push ?_) f f' () hexec
      exact List.append_nil _
  | native =>
      simp only [execute] at hexec
      split at hexec
      · rename_i h
        rw [h]
        exact accounts_invoke _ _ _ _ f f' () hexec
      · exact accounts_throw _ f f' () hexec
  | call =>
      simp only [execute] at hexec
      split at hexec
      · rename_i h
        rw [h]
        exact accounts_callRoutine _ hexec
      · exact accounts_throw _ f f' () hexec
  | leave =>
      simp only [execute] at hexec
      split at hexec
      · exact accounts_leave _ f f' () hexec
      · exact accounts_throw _ f f' () hexec
  | jump => exact accounts_jump i f f' () hexec
  -- a branch at the end of the code forgets its condition, with the calls in it
  | jumpIfZero | compareJump r => cases ho

/-- An instruction that is not carried out makes no call. -/
theorem accounts_skip (i : Instruction) : Accounts (skip i) [] :=
  draws_get.bind_accounts fun _ => (draws_report rfl).bind_accounts fun _ => accounts_emit rfl

/-- **What an instruction does to calls.** -/
theorem accounts_step {m : Moment} (hm : m.KeepsCalls) (hc : m.instruction.isConditional = false)
    (hexec : (step m.instruction).exec m.frame = (.ok (), f')) :
    m.frame.Accounts f' (m.frame.program.called? m.instruction).toList := by
  unfold step at hexec
  unfold Program.called?
  cases hk : m.instruction.kind with
  | op o =>
      rw [hk, exec_bind, exec_get] at hexec
      dsimp only at hexec ⊢
      by_cases ho : o ∈ m.frame.program.handled
      · rw [if_pos ho] at hexec
        rw [if_pos (List.contains_iff_mem.mpr ho)]
        have hcond : o.isConditional = false := by rwa [Instruction.isConditional, hk] at hc
        exact accounts_execute hcond (fun h => hm.1 (h ▸ hk)) (fun h => hm.2 (h ▸ hk)) hexec
      · rw [if_neg ho] at hexec
        rw [if_neg (mt List.contains_iff_mem.mp ho)]
        exact accounts_skip _ _ _ () hexec
  | other name =>
      rw [hk] at hexec
      exact accounts_skip _ _ _ () hexec

end Lift

/-! ### Runs -/

/-- Between the frames the moments `h` have passed and the statements `ss` been emitted.  The calls
that were pending and those of the moments are now in the statements or pending. -/
structure Frame.Makes (f f' : Frame) (h : List Moment) (ss : List Stmt) : Prop where
  tables : f.program.SameTables f'.program
  statements : f'.block.statements = f.block.statements ++ ss
  once : (callsIn ss ++ f'.stack.pending).Perm
    (f.stack.pending ++ f.program.calledBy (h.map (·.instruction)))
  inOrder : (∀ m ∈ h, m.InTurn) →
    callsIn ss ++ f'.stack.pending = f.stack.pending ++ f.program.calledBy (h.map (·.instruction))

namespace Frame.Makes

variable {f f' f'' : Frame} {h h' : List Moment} {ss ss' : List Stmt}

/-- The tape holds no calls. -/
theorem withTape (f : Frame) (t : Tape) : f.Makes (f.withTape t) [] [] where
  tables := .refl _
  statements := (List.append_nil _).symm
  once := .of_eq (List.append_nil _).symm
  inOrder _ := (List.append_nil _).symm

/-- Between the outer frames both runs have passed. -/
theorem trans (hm : f.Makes f' h ss) (hm' : f'.Makes f'' h' ss') :
    f.Makes f'' (h ++ h') (ss ++ ss') where
  tables := hm.tables.trans hm'.tables
  statements := by rw [hm'.statements, hm.statements, List.append_assoc]
  once := by
    have hrest := (hm'.once.append_left (callsIn ss)).trans
      (.of_eq (List.append_assoc _ _ _).symm)
    have hall := hrest.trans (hm.once.append_right _)
    rw [hm.tables.calledBy] at hall
    simpa only [callsIn_append, List.map_append, Program.calledBy_append, List.append_assoc]
      using hall
  inOrder hturn := by
    have hfirst := hm.inOrder fun m hmem => hturn m (List.mem_append_left h' hmem)
    have hrest := hm'.inOrder fun m hmem => hturn m (List.mem_append_right h hmem)
    rw [callsIn_append, List.append_assoc, hrest, ← List.append_assoc, hfirst, hm.tables.calledBy,
      List.map_append, Program.calledBy_append, List.append_assoc]

end Frame.Makes

namespace Lift

variable {f f' : Frame} {h : List Moment}

/-- One moment.  In turn, its statements have all the calls there are, or none. -/
theorem makes_step {m : Moment} (hkeeps : m.KeepsCalls)
    (hstraight : m.instruction.isConditional = false)
    (hexec : (step m.instruction).exec m.frame = (.ok (), f')) :
    ∃ ss, m.frame.Makes f' [m] ss := by
  have heffect : Effect m.frame.program (fun _ => True) True (step m.instruction) _ fun _ => True :=
    effect_step Expr.hereditary_true _
  have htables := (heffect.grows m.frame (.refl _)).tables
  rw [hexec] at htables
  obtain ⟨ss, hss, hcalls⟩ := accounts_step hkeeps hstraight hexec
  rw [← Program.calledBy_singleton] at hcalls
  refine ⟨ss, htables, hss, ?_, fun hturn => ?_⟩
  · exact hcalls ▸ List.perm_append_comm
  · have hm := hturn m List.mem_cons_self
    unfold Moment.InTurn at hm
    rw [hexec] at hm
    refine Eq.trans ?_ hcalls.symm
    rcases hm with hnone | hempty
    · have hnil : callsIn ss = [] := by simpa [hss] using hnone
      rw [hnil, List.append_nil, List.nil_append]
    · rw [hempty, List.append_nil, List.nil_append]

/-- **What carrying out instructions does to calls.** -/
theorem Runs.makes (hr : Runs f h (.ok (), f')) (hkeeps : ∀ m ∈ h, m.KeepsCalls)
    (hstraight : ∀ m ∈ h, m.instruction.isConditional = false) : ∃ ss, f.Makes f' h ss := by
  generalize hout : (Except.ok (), f') = out at hr
  induction hr with
  | done t =>
      cases hout
      exact ⟨[], .withTape _ t⟩
  | ended | fault => cases hout
  | @more f f₁ t i h out hexec hrest ih =>
      obtain ⟨hkeep, hkeeps⟩ := List.forall_mem_cons.mp hkeeps
      obtain ⟨hone, hstraight⟩ := List.forall_mem_cons.mp hstraight
      obtain ⟨ss, hstep⟩ := makes_step hkeep hone hexec
      obtain ⟨ss', hmakes⟩ := ih hkeeps hstraight hout
      exact ⟨_, ((Frame.Makes.withTape f t).trans hstep).trans hmakes⟩

/-- **Calls in straight-line code.**  Code that starts and ends with an empty stack, and neither
copies a call nor drops one inside a value, makes each of its calls once; and it makes them in the
order of the instructions if each statement with a call is emitted when no other call is pending. -/
theorem runBlock_calls (hempty : f.stack = [])
    (hstraight : ∀ i ∈ f.block.tape.instructions, i.isConditional = false)
    (hexec : runBlock.exec f = (.ok (), f')) (hempty' : f'.stack = [])
    (hkeeps : ∀ m ∈ f.moments, m.KeepsCalls) :
    ∃ ss, f'.block.statements = f.block.statements ++ ss ∧
      (callsIn ss).Perm (f.program.calledBy f.block.tape.instructions) ∧
      ((∀ m ∈ f.moments, m.InTurn) →
        callsIn ss = f.program.calledBy f.block.tape.instructions) := by
  have hinstructions := Frame.instructions_moments hexec
  have hruns := f.runs_runBlock
  rw [hexec] at hruns
  obtain ⟨ss, hmakes⟩ := hruns.makes hkeeps fun m hm =>
    hstraight _ (hinstructions ▸ List.mem_map_of_mem hm)
  have honce := hmakes.once
  have horder := hmakes.inOrder
  simp only [hempty, hempty', hinstructions, OperandStack.pending, List.reverse_nil, Expr.callsAll,
    List.append_nil, List.nil_append] at honce horder
  exact ⟨ss, hmakes.statements, honce, horder⟩

/-- `B` has the result of `A` as its argument, and its own result is dropped. -/
theorem runBlock_calls_nested :
    let f := StraightLine.alone [
      ⟨0, .op .native, .native 0 1 1 (some (.ofString "A")) (some "int")⟩,
      ⟨1, .op .native, .native 1 1 2 (some (.ofString "B")) (some "int")⟩, ⟨2, .op .drop, .none⟩,
      ⟨3, .op .native, .native 0 0 3 (some (.ofString "C")) none⟩]
    ∃ ss, (runBlock.exec f).2.block.statements = [] ++ ss ∧
      callsIn ss = f.program.calledBy f.block.tape.instructions ∧
      f.program.calledBy f.block.tape.instructions
        = [⟨"A", 0, .int⟩, ⟨"B", 1, .int⟩, ⟨"C", 0, .void⟩] := by
  intro f
  have hok : (runBlock.exec f).1 = .ok () := by dsimp only [f]; cbv
  have hempty : (runBlock.exec f).2.stack = [] := by dsimp only [f]; cbv
  have hexec : runBlock.exec f = (.ok (), (runBlock.exec f).2) := Prod.ext hok rfl
  obtain ⟨ss, hss, -, horder⟩ :=
    runBlock_calls (f := f) rfl (by decide) hexec hempty (by decide +kernel)
  exact ⟨ss, hss, horder (by decide +kernel), by decide +kernel⟩

/-- The result of `A` is copied, and that of `B` is dropped inside a value.  That of `C` is pending
when `D` is called. -/
theorem runBlock_calls_misplaced :
    let f := StraightLine.alone [
      ⟨0, .op .native, .native 0 1 1 (some (.ofString "A")) (some "int")⟩,
      ⟨1, .op .dup, .none⟩, ⟨2, .op (.store .local), .slot 0⟩, ⟨3, .op (.store .local), .slot 1⟩,
      ⟨4, .op .native, .native 0 1 2 (some (.ofString "B")) (some "int")⟩,
      ⟨5, .op (.unary .intNeg), .none⟩, ⟨6, .op .drop, .none⟩,
      ⟨7, .op .native, .native 0 1 3 (some (.ofString "C")) (some "int")⟩,
      ⟨8, .op .native, .native 0 0 4 (some (.ofString "D")) none⟩,
      ⟨9, .op (.store .local), .slot 2⟩]
    let f' := (runBlock.exec f).2
    (runBlock.exec f).1 = .ok () ∧ f'.stack = [] ∧ f'.events = [] ∧
      (callsIn f'.block.statements).map (·.name) = ["A", "A", "D", "C"] ∧
      (f.program.calledBy f.block.tape.instructions).map (·.name) = ["A", "B", "C", "D"] := by
  intro f f'
  dsimp only [f', f]
  exact ⟨by cbv, by cbv, by cbv, by decide +kernel, by decide +kernel⟩

end Lift

end ScriptLift
