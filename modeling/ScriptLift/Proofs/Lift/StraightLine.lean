import Mathlib.Logic.Function.Basic
import ScriptLift.Proofs.Lift.Success

/-!
# The meaning of straight-line code

Code that only pushes, computes, loads and stores runs on a machine with a stack of values and a
memory (`Meaning.run`).  The statements lifted from it are assignments, which run on a store
(`Meaning.executeAll`).  What literals and operators stand for is left open.

Lifting keeps a load on the stack as a reference to its variable and emits a store at once.  So a
value is out of date as soon as a variable it was loaded from is stored to, and the statements read
the new value where the machine has the old one.  `IsCurrent` rules that out: no value that is out
of date is stored, and none is left at the end.  Then the statements leave the memory that the
machine leaves, and the expressions on the stack have the values that are on the machine's
(`runBlock_meaning`).
-/

namespace ScriptLift

namespace StraightLine

open Lift

/-- A variable as code names it: its storage and its slot there. -/
abbrev Slot : Type :=
  Storage × Nat

/-- An operator on two values.  A comparison is written alike for whole and for floating-point
numbers, and is one operator. -/
inductive Operator where
  | int (o : IntOp)
  | float (o : FloatOp)
  | compare (r : Relation)

/-- What an instruction of straight-line code does. -/
inductive Act where
  | push (values : List Literal)
  | dup
  | drop
  | load (x : Slot)
  | store (x : Slot)
  | binary (o : Operator)
  | unary (o : UnaryOp)

/-- What an instruction does, if it is one of straight-line code. -/
def act? (i : Instruction) : Option Act :=
  match i.kind, i.operands with
  | .op .push, .push values => some (.push values)
  | .op .dup, _ => some .dup
  | .op .drop, _ => some .drop
  | .op (.load s), .slot (.ofNat n) => some (.load (s, n))
  | .op (.store s), .slot (.ofNat n) => some (.store (s, n))
  | .op (.int o), _ => some (.binary (.int o))
  | .op (.float o), _ => some (.binary (.float o))
  | .op (.intCompare r), _ => some (.binary (.compare r))
  | .op (.floatCompare r), _ => some (.binary (.compare r))
  | .op (.unary o), _ => some (.unary o)
  | _, _ => none

/-- What literals and operators stand for. -/
structure Meaning (V : Type) where
  literal : Literal → V
  binary : Operator → V → V → V
  unary : UnaryOp → V → V

variable {V : Type}

/-! ### The machine -/

/-- The stack of the machine, top first, and what its variables hold. -/
structure State (V : Type) where
  stack : List V
  memory : Slot → V

namespace Meaning

/-- The machine does one thing, unless it lacks a value for it. -/
def step (m : Meaning V) : Act → State V → Option (State V)
  | .push values, ⟨vs, mem⟩ => some ⟨(values.map m.literal).reverse ++ vs, mem⟩
  | .dup, ⟨v :: vs, mem⟩ => some ⟨v :: v :: vs, mem⟩
  | .drop, ⟨_ :: vs, mem⟩ => some ⟨vs, mem⟩
  | .load x, ⟨vs, mem⟩ => some ⟨mem x :: vs, mem⟩
  | .store x, ⟨v :: vs, mem⟩ => some ⟨vs, Function.update mem x v⟩
  | .binary o, ⟨w :: v :: vs, mem⟩ => some ⟨m.binary o v w :: vs, mem⟩
  | .unary o, ⟨v :: vs, mem⟩ => some ⟨m.unary o v :: vs, mem⟩
  | _, _ => none

/-- The machine runs straight-line code. -/
def run (m : Meaning V) : List Instruction → State V → Option (State V)
  | [], s => some s
  | i :: is, s => (act? i).bind fun a => (m.step a s).bind (m.run is)

end Meaning

/-! ### Expressions and assignments -/

namespace Operator

/-- The sign an operator is written with. -/
def symbol : Operator → String
  | int o => o.symbol
  | float o => o.symbol
  | compare r => r.symbol

/-- The type of what an operator gives. -/
def type : Operator → DataType
  | int _ => .int
  | float _ => .float
  | compare _ => .bool

/-- The operator that is written with a symbol and gives a result of a type. -/
def read? : String → DataType → Option Operator
  | "+", .int => some (.int .add)
  | "-", .int => some (.int .sub)
  | "*", .int => some (.int .mul)
  | "/", .int => some (.int .div)
  | "%", .int => some (.int .mod)
  | "&", .int => some (.int .and)
  | "|", .int => some (.int .or)
  | "^", .int => some (.int .xor)
  | "+", .float => some (.float .add)
  | "-", .float => some (.float .sub)
  | "*", .float => some (.float .mul)
  | "/", .float => some (.float .div)
  | "%", .float => some (.float .mod)
  | "==", .bool => some (.compare .eq)
  | "!=", .bool => some (.compare .ne)
  | ">", .bool => some (.compare .gt)
  | ">=", .bool => some (.compare .ge)
  | "<", .bool => some (.compare .lt)
  | "<=", .bool => some (.compare .le)
  | _, _ => none

/-- The sign and the type together tell the operator. -/
theorem read?_symbol (o : Operator) : read? o.symbol o.type = some o := by
  cases o with
  | int o => cases o <;> rfl
  | float o => cases o <;> rfl
  | compare r => cases r <;> rfl

end Operator

/-- The operation on one operand that is written with a symbol and gives a result of a type. -/
def readUnary? : String → DataType → Option UnaryOp
  | "!", .bool => some .intNot
  | "-", .int => some .intNeg
  | "-", .float => some .floatNeg
  | "(float)", .float => some .toFloat
  | "(int)", .int => some .toInt
  | _, _ => none

theorem readUnary?_symbol (o : UnaryOp) : readUnary? o.symbol o.type = some o := by
  cases o <;> rfl

namespace Meaning

/-- The value of an expression in a store.  A call has none. -/
def eval (m : Meaning V) (σ : Place → V) : Expr → Option V
  | .literal v _ _ => some (m.literal v)
  | .var ref => some (σ ref.place)
  | .binary left op right type =>
    (Operator.read? op type).bind fun o =>
      (m.eval σ left).bind fun v => (m.eval σ right).map fun w => m.binary o v w
  | .unary op operand type =>
    (readUnary? op type).bind fun o => (m.eval σ operand).map fun v => m.unary o v
  | .call .. => none

/-- The store after a statement, which has to be an assignment. -/
def execute (m : Meaning V) (σ : Place → V) : Stmt → Option (Place → V)
  | .assign ref e => (m.eval σ e).map fun v => Function.update σ ref.place v
  | _ => none

/-- The store after several statements. -/
def executeAll (m : Meaning V) : List Stmt → (Place → V) → Option (Place → V)
  | [], σ => some σ
  | s :: ss, σ => (m.execute σ s).bind (m.executeAll ss)

/-- Statements further down start in the store that those above leave. -/
theorem executeAll_append (m : Meaning V) (ss ts : List Stmt) (σ : Place → V) :
    m.executeAll (ss ++ ts) σ = (m.executeAll ss σ).bind (m.executeAll ts) := by
  induction ss generalizing σ with
  | nil => rfl
  | cons s ss ih =>
      simp only [List.cons_append, executeAll]
      cases m.execute σ s with
      | none => rfl
      | some σ' => exact ih σ'

end Meaning

/-- The reference that lifting makes to a variable. -/
def refTo (r : Routine) : Slot → Reference
  | (.local, n) => r.localRef n
  | (.static, n) => .static n
  | (.global, n) => .global n

/-- What the variables that code can name hold in a store. -/
def memory (r : Routine) (σ : Place → V) : Slot → V :=
  fun x => σ (refTo r x).place

/-- **Different variables are at different places.** -/
theorem place_refTo_injective (r : Routine) : Function.Injective fun x => (refTo r x).place := by
  rintro ⟨s, n⟩ ⟨s', n'⟩ h
  have hlocal : ∀ n, (r.localRef n).place
      = if n < r.inputs.length then .input n else .auto (n - r.inputs.length) := by
    intro n
    unfold Routine.localRef
    split <;> rfl
  cases s <;> cases s' <;>
    simp only [refTo, Reference.static, Reference.global, hlocal, Place.static.injEq,
      Place.global.injEq, Int.natCast_inj] at h
  case «local».«local» =>
    have : n = n' := by
      split at h <;> split at h <;> simp only [Place.input.injEq, Place.auto.injEq, reduceCtorEq]
        at h <;> omega
    rw [this]
  case static.static | global.global => rw [h]
  all_goals first | cases h | (split at h <;> cases h)

/-- To store into a place changes one variable. -/
theorem memory_update (r : Routine) (σ : Place → V) (x : Slot) (v : V) :
    memory r (Function.update σ (refTo r x).place v) = Function.update (memory r σ) x v := by
  funext y
  by_cases h : y = x
  · subst h
    simp [memory]
  · have hne : (refTo r y).place ≠ (refTo r x).place := fun e => h (place_refTo_injective r e)
    simp [memory, h, hne]

/-! ### What lifting does -/

/-- What becomes of the operand stack, and what is emitted. -/
def lifted (r : Routine) : Act → OperandStack → Option (OperandStack × List Stmt)
  | .push values, st => some ((values.map Expr.ofLiteral).reverse ++ st, [])
  | .dup, e :: st => some (e :: e :: st, [])
  | .drop, e :: st => some (st, if e.isCall then [.call e] else [])
  | .load x, st => some (.var (refTo r x) :: st, [])
  | .store x, e :: st => some (st, [.assign (refTo r x) e])
  | .binary o, e' :: e :: st => some (.binary e o.symbol e' o.type :: st, [])
  | .unary o, e :: st => some (.unary o.symbol e o.type :: st, [])
  | _, _ => none

variable {r : Routine} {ft : Option Int} {i : Instruction} {a : Act} {st st' : OperandStack}
  {out : List Stmt}

theorem gives_forM_push (values : List Literal) :
    Gives r ft (values.forM fun v => push (.ofLiteral v)) st ()
      ((values.map Expr.ofLiteral).reverse ++ st) [] := by
  induction values generalizing st with
  | nil => exact gives_pure ()
  | cons v values ih =>
      simpa using (gives_push (.ofLiteral v)).bind ih

theorem gives_peek {e : Expr} : Gives r ft peek (e :: st) e (e :: st) [] := by
  intro f hf
  refine ⟨f.report [], ?_, ⟨hf.handled, hf.code, hf.names, hf.fallthrough, hf.stack⟩, rfl,
    by simp [Frame.report]⟩
  rw [exec_peek, hf.stack]
  rfl

/-- The variable that an instruction names, in any storage. -/
theorem gives_locate {x : Slot} (h : i.operands = .slot x.2) :
    Gives r ft (locate x.1 i) st (refTo r x) st [] := by
  have hslot : i.slot = .ok x.2 := by rw [Instruction.slot, h]
  obtain ⟨s, n⟩ := x
  cases s with
  | «local» => exact gives_locate_local h
  | static => exact (gives_liftM hslot).bind (gives_pure _)
  | global => exact (gives_liftM hslot).bind (gives_pure _)

/-- **Lifting an instruction does to the operand stack what the instruction calls for.** -/
theorem gives_act (hi : act? i = some a) (h : lifted r a st = some (st', out)) :
    Gives r ft (step i) st () st' out := by
  obtain ⟨address, kind, operands⟩ := i
  cases kind with
  | other name => simp [act?] at hi
  | op o =>
      refine gives_step rfl ?_
      cases o with
      | push =>
          cases operands <;> simp only [act?, Option.some.injEq, reduceCtorEq] at hi
          subst hi
          cases h
          exact gives_forM_push _
      | dup =>
          cases hi
          cases st with
          | nil => cases h
          | cons e st =>
              cases h
              exact gives_peek.bind (gives_push e)
      | drop =>
          cases hi
          cases st with
          | nil => cases h
          | cons e st =>
              cases h
              refine gives_pop.bind_nil ?_
              split
              · exact gives_emit _
              · exact gives_pure ()
      | load s =>
          cases operands with
          | slot n =>
              cases n with
              | ofNat n =>
                  cases hi
                  cases h
                  exact (gives_locate (x := (s, n)) rfl).bind (gives_push _)
              | negSucc n => cases hi
          | _ => cases hi
      | store s =>
          cases operands with
          | slot n =>
              cases n with
              | ofNat n =>
                  cases hi
                  cases st with
                  | nil => cases h
                  | cons e st =>
                      cases h
                      exact (gives_locate (x := (s, n)) rfl).bind (gives_store _)
              | negSucc n => cases hi
          | _ => cases hi
      | int _ | float _ | intCompare _ | floatCompare _ =>
          cases hi
          rcases st with _ | ⟨e', _ | ⟨e, st⟩⟩
          · cases h
          · cases h
          · cases h
            exact gives_binary _ _
      | unary o =>
          cases hi
          cases st with
          | nil => cases h
          | cons e st =>
              cases h
              exact gives_pop.bind (gives_push _)
      | nop | native | call | enter | leave | jump | jumpIfZero | compareJump _ => cases hi

/-! ### Values that are out of date -/

/-- What is known of a value on the stack: the variables that it was computed from, or nothing if
one of them has been stored to since. -/
abbrev Mark : Type :=
  Option (List Slot)

/-- What becomes of the marks.  A value that is out of date cannot be stored, and a store puts every
value out of date that was computed from the variable. -/
def mark : Act → List Mark → Option (List Mark)
  | .push values, ks => some ((values.map fun _ => some []).reverse ++ ks)
  | .dup, k :: ks => some (k :: k :: ks)
  | .drop, _ :: ks => some ks
  | .load x, ks => some (some [x] :: ks)
  | .store x, some _ :: ks => some (ks.map fun k => k.filter fun xs => x ∉ xs)
  | .binary _, l :: k :: ks => some ((k.bind fun xs => l.map fun ys => xs ++ ys) :: ks)
  | .unary _, k :: ks => some (k :: ks)
  | _, _ => none

/-- The marks behind several instructions. -/
def marks : List Instruction → List Mark → Option (List Mark)
  | [], ks => some ks
  | i :: is, ks => (act? i).bind fun a => (mark a ks).bind (marks is)

/-- No value that is out of date is stored, and none is left at the end. -/
def IsCurrent (is : List Instruction) : Bool :=
  (marks is []).any fun ks => ks.all (·.isSome)

/-- An expression that is not out of date has its value as long as the variables marked keep
theirs. -/
def Stands (m : Meaning V) (r : Routine) (σ : Place → V) (e : Expr) (v : V) : Mark → Prop
  | none => True
  | some xs => ∀ σ' : Place → V, (∀ x ∈ xs, memory r σ' x = memory r σ x) → m.eval σ' e = some v

/-- The expressions on the operand stack, the values on the machine's stack, and the marks. -/
inductive Matches (m : Meaning V) (r : Routine) (σ : Place → V) :
    OperandStack → List V → List Mark → Prop where
  | nil : Matches m r σ [] [] []
  | cons {e : Expr} {v : V} {k : Mark} {st : OperandStack} {vs : List V} {ks : List Mark} :
      e.isCall = false → Stands m r σ e v k → Matches m r σ st vs ks →
      Matches m r σ (e :: st) (v :: vs) (k :: ks)

variable {m : Meaning V} {σ : Place → V} {e : Expr} {v : V} {k : Mark} {vs : List V}
  {ks : List Mark}

theorem Stands.eval {xs : List Slot} (h : Stands m r σ e v (some xs)) : m.eval σ e = some v :=
  h σ fun _ _ => rfl

/-- An expression of two that are current is current, and marked with the variables of both. -/
theorem Stands.binary {e' : Expr} {w : V} {l : Mark} (h : Stands m r σ e v k)
    (h' : Stands m r σ e' w l) (o : Operator) :
    Stands m r σ (.binary e o.symbol e' o.type) (m.binary o v w)
      (k.bind fun xs => l.map fun ys => xs ++ ys) := by
  cases k with
  | none => trivial
  | some xs =>
      cases l with
      | none => trivial
      | some ys =>
          intro σ' hσ'
          have hv := h σ' fun x hx => hσ' x (List.mem_append_left ys hx)
          have hw := h' σ' fun x hx => hσ' x (List.mem_append_right xs hx)
          simp [Meaning.eval, Operator.read?_symbol, hv, hw]

theorem Stands.unary (h : Stands m r σ e v k) (o : UnaryOp) :
    Stands m r σ (.unary o.symbol e o.type) (m.unary o v) k := by
  cases k with
  | none => trivial
  | some xs =>
      intro σ' hσ'
      simp [Meaning.eval, readUnary?_symbol, h σ' hσ']

/-- A store to a variable leaves the values that were not computed from it. -/
theorem Stands.store (h : Stands m r σ e v k) (x : Slot) (w : V) :
    Stands m r (Function.update σ (refTo r x).place w) e v (k.filter fun xs => x ∉ xs) := by
  cases k with
  | none => trivial
  | some xs =>
      by_cases hx : x ∈ xs
      · simp [Option.filter, hx, Stands]
      · have hk : (some xs).filter (fun xs => decide (x ∉ xs)) = some xs := by
          simp [Option.filter, hx]
        rw [hk]
        intro σ' hσ'
        refine h σ' fun y hy => ?_
        rw [hσ' y hy, memory_update, Function.update_of_ne]
        rintro rfl
        exact hx hy

/-- After a store, the values computed from the variable are out of date, and the others hold. -/
theorem Matches.store (h : Matches m r σ st vs ks) (x : Slot) (w : V) :
    Matches m r (Function.update σ (refTo r x).place w) st vs
      (ks.map fun k => k.filter fun xs => x ∉ xs) := by
  induction h with
  | nil => exact .nil
  | cons hc hs _ ih => exact .cons hc (hs.store x w) ih

/-- Constants are never out of date. -/
theorem Matches.push (h : Matches m r σ st vs ks) (values : List Literal) :
    Matches m r σ ((values.map Expr.ofLiteral).reverse ++ st)
      ((values.map m.literal).reverse ++ vs) ((values.map fun _ => some []).reverse ++ ks) := by
  induction values generalizing st vs ks with
  | nil => exact h
  | cons value values ih =>
      have hv : Stands m r σ (.ofLiteral value) (m.literal value) (some []) := fun _ _ => rfl
      simpa using ih (h.cons rfl hv)

/-- If no mark is lost, the expressions on the stack have the values of the machine. -/
theorem Matches.eval (h : Matches m r σ st vs ks) (hk : ∀ k ∈ ks, k.isSome) :
    st.map (m.eval σ) = vs.map some := by
  induction h with
  | nil => rfl
  | @cons e v k st vs ks _ hs _ ih =>
      obtain ⟨xs, rfl⟩ := Option.isSome_iff_exists.mp (hk k (by simp))
      rw [List.map_cons, List.map_cons, hs.eval, ih fun k hk' => hk k (by simp [hk'])]

/-- **One instruction**: the machine's memory stays what the store says it is, and the values what
the expressions stand for. -/
theorem Matches.step {s s' : State V} {ks' : List Mark} (h : Matches m r σ st s.stack ks)
    (hmem : s.memory = memory r σ) (hs : m.step a s = some s') (hk : mark a ks = some ks') :
    ∃ st' out σ', lifted r a st = some (st', out) ∧ m.executeAll out σ = some σ' ∧
      s'.memory = memory r σ' ∧ Matches m r σ' st' s'.stack ks' := by
  obtain ⟨vs, mem⟩ := s
  obtain rfl : mem = memory r σ := hmem
  cases a with
  | push values =>
      cases hs
      cases hk
      exact ⟨_, _, σ, rfl, rfl, rfl, h.push values⟩
  | dup =>
      cases h with
      | nil => cases hs
      | cons hc he hrest =>
          cases hs
          cases hk
          exact ⟨_, _, σ, rfl, rfl, rfl, .cons hc he (.cons hc he hrest)⟩
  | drop =>
      cases h with
      | nil => cases hs
      | cons hc he hrest =>
          cases hs
          cases hk
          exact ⟨_, _, σ, by rw [lifted, hc], rfl, rfl, hrest⟩
  | load x =>
      cases hs
      cases hk
      -- the variable is marked, so it has the value it has now as long as the mark stands
      refine ⟨_, _, σ, rfl, rfl, rfl, .cons rfl (fun σ' hσ' => ?_) h⟩
      exact congrArg some (hσ' x (by simp))
  | store x =>
      cases h with
      | nil => cases hs
      | @cons e v k st vs ks hc he hrest =>
          cases hs
          cases k with
          -- the value stored is current, or the marks would not go on
          | none => cases hk
          | some xs =>
              cases hk
              refine ⟨_, _, Function.update σ (refTo r x).place v, rfl, ?_,
                (memory_update r σ x v).symm, hrest.store x v⟩
              simp [Meaning.executeAll, Meaning.execute, he.eval]
  | binary o =>
      rcases h with _ | ⟨hc', he', _ | ⟨hc, he, hrest⟩⟩
      · cases hs
      · cases hs
      · cases hs
        cases hk
        exact ⟨_, _, σ, rfl, rfl, rfl, .cons rfl (he.binary he' o) hrest⟩
  | unary o =>
      cases h with
      | nil => cases hs
      | cons hc he hrest =>
          cases hs
          cases hk
          exact ⟨_, _, σ, rfl, rfl, rfl, .cons rfl (he.unary o) hrest⟩

/-- **Straight-line code**: as long as nothing out of date is stored, lifting follows the
machine. -/
theorem Matches.run {is : List Instruction} {s s' : State V} {ks' : List Mark}
    (h : Matches m r σ st s.stack ks) (hmem : s.memory = memory r σ)
    (hs : m.run is s = some s') (hk : marks is ks = some ks') :
    ∃ st' out σ', Carries r ft is st st' out ∧ m.executeAll out σ = some σ' ∧
      s'.memory = memory r σ' ∧ Matches m r σ' st' s'.stack ks' := by
  induction is generalizing s σ st ks with
  | nil =>
      cases hs
      cases hk
      exact ⟨st, [], σ, .nil st, rfl, hmem, h⟩
  | cons i is ih =>
      obtain ⟨a, ha, hs⟩ := Option.bind_eq_some_iff.mp hs
      obtain ⟨s₁, hs₁, hs⟩ := Option.bind_eq_some_iff.mp hs
      rw [marks, ha, Option.bind_some] at hk
      obtain ⟨ks₁, hk₁, hk⟩ := Option.bind_eq_some_iff.mp hk
      obtain ⟨st₁, out₁, σ₁, hl, hx₁, hmem₁, h₁⟩ := h.step hmem hs₁ hk₁
      obtain ⟨st₂, out₂, σ₂, hc, hx₂, hmem₂, h₂⟩ := ih h₁ hmem₁ hs hk
      refine ⟨st₂, out₁ ++ out₂, σ₂, .cons (gives_act ha hl) hc, ?_, hmem₂, h₂⟩
      rw [Meaning.executeAll_append, hx₁, Option.bind_some, hx₂]

/-- **Lifting straight-line code keeps its meaning.**  If the machine runs the instructions of a
block from an empty stack, and no value that is out of date is stored or left at the end, then
carrying out the block emits assignments that take the store to one with the machine's memory, in
which the expressions left on the operand stack have the values left on the machine's. -/
theorem runBlock_meaning (m : Meaning V) (σ : Place → V) {f : Frame} {s : State V}
    (hp : f.program.handled = Opcode.all) (hst : f.stack = [])
    (hrun : m.run f.block.tape.instructions ⟨[], memory f.routine σ⟩ = some s)
    (hcur : IsCurrent f.block.tape.instructions = true) :
    ∃ f' out σ', runBlock.exec f = (.ok (), f') ∧
      f'.block.statements = f.block.statements ++ out ∧ m.executeAll out σ = some σ' ∧
      memory f.routine σ' = s.memory ∧ f'.stack.map (m.eval σ') = s.stack.map some := by
  obtain ⟨ks, hk, hall⟩ := (Option.any_eq_true _ _).mp hcur
  obtain ⟨st', out, σ', hc, hx, hmem, hmatch⟩ :=
    Matches.run (r := f.routine) (s := ⟨[], memory f.routine σ⟩) .nil rfl hrun hk
  obtain ⟨f', hf', rfl, hout⟩ := Carries.runBlock hp (hst ▸ hc)
  exact ⟨f', out, σ', hf', hout, hx, hmem.symm, hmatch.eval (by simpa using hall)⟩

/-- Code on its own, about to be carried out. -/
def alone (code : List Instruction) : Frame where
  program := { name := "alone", code }
  routine := { name := "alone", address := 0, code }
  block := { start := 0, tape := .ofList code }
  stack := []
  events := []

/-- Whole numbers, of which only sums are computed. -/
def sums : Meaning Int where
  literal
    | .int n => n
    | _ => 0
  binary
    | .int .add, v, w => v + w
    | _, _, _ => 0
  unary _ _ := 0

/-- One value is stored twice, and one is left. -/
theorem runBlock_meaning_dup :
    let f := alone [⟨0, .op (.load .static), .slot 3⟩, ⟨1, .op .push, .push [.int 1, .int 2]⟩,
      ⟨2, .op (.int .add), .none⟩, ⟨3, .op .dup, .none⟩, ⟨4, .op (.store .local), .slot 0⟩,
      ⟨5, .op (.store .global), .slot 0⟩]
    ∃ f' out σ', runBlock.exec f = (.ok (), f') ∧ f'.block.statements = [] ++ out ∧
      sums.executeAll out (fun _ => 7) = some σ' ∧
      memory f.routine σ'
        = Function.update (Function.update (fun _ => 7) (.local, 0) 3) (.global, 0) 3 ∧
      f'.stack.map (sums.eval σ') = [some 7] := by
  intro f
  exact runBlock_meaning (f := f) sums (fun _ => 7) rfl rfl rfl (by decide)

/-- A value is loaded, its variable is stored to, and then the value is stored.  The machine stores
the old value, and the statements store the new one. -/
theorem runBlock_reads_new_value :
    let f := alone [⟨0, .op (.load .local), .slot 0⟩, ⟨1, .op .push, .push [.int 5]⟩,
      ⟨2, .op (.store .local), .slot 0⟩, ⟨3, .op (.store .local), .slot 1⟩]
    ∃ s f' σ', sums.run f.block.tape.instructions ⟨[], memory f.routine fun _ => 0⟩ = some s ∧
      runBlock.exec f = (.ok (), f') ∧
      sums.executeAll f'.block.statements (fun _ => 0) = some σ' ∧
      s.memory (.local, 1) = 0 ∧ memory f.routine σ' (.local, 1) = 5 := by
  intro f
  have hc : Carries f.routine none f.block.tape.instructions [] [] _ :=
    .cons (gives_act rfl rfl) (.cons (gives_act rfl rfl) (.cons (gives_act rfl rfl)
      (.cons (gives_act rfl rfl) (.nil []))))
  obtain ⟨f', hf', -, hout⟩ := Carries.runBlock (f := f) rfl hc
  exact ⟨_, f', _, rfl, hf', by rw [hout]; rfl, rfl, rfl⟩

end StraightLine

end ScriptLift
