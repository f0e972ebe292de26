import ScriptLift.Proofs.Lift.Success
import ScriptLift.Proofs.Structured.Blocks

/-!
# Carrying out compiled code

The operations of a term push its expression (`Term.does`), those of a piece emit its statements and
leave the stack empty (`Act.does`), and so do those of a whole block (`does_blockActs`).  The
statements of a test are a branch, shaped by what stands before its target.
-/

namespace ScriptLift.Structured

open Lift

/-- Carrying out the operations takes the stack `st` to `st'` and emits `out`. -/
inductive Does (r : Routine) (ft : Option Int) :
    List Op → OperandStack → OperandStack → List Stmt → Prop where
  | nil (st : OperandStack) : Does r ft [] st st []
  | cons {x : Op} {xs : List Op} {st st₁ st₂ : OperandStack} {out out' : List Stmt} :
      (∀ a, Gives r ft (step (x.instruction a)) st () st₁ out) → Does r ft xs st₁ st₂ out' →
      Does r ft (x :: xs) st st₂ (out ++ out')

variable {r : Routine} {ft : Option Int} {st st₁ st₂ : OperandStack} {out out' : List Stmt}
  {address : Nat → Int} {k : Nat}

namespace Does

/-- Operations one behind the other. -/
theorem append {xs ys : List Op} (h : Does r ft xs st st₁ out) (h' : Does r ft ys st₁ st₂ out') :
    Does r ft (xs ++ ys) st st₂ (out ++ out') := by
  induction h with
  | nil => exact h'
  | cons hx _ ih =>
      rw [List.append_assoc]
      exact .cons hx (ih h')

theorem one {x : Op} (h : ∀ a, Gives r ft (execute x.code (x.instruction a)) st () st₁ out) :
    Does r ft [x] st st₁ out := by
  have hone : Does r ft [x] st st₁ (out ++ []) := .cons (fun a => gives_step rfl (h a)) (.nil st₁)
  rwa [List.append_nil] at hone

/-- Wherever they stand, the operations are carried out one after the other. -/
theorem carries {xs : List Op} (h : Does r ft xs st st₁ out) (address : Nat → Int) (k : Nat) :
    Carries r ft (place address k xs) st st₁ out := by
  induction h generalizing k with
  | nil st => exact .nil st
  | cons hx _ ih => exact .cons (hx (address k)) (ih (k + 1))

/-- **Operations that stand on the tape are carried out.** -/
theorem exec {xs : List Op} (h : Does r ft xs st st₁ out) {f : Frame} (hf : f.Ready r ft st)
    (hu : f.block.tape.unread.map (·.instruction) = place address k xs) :
    ∃ f', (steps xs.length).exec f = (.ok (), f') ∧ f'.Ready r ft st₁ ∧
      f'.block.statements = f.block.statements ++ out := by
  obtain ⟨f', hrun, hf'⟩ := (h.carries address k).exec hf hu
  rw [length_place] at hrun
  exact ⟨f', hrun, hf'⟩

end Does

/-! ### Terms and simple statements -/

theorem gives_locate (v : Var) (a : Int) :
    Gives r ft (locate v.storage ((⟨.load v.storage, .slot v.slot⟩ : Op).instruction a)) st
      (v.ref r.localRef) st [] := by
  cases v with
  | «local» slot => exact gives_locate_local rfl
  | static index => exact (gives_liftM rfl).bind (gives_pure _)
  | global index => exact (gives_liftM rfl).bind (gives_pure _)

namespace Term

@[simp]
theorem length_exprAll (locals : Nat → Reference) (es : List Term) :
    (exprAll locals es).length = es.length := by
  induction es with
  | nil => rfl
  | cons e es ih => simp [exprAll, ih]

mutual

/-- **The operations of a term push its expression.** -/
theorem does : ∀ (e : Term) (st : OperandStack),
    Does r ft e.ops st (e.expr r.localRef :: st) []
  | int value, st => .one fun _ => (gives_push _).bind (gives_pure ())
  | var v, st => .one fun a => (gives_locate v a).bind (gives_push _)
  | binary o left right, st => by
      refine (does left st).append ((does right _).append (.one fun _ => ?_))
      cases o <;> exact gives_binary _ _
  | unary o operand, st =>
      (does operand st).append (.one fun _ => gives_pop.bind (gives_push _))
  | native f args, st => by
      refine (doesAll args st).append (.one fun _ => ?_)
      rw [← length_exprAll r.localRef args]
      exact gives_invoke_one _ _

/-- The operations of several terms push their expressions, the last on top. -/
theorem doesAll : ∀ (es : List Term) (st : OperandStack),
    Does r ft (opsAll es) st ((exprAll r.localRef es).reverse ++ st) []
  | [], st => .nil st
  | e :: es, st => by
      have h := (does e st).append (doesAll es (e.expr r.localRef :: st))
      simpa [opsAll, exprAll] using h

end

end Term

/-- A simple statement leaves an empty stack and emits its statement. -/
theorem Simple.does (s : Simple) : Does r ft s.ops [] [] [s.stmt r.localRef] := by
  cases s with
  | store v e =>
      refine (e.does []).append (.one fun a => ?_)
      exact (gives_locate v a).bind (gives_store _)
  | call f args =>
      refine (Term.doesAll args []).append (.one fun _ => ?_)
      rw [← Term.length_exprAll r.localRef args]
      exact gives_invoke_void _ _
  | drop f args =>
      -- a call with a result, and then the result is dropped
      have hcall :
          Does r ft (Term.native f args).ops [] [(Term.native f args).expr r.localRef] [] :=
        (Term.native f args).does []
      have hdrop := hcall.append (.one (x := ⟨.drop, .none⟩) fun _ => gives_pop.bind (gives_emit _))
      simpa [Simple.ops, Simple.stmt, Term.ops, Term.expr] using hdrop

/-! ### Pieces and blocks -/

/-- The statements of a piece that ends before position `n`. -/
def Act.stmts (r : Routine) (address : Nat → Int) (n : Nat) : Act → List Stmt
  | enter _ => []
  | run s => [s.stmt r.localRef]
  | test c t =>
    [.branch (c.expr r.localRef) (address n) (some (r.elseBranch (address n) (address t)).2)
      (r.elseBranch (address n) (address t)).1]
  | jump t => [.goto (address t)]
  | ret _ result => [.ret (Term.exprAll r.localRef result.toList)]

/-- The statements of several pieces, the first of them at `k`. -/
def stmtsOf (r : Routine) (address : Nat → Int) (k : Nat) : List Act → List Stmt
  | [] => []
  | a :: as => a.stmts r address (k + a.size) ++ stmtsOf r address (k + a.size) as

/-- **The operations of a piece emit its statements**; a test needs to know what is behind it. -/
theorem Act.does {a : Act} {n : Nat}
    (hft : a.isTransfer = true → a.passes = true → ft = some (address n)) :
    Does r ft (a.ops address) [] [] (a.stmts r address n) := by
  cases a with
  | enter h => exact .one fun _ => gives_pure ()
  | run s => exact s.does
  | test c t =>
      obtain rfl := hft rfl rfl
      refine (c.does []).append (.one fun _ => ?_)
      exact gives_pop.bind (gives_branch rfl _)
  | jump t => exact .one fun _ => (gives_liftM rfl).bind (gives_emit _)
  | ret args result =>
      have hlen : (Term.exprAll r.localRef result.toList).length ≤ 1 := by
        cases result <;> simp
      refine (Term.doesAll result.toList []).append (.one fun _ => ?_)
      rw [← Term.length_exprAll r.localRef result.toList]
      exact gives_leave hlen

/-- **The operations of a block emit the statements of its pieces**, if it falls through where its
last piece does. -/
theorem does_blockActs {leaders : List Int} {as : List Act}
    (hft : ∀ init a, blockActs address leaders k as = init ++ [a] → a.passes = true →
      ft = some (address (k + totalSize (blockActs address leaders k as)))) :
    Does r ft (opsOf address (blockActs address leaders k as)) [] []
      (stmtsOf r address k (blockActs address leaders k as)) := by
  induction as generalizing k with
  | nil => exact .nil []
  | cons a as ih =>
      rw [blockActs] at hft ⊢
      split at hft
      · rename_i hstop
        rw [if_pos hstop, opsOf_cons]
        refine Does.append (Act.does fun _ hp => ?_) (.nil [])
        simpa using hft [] a rfl hp
      · rename_i hgo
        rw [if_neg hgo, opsOf_cons]
        -- only the last piece of a block may be a test
        refine Does.append (Act.does fun ht _ => absurd (by simp [ht]) hgo)
          (ih fun init b hb hp => ?_)
        rw [hft (a :: init) b (by rw [hb]; rfl) hp, totalSize_cons, Nat.add_assoc]

end ScriptLift.Structured
