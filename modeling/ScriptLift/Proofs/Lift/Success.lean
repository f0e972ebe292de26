import ScriptLift.Proofs.Lift.Ending
import ScriptLift.Proofs.OperandStack

/-!
# Computations that come to a value

What a computation on a frame gives when nothing goes wrong: `Lift.Gives r ft m st a st' out` says
that from the stack `st` the computation `m` comes to the value `a`, leaves the stack `st'` and
emits `out`.  It may rely on the names that the variables of `r` have, which no computation changes
(`Routine.SameNames`): what is learnt about a variable is its type, and a local made up on first use
gets the name that its slot had all along.
-/

namespace ScriptLift

namespace Routine

/-- The variable in a slot. -/
def localRef (r : Routine) (n : Nat) : Reference :=
  if n < r.inputs.length then ⟨.input n, (r.inputs[n]?.getD default).name⟩
  else
    ⟨.auto (n - r.inputs.length),
      ((r.locals[n - r.inputs.length]?).map (·.name)).getD ("local_" ++ toString n)⟩

/-- Every slot holds the same variable. -/
structure SameNames (r r' : Routine) : Prop where
  inputs : r'.inputs.length = r.inputs.length
  slots : ∀ n, r'.localRef n = r.localRef n

variable {r r' r'' : Routine}

theorem SameNames.refl (r : Routine) : r.SameNames r :=
  ⟨rfl, fun _ => rfl⟩

/-- Slots keep their variables through several steps. -/
theorem SameNames.trans (h : r.SameNames r') (h' : r'.SameNames r'') : r.SameNames r'' :=
  ⟨h'.inputs.trans h.inputs, fun n => (h'.slots n).trans (h.slots n)⟩

/-- Only the names in the two lists of variables matter. -/
theorem SameNames.of_map (hi : r'.inputs.map (·.name) = r.inputs.map (·.name))
    (hl : r'.locals.map (·.name) = r.locals.map (·.name)) : r.SameNames r' := by
  have hlen : r'.inputs.length = r.inputs.length := by simpa using congrArg List.length hi
  refine ⟨hlen, fun n => ?_⟩
  have hin : (r'.inputs[n]?.map (·.name)) = r.inputs[n]?.map (·.name) := by
    rw [← List.getElem?_map, hi, List.getElem?_map]
  have hloc : ∀ p : Nat, (r'.locals[p]?.map (·.name)) = r.locals[p]?.map (·.name) := by
    intro p
    rw [← List.getElem?_map, hl, List.getElem?_map]
  rw [localRef, localRef, hlen, hloc]
  split
  · rename_i hn
    rw [List.getElem?_eq_getElem hn, List.getElem?_eq_getElem (hlen ▸ hn)] at hin
    simpa [hn, hlen] using hin
  · rfl

/-- A change that keeps names keeps the list of names. -/
theorem map_modify_of_name {α β : Type} (name : α → β) {g : α → α}
    (hg : ∀ x, name (g x) = name x) (xs : List α) (n : Nat) :
    (xs.modify n g).map name = xs.map name := by
  refine List.ext_getElem? fun m => ?_
  rw [List.getElem?_map, List.getElem?_map, List.getElem?_modify]
  cases xs[m]? with
  | none => rfl
  | some x => by_cases h : n = m <;> simp [h, hg]

/-- A type that is learnt is no name. -/
theorem sameNames_learn (r : Routine) (p : Place) (t : DataType) : r.SameNames (r.learn p t) := by
  cases p with
  | input n =>
      exact .of_map
        (map_modify_of_name _ (g := fun v : Variable => v.learn t) (fun _ => rfl) _ _) rfl
  | auto n =>
      exact .of_map rfl (map_modify_of_name _
        (g := fun l : Local => { l with type := l.type.refine t }) (fun _ => rfl) _ _)
  | static | global | loose => exact .refl r

/-- The locals made up on the way to a position have the names of their slots. -/
theorem name_declareLocal (r : Routine) (position p : Nat) :
    (((r.declareLocal position).locals[p]?).map (·.name)).getD
        ("local_" ++ toString (r.inputs.length + p))
      = ((r.locals[p]?).map (·.name)).getD ("local_" ++ toString (r.inputs.length + p)) := by
  have hmap : (r.declareLocal position).locals.map (·.name)
      = (r.grownLocals (position + 1)).map (·.name) :=
    map_modify_of_name _ (g := fun l : Local => { l with declared := true }) (fun _ => rfl) _ _
  rw [← List.getElem?_map, hmap, grownLocals, List.map_append, List.getElem?_append,
    List.length_map]
  split
  · rw [List.getElem?_map]
  · rename_i hp
    rw [List.getElem?_eq_none (by omega : r.locals.length ≤ p)]
    simp only [List.map_map, List.getElem?_map, Option.map_none, Option.getD_none]
    cases hx : (List.range' r.locals.length (position + 1 - r.locals.length))[p - r.locals.length]?
      with
    | none => rfl
    | some x =>
        obtain ⟨hlt, rfl⟩ := List.getElem?_eq_some_iff.mp hx
        have : r.locals.length + (p - r.locals.length) = p := by omega
        simp [placeholder, Variable.fresh, this]

/-- A local that is declared has the name that its slot stood for before. -/
theorem sameNames_declareLocal (r : Routine) (position : Nat) :
    r.SameNames (r.declareLocal position) := by
  refine ⟨rfl, fun n => ?_⟩
  have hin : (r.declareLocal position).inputs = r.inputs := rfl
  rw [localRef, localRef, hin]
  split
  · rfl
  · rename_i hn
    have := r.name_declareLocal position (n - r.inputs.length)
    rw [show r.inputs.length + (n - r.inputs.length) = n by omega] at this
    rw [this]

/-- **A slot gives its variable**, and no variable changes its name by that. -/
theorem slot_natCast (r : Routine) (n : Nat) :
    ∃ locals, r.slot n = .ok (r.localRef n, { r with locals }) ∧ r.SameNames { r with locals } := by
  by_cases hn : n < r.inputs.length
  · refine ⟨r.locals, ?_, .refl r⟩
    have hlt : (n : Int) < r.inputs.length := by exact_mod_cast hn
    have hres : resolve? r.inputs.length n = some n := by
      show (if n < r.inputs.length then some n else none) = some n
      rw [if_pos hn]
    simp [slot, hlt, hres, localRef, hn]
  · refine ⟨(r.declareLocal (n - r.inputs.length)).locals, ?_,
      r.sameNames_declareLocal (n - r.inputs.length)⟩
    have hlt : ¬ (n : Int) < r.inputs.length := by exact_mod_cast hn
    have hpos : ((n : Int) - r.inputs.length).toNat = n - r.inputs.length := by omega
    have hname := r.name_declareLocal (n - r.inputs.length) (n - r.inputs.length)
    rw [show r.inputs.length + (n - r.inputs.length) = n by omega] at hname
    have hsome : (r.declareLocal (n - r.inputs.length)).locals[n - r.inputs.length]?.isSome := by
      simp [declareLocal, grownLocals]
      omega
    obtain ⟨l, hl⟩ := Option.isSome_iff_exists.mp hsome
    rw [hl, Option.map_some, Option.getD_some] at hname
    simp only [slot, hlt, if_false, hpos, hl, Option.map_some, Option.getD_some, localRef, hn,
      hname]
    rfl

/-- A return site with no value or one is one to learn from. -/
theorem exists_inferReturn (r : Routine) {n : Nat} (h : n ≤ 1) (top : DataType) :
    ∃ out, r.inferReturn n top = .ok out := by
  obtain ⟨t, ht⟩ : ∃ t, siteType? n top = some t := by
    obtain rfl | rfl : n = 0 ∨ n = 1 := by omega
    · exact ⟨.void, rfl⟩
    · exact ⟨top, rfl⟩
  simp only [inferReturn, ht]
  split
  · exact ⟨_, rfl⟩
  split
  · exact ⟨_, rfl⟩
  split
  · exact ⟨_, rfl⟩
  · exact ⟨_, rfl⟩

end Routine

/-- The frame is one of the routine `r`, in a block that falls through to `ft`, with `stack` at
hand. -/
structure Frame.Ready (r : Routine) (ft : Option Int) (stack : OperandStack) (f : Frame) :
    Prop where
  handled : f.program.handled = Opcode.all
  code : f.routine.code = r.code
  names : r.SameNames f.routine
  fallthrough : f.block.fallthrough = ft
  stack : f.stack = stack

namespace Lift

variable {α β : Type} {r : Routine} {ft : Option Int} {st st₁ st₂ : OperandStack} {a : α} {b : β}
  {out out' : List Stmt} {e e' : Expr} {es : List Expr}

/-- From the stack `st`, the computation comes to the value `a`, leaves the stack `st'` and emits
`out`. -/
def Gives (r : Routine) (ft : Option Int) (m : Lift α) (st : OperandStack) (a : α)
    (st' : OperandStack) (out : List Stmt) : Prop :=
  ∀ f : Frame, f.Ready r ft st → ∃ f', m.exec f = (.ok a, f') ∧ f'.Ready r ft st' ∧
    f'.block.tape = f.block.tape ∧ f'.block.statements = f.block.statements ++ out

/-- The second computation starts from the stack that the first leaves. -/
theorem Gives.bind {m : Lift α} {k : α → Lift β} (h : Gives r ft m st a st₁ out)
    (hk : Gives r ft (k a) st₁ b st₂ out') : Gives r ft (m >>= k) st b st₂ (out ++ out') := by
  intro f hf
  obtain ⟨f₁, hm, hf₁, ht₁, ho₁⟩ := h f hf
  obtain ⟨f₂, hk, hf₂, ht₂, ho₂⟩ := hk f₁ hf₁
  refine ⟨f₂, by rw [exec_bind, hm]; exact hk, hf₂, ht₂.trans ht₁, ?_⟩
  rw [ho₂, ho₁, List.append_assoc]

theorem Gives.bind_nil {m : Lift α} {k : α → Lift β} (h : Gives r ft m st a st₁ [])
    (hk : Gives r ft (k a) st₁ b st₂ out) : Gives r ft (m >>= k) st b st₂ out :=
  h.bind hk

theorem gives_pure (a : α) : Gives r ft (pure a) st a st [] :=
  fun f hf => ⟨f, rfl, hf, rfl, by simp⟩

theorem gives_liftM {x : Except Fault α} (h : x = .ok a) : Gives r ft (liftM x) st a st [] :=
  fun f hf => ⟨f, by rw [exec_liftM, h], hf, rfl, by simp⟩

theorem gives_push (e : Expr) : Gives r ft (push e) st () (e :: st) [] :=
  fun f hf => ⟨{ f with stack := e :: f.stack }, rfl,
    ⟨hf.handled, hf.code, hf.names, hf.fallthrough, by rw [hf.stack]⟩, rfl, by simp⟩

/-- A value that is there is taken. -/
theorem gives_pop : Gives r ft pop (e :: st) e st [] := by
  intro f hf
  refine ⟨{ f.report [] with stack := st }, ?_,
    ⟨hf.handled, hf.code, hf.names, hf.fallthrough, rfl⟩, rfl, by simp [Frame.report]⟩
  rw [exec_pop, hf.stack]
  rfl

/-- Values that are there are taken, the deepest first. -/
theorem gives_popMany (es : List Expr) :
    Gives r ft (popMany es.length) (es.reverse ++ st) es st [] := by
  intro f hf
  refine ⟨{ f.report [] with stack := st }, ?_,
    ⟨hf.handled, hf.code, hf.names, hf.fallthrough, rfl⟩, rfl, by simp [Frame.report]⟩
  rw [exec_popMany, hf.stack, Int.toNat_natCast, ← OperandStack.pushAll_eq,
    OperandStack.popMany_pushAll]

theorem gives_emit (s : Stmt) : Gives r ft (emit s) st () st [s] :=
  fun f hf => ⟨{ f with block := f.block.emit s }, rfl,
    ⟨hf.handled, hf.code, hf.names, hf.fallthrough, hf.stack⟩, rfl, rfl⟩

/-- The variable of a slot, declared if it has to be. -/
theorem gives_locate_local {n : Nat} {i : Instruction} (h : i.operands = .slot n) :
    Gives r ft (locate .local i) st (r.localRef n) st [] := by
  have hslot : i.slot = .ok n := by rw [Instruction.slot, h]
  refine Gives.bind_nil (gives_liftM hslot) fun f hf => ?_
  obtain ⟨locals, hs, hn⟩ := f.routine.slot_natCast n
  refine ⟨{ f with routine := { f.routine with locals } }, ?_,
    ⟨hf.handled, hf.code, hf.names.trans hn, hf.fallthrough, hf.stack⟩, rfl, by simp⟩
  simp only [exec_bind, exec_get, exec_liftM, hs, exec_set, exec_pure, hf.names.slots]

/-- The value on top is assigned. -/
theorem gives_store (ref : Reference) :
    Gives r ft (store ref) (e :: st) () st [.assign ref e] := by
  refine gives_pop.bind_nil (Gives.bind_nil (a := ()) ?_ (gives_emit _))
  intro f hf
  obtain ⟨inputs, locals, hr⟩ := f.routine.learn_eq ref.place (e.type f.typeOf)
  refine ⟨f.learn ref (e.type f.typeOf), rfl, ⟨hf.handled, ?_,
    hf.names.trans (f.routine.sameNames_learn _ _), hf.fallthrough, hf.stack⟩, rfl,
    by simp [Frame.learn, Frame.report]⟩
  simp only [Frame.learn, Program.learn, hr, hf.code]

theorem gives_binary (op : String) (t : DataType) :
    Gives r ft (binary op t) (e' :: e :: st) () (.binary e op e' t :: st) [] :=
  gives_pop.bind (gives_pop.bind (gives_push _))

/-- A call without a result is a statement. -/
theorem gives_invoke_void (name : String) (t : DataType) :
    Gives r ft (invoke name es.length 0 t) (es.reverse ++ st) () st [.call (.call name es t)] :=
  (gives_popMany es).bind (gives_emit _)

/-- A call with one is pushed. -/
theorem gives_invoke_one (name : String) (t : DataType) :
    Gives r ft (invoke name es.length 1 t) (es.reverse ++ st) () (.call name es t :: st) [] :=
  (gives_popMany es).bind (gives_push _)

/-- A return of at most one value is no fault, whatever was inferred before. -/
theorem gives_inferReturn {n : Nat} (h : n ≤ 1) (values : List Expr) :
    Gives r ft (inferReturn n values) st () st [] := by
  intro f hf
  simp only [inferReturn, exec_bind, exec_get, exec_liftM]
  generalize hr : f.routine.inferReturn n _ = out
  cases out with
  | error e =>
      obtain ⟨out, hout⟩ := f.routine.exists_inferReturn h _
      rw [hout] at hr
      cases hr
  | ok out =>
      obtain ⟨r', events⟩ := out
      obtain ⟨result, rfl⟩ := inferReturn_ok hr
      exact ⟨_, rfl, ⟨hf.handled, hf.code, hf.names.trans (.of_map rfl rfl), hf.fallthrough,
        hf.stack⟩, rfl, by simp [Frame.report]⟩

/-- At most one value is given back. -/
theorem gives_leave (h : es.length ≤ 1) :
    Gives r ft (leave es.length) (es.reverse ++ st) () st [.ret es] := by
  have hn : ¬ (1 : Int) < es.length := by omega
  rw [leave, if_neg hn]
  exact (gives_popMany es).bind ((gives_inferReturn h es).bind (gives_emit _))

/-- A conditional jump in a block with a fall-through becomes a branch. -/
theorem gives_branch {i : Instruction} {n t : Int} (ht : i.branchTarget? = some t) (c : Expr) :
    Gives r (some n) (branch i c) st () st
      [.branch c n (some (r.elseBranch n t).2) (r.elseBranch n t).1] := by
  have htarget : i.target = .ok t := by rw [Instruction.target, ht]
  refine Gives.bind_nil (gives_liftM htarget) fun f hf => ?_
  simp only [exec_bind, exec_get, hf.fallthrough, Ending.elseBranch_congr hf.code, exec_emit,
    exec_modify]
  exact ⟨_, rfl, ⟨hf.handled, hf.code, hf.names, hf.fallthrough, hf.stack⟩, rfl, rfl⟩

/-- Every operation is carried out. -/
theorem exec_step {o : Opcode} {i : Instruction} {f : Frame} (hp : f.program.handled = Opcode.all)
    (hi : i.kind = .op o) : (step i).exec f = (execute o i).exec f := by
  simp [step, hi, exec_bind, hp, Opcode.mem_all]

/-- As all operations are carried out, an instruction does what its operation does. -/
theorem gives_step {o : Opcode} {i : Instruction} (hi : i.kind = .op o)
    (h : Gives r ft (execute o i) st () st₁ out) : Gives r ft (step i) st () st₁ out := by
  intro f hf
  rw [exec_step hf.handled hi]
  exact h f hf

/-! ### Runs of instructions -/

/-- The instructions are carried out one after the other. -/
inductive Carries (r : Routine) (ft : Option Int) :
    List Instruction → OperandStack → OperandStack → List Stmt → Prop where
  | nil (st : OperandStack) : Carries r ft [] st st []
  | cons {i : Instruction} {is : List Instruction} {st st₁ st₂ : OperandStack}
      {out out' : List Stmt} : Gives r ft (step i) st () st₁ out → Carries r ft is st₁ st₂ out' →
      Carries r ft (i :: is) st st₂ (out ++ out')

/-- **Instructions that stand on the tape are carried out.** -/
theorem Carries.exec {r : Routine} {ft : Option Int} {is : List Instruction}
    {st st' : OperandStack} {out : List Stmt} (h : Carries r ft is st st' out) {f : Frame}
    (hf : f.Ready r ft st) (hu : f.block.tape.unread.map (·.instruction) = is) :
    ∃ f', (steps is.length).exec f = (.ok (), f') ∧ f'.Ready r ft st' ∧
      f'.block.statements = f.block.statements ++ out := by
  induction h generalizing f with
  | nil =>
      refine ⟨_, exec_modify _ _, ⟨hf.handled, hf.code, hf.names, hf.fallthrough, hf.stack⟩, ?_⟩
      simp
  | cons hi _ ih =>
      obtain ⟨c, cs, hc, rfl, hcs⟩ := List.map_eq_cons_iff.mp hu
      obtain ⟨t, ht, htu, -⟩ := exec_next hc
      obtain ⟨f₁, hs, hf₁, htape, hout⟩ := hi (f.withTape t)
        ⟨hf.handled, hf.code, hf.names, hf.fallthrough, hf.stack⟩
      obtain ⟨f₂, hrest, hf₂, hout'⟩ := ih hf₁ (by rw [htape]; exact htu ▸ hcs)
      refine ⟨f₂, ?_, hf₂, ?_⟩
      · rw [List.length_cons, steps, exec_bind, ht]
        dsimp only
        rw [exec_bind, hs]
        exact hrest
      · rw [hout', hout, List.append_assoc]
        rfl

/-- **A block is carried out** if its instructions are. -/
theorem Carries.runBlock {f : Frame} {st : OperandStack} {out : List Stmt}
    (hp : f.program.handled = Opcode.all)
    (h : Carries f.routine f.block.fallthrough f.block.tape.instructions f.stack st out) :
    ∃ f', Lift.runBlock.exec f = (.ok (), f') ∧ f'.stack = st ∧
      f'.block.statements = f.block.statements ++ out := by
  obtain ⟨hexec, hunread⟩ := exec_runBlock f
  obtain ⟨f', hf', hready, hout⟩ :=
    h.exec (f := f.withTape f.block.tape.rewind) ⟨hp, rfl, .refl _, rfl, rfl⟩ hunread
  exact ⟨f', hexec.trans hf', hready.stack, hout⟩

end Lift

end ScriptLift
