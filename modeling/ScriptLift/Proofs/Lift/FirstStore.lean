import Mathlib
import ScriptLift.Proofs.Lift.Moments

/-!
# The first typed store settles a type

What is known of a place changes in one way only: a value is stored there whose type is known, while
nothing is known of the place.  So at every moment of a run a place has the first type that is known
among the one it started with and those of the values stored into it so far (`firstKnown`).

`Lift.typeOf_step` says what one instruction does to the types.  `Evolves` carries it over a run:
over the instructions of a block, the blocks of a routine and, with the places that routines share,
over the routines of a program (`Program.firstStoreWins`).
-/

namespace ScriptLift

/-! ### Types -/

/-- The first type that is known, if there is one. -/
def firstKnown (ts : List DataType) : DataType :=
  (ts.find? (· ≠ .unknown)).getD .unknown

namespace DataType

@[simp]
theorem refine_unknown (t : DataType) : t.refine .unknown = t := by
  cases t <;> rfl

/-- A type that is known is kept. -/
theorem refine_of_ne {t : DataType} (h : t ≠ .unknown) (new : DataType) : t.refine new = t := by
  cases t with
  | unknown => exact absurd rfl h
  | void | int | float | bool | string => rfl

end DataType

@[simp]
theorem firstKnown_cons_unknown (ts : List DataType) :
    firstKnown (.unknown :: ts) = firstKnown ts := by
  simp [firstKnown]

/-- A type that is known is the first one. -/
theorem firstKnown_cons_of_ne {t : DataType} (h : t ≠ .unknown) (ts : List DataType) :
    firstKnown (t :: ts) = t := by
  simp [firstKnown, h]

theorem firstKnown_singleton (t : DataType) : firstKnown [t] = t := by
  by_cases h : t = .unknown
  · rw [h]
    rfl
  · exact firstKnown_cons_of_ne h []

/-- What is learnt first can be taken together with what was known before. -/
theorem firstKnown_refine (t new : DataType) (ts : List DataType) :
    firstKnown (t.refine new :: ts) = firstKnown (t :: new :: ts) := by
  by_cases h : t = .unknown
  · rw [h, firstKnown_cons_unknown]
    rfl
  · rw [DataType.refine_of_ne h, firstKnown_cons_of_ne h, firstKnown_cons_of_ne h]

/-- What is known after some types is the start for those that follow. -/
theorem firstKnown_append (t : DataType) (ts us : List DataType) :
    firstKnown (firstKnown (t :: ts) :: us) = firstKnown (t :: (ts ++ us)) := by
  induction ts generalizing t with
  | nil => rw [firstKnown_singleton, List.nil_append]
  | cons new ts ih => rw [← firstKnown_refine, ih, firstKnown_refine, List.cons_append]

/-! ### What an instruction stores -/

/-- The place that an instruction means in the given storage, if it means one. -/
def Frame.place? (f : Frame) (s : Storage) (i : Instruction) : Option Place :=
  ((Lift.locate s i).exec f).1.toOption.map (·.place)

namespace Moment

/-- The place that the instruction stores into, if it is carried out. -/
def target? (m : Moment) : Option Place :=
  match m.instruction.kind with
  | .op (.store s) =>
    if m.frame.program.handled.contains (.store s) then m.frame.place? s m.instruction else none
  | _ => none

/-- The type that the value stored into a place has at this moment, if the instruction stores
there. -/
def storedIn? (m : Moment) (place : Place) : Option DataType :=
  if m.target? = some place then some (m.frame.stack.pop.1.type m.frame.typeOf) else none

/-- Only a store has a target. -/
theorem target?_eq_none {m : Moment} (h : ∀ s, m.instruction.kind ≠ .op (.store s)) :
    m.target? = none := by
  unfold target?
  split
  · rename_i s hk
    exact absurd hk (h s)
  · rfl

end Moment

/-! ### What an instruction does to the types -/

namespace Routine

variable {r r' : Routine}

/-- There is a variable of the routine at the place, or the place is shared. -/
def Has (r : Routine) : Place → Prop
  | .input position => position < r.inputs.length
  | .auto position => position < r.locals.length
  | _ => True

/-- A local that is made up has no type yet. -/
theorem typeOf_declareLocal (r : Routine) (shared : Typing) (position : Nat) (place : Place) :
    (r.declareLocal position).typeOf shared place = r.typeOf shared place := by
  cases place with
  | auto n =>
      simp only [typeOf, declareLocal, List.getElem?_modify, grownLocals]
      by_cases hn : n < r.locals.length
      · rw [List.getElem?_append_left hn]
        cases r.locals[n]? with
        | none => rfl
        | some l => by_cases h : position = n <;> simp [h]
      · rw [List.getElem?_append_right (Nat.le_of_not_lt hn),
          List.getElem?_eq_none (Nat.le_of_not_lt hn), List.getElem?_map]
        cases (List.range' r.locals.length (position + 1 - r.locals.length))[n - r.locals.length]?
          with
        | none => rfl
        | some k => by_cases h : position = n <;> simp [h, placeholder, Variable.fresh]
  | input | static | global | loose => rfl

/-- A local that was declared is there. -/
theorem length_declareLocal (r : Routine) (position : Nat) :
    position < (r.declareLocal position).locals.length := by
  simp [declareLocal, grownLocals]
  omega

/-- Looking up a slot leaves the types alone and comes to a variable that is there. -/
theorem slot_typeOf (shared : Typing) {n : Int} {ref : Reference} (h : r.slot n = .ok (ref, r')) :
    r'.typeOf shared = r.typeOf shared ∧ r'.Has ref.place := by
  unfold slot at h
  split at h
  · split at h
    · rename_i position hp
      cases h
      exact ⟨rfl, resolve?_lt hp⟩
    · cases h
  · cases h
    exact ⟨funext fun place => r.typeOf_declareLocal shared _ place, r.length_declareLocal _⟩

end Routine

/-- What is dropped for one place does not matter for another. -/
theorem lookup_filter_ne {p place : Place} (h : p ≠ place) (entries : List (Place × DataType)) :
    (entries.filter fun e => e.1 ≠ p).lookup place = entries.lookup place := by
  induction entries with
  | nil => rfl
  | cons e entries ih =>
      obtain ⟨q, t⟩ := e
      by_cases hq : q = p
      · have hne : (place == q) = false := by simpa [hq] using Ne.symm h
        rw [List.filter_cons_of_neg (by simpa using hq), ih, List.lookup_cons, hne]
      · rw [List.filter_cons_of_pos (by simpa using hq), List.lookup_cons, List.lookup_cons, ih]

/-- What is learnt of one place changes no other. -/
theorem Typing.get_learn (t : Typing) (p place : Place) (new : DataType) :
    (t.learn p new).get place = if p = place then (t.get place).refine new else t.get place := by
  unfold learn set
  by_cases h : p = place
  · subst h
    simp [get]
  · have hne : (place == p) = false := by simpa using Ne.symm h
    rw [if_neg h, get, List.lookup_cons, hne]
    exact congrArg (·.getD .unknown) (lookup_filter_ne h t.entries)

namespace Frame

/-- Learning a type changes that of one place. -/
theorem typeOf_learn {f : Frame} {ref : Reference} (h : f.routine.Has ref.place) (new : DataType)
    (place : Place) :
    (f.learn ref new).typeOf place
      = if ref.place = place then (f.typeOf place).refine new else f.typeOf place := by
  obtain ⟨p, name⟩ := ref
  change (f.routine.learn p new).typeOf (f.program.typing.learnShared p new) place = _
  cases p with
  | input n =>
      cases place with
      | input k =>
          have hn : n < f.routine.inputs.length := h
          by_cases hk : n = k
          · subst hk
            simp [Routine.learn, Routine.typeOf, typeOf, Program.typeOf,
              List.getElem?_eq_getElem hn, Variable.learn]
          · simp [Routine.learn, Routine.typeOf, typeOf, Program.typeOf, hk]
      | auto | static | global | loose => rfl
  | auto n =>
      cases place with
      | auto k =>
          have hn : n < f.routine.locals.length := h
          by_cases hk : n = k
          · subst hk
            simp [Routine.learn, Routine.typeOf, typeOf, Program.typeOf,
              List.getElem?_eq_getElem hn]
          · simp [Routine.learn, Routine.typeOf, typeOf, Program.typeOf, hk]
      | input | static | global | loose => rfl
  | static | global | loose =>
      cases place with
      | input | auto => rfl
      | static | global | loose => exact f.program.typing.get_learn _ _ new

end Frame

namespace Lift

variable {α β : Type} {m : Lift α} {k : α → Lift β}

/-- Whatever comes of the computation, it leaves the types of variables alone. -/
def Steady (m : Lift α) : Prop :=
  ∀ f : Frame, (m.exec f).2.typeOf = f.typeOf

/-- Two computations that leave the types alone, one behind the other. -/
theorem Steady.bind (h : Steady m) (hk : ∀ a, Steady (k a)) : Steady (m >>= k) := by
  intro f
  have hm := h f
  rw [exec_bind]
  generalize m.exec f = out at hm
  obtain ⟨v, f'⟩ := out
  cases v with
  | error e => exact hm
  | ok a => exact (hk a f').trans hm

theorem steady_pure (a : α) : Steady (pure a : Lift α) :=
  fun _ => rfl

theorem steady_throw (e : Fault) : Steady (throw e : Lift α) :=
  fun _ => rfl

theorem steady_get : Steady (get : Lift Frame) :=
  fun _ => rfl

theorem steady_liftM (x : Except Fault α) : Steady (liftM x : Lift α) := by
  intro f
  rw [exec_liftM]

theorem steady_push (e : Expr) : Steady (push e) :=
  fun _ => rfl

/-- Taking a value off the stack tells nothing of variables. -/
theorem steady_pop : Steady pop :=
  fun _ => rfl

theorem steady_popMany (n : Int) : Steady (popMany n) :=
  fun _ => rfl

theorem steady_peek : Steady peek :=
  fun _ => rfl

theorem steady_report (e : Event) : Steady (report e) :=
  fun _ => rfl

theorem steady_emit (s : Stmt) : Steady (emit s) :=
  fun _ => rfl

/-- Looking up a variable leaves the types alone and comes to one that is there. -/
theorem locate_spec (s : Storage) (i : Instruction) (f : Frame) :
    ((locate s i).exec f).2.typeOf = f.typeOf ∧
      ∀ ref, ((locate s i).exec f).1 = .ok ref → ((locate s i).exec f).2.routine.Has ref.place := by
  unfold locate
  rw [exec_bind, exec_liftM]
  cases i.slot with
  | error e => exact ⟨rfl, fun ref h => by cases h⟩
  | ok n =>
      cases s with
      | «local» =>
          simp only [exec_bind, exec_get, exec_liftM]
          cases h : f.routine.slot n with
          | error e => exact ⟨rfl, fun ref h => by cases h⟩
          | ok out =>
              obtain ⟨ref, r'⟩ := out
              obtain ⟨htypes, hhas⟩ := Routine.slot_typeOf f.program.typing h
              refine ⟨htypes, fun ref' h' => ?_⟩
              cases h'
              exact hhas
      | static | global =>
          refine ⟨rfl, fun ref h => ?_⟩
          cases h
          trivial

/-- A local that is declared on the way has no type yet. -/
theorem steady_locate (s : Storage) (i : Instruction) : Steady (locate s i) :=
  fun f => (locate_spec s i f).1

theorem steady_binary (op : String) (t : DataType) : Steady (binary op t) :=
  steady_pop.bind fun _ => steady_pop.bind fun _ => steady_push _

/-- A call tells nothing of the variables among its arguments. -/
theorem steady_invoke (name : String) (args returns : Int) (t : DataType) :
    Steady (invoke name args returns t) := by
  unfold invoke
  refine (steady_popMany args).bind fun es => ?_
  split
  · exact steady_emit _
  split
  · exact Steady.bind (steady_report _) fun _ => steady_push _
  · exact steady_push _

theorem steady_callRoutine (target : Int) : Steady (callRoutine target) := by
  unfold callRoutine
  refine steady_get.bind fun f => ?_
  split
  · exact steady_invoke _ _ _ _
  · exact (steady_report _).bind fun _ => steady_emit _

/-- A return site says something of the result only. -/
theorem steady_inferReturn (count : Int) (values : List Expr) :
    Steady (inferReturn count values) := by
  intro f
  simp only [inferReturn, exec_bind, exec_get, exec_liftM]
  generalize h : f.routine.inferReturn count _ = out
  cases out with
  | error e => rfl
  | ok out =>
      obtain ⟨r, events⟩ := out
      obtain ⟨result, rfl⟩ := inferReturn_ok h
      rfl

/-- What is inferred of the result is no type of a variable. -/
theorem steady_leave (returns : Int) : Steady (leave returns) := by
  have tail : Steady (do
      let values ← popMany returns
      inferReturn returns values
      emit (.ret values)) :=
    (steady_popMany _).bind fun _ => (steady_inferReturn _ _).bind fun _ => steady_emit _
  unfold leave
  split
  · exact (steady_inferReturn _ _).bind fun _ => tail
  · exact tail

theorem steady_branch (i : Instruction) (condition : Expr) : Steady (branch i condition) := by
  unfold branch
  refine (steady_liftM _).bind fun target => steady_get.bind fun f => ?_
  split
  · exact (steady_emit _).bind fun _ => steady_emit _
  · exact (steady_emit _).bind fun _ _ => rfl

theorem steady_forM_push (vs : List Literal) : Steady (vs.forM fun v => push (.ofLiteral v)) := by
  induction vs with
  | nil => exact steady_pure _
  | cons v vs ih => exact (steady_push _).bind fun _ => ih

/-- **Only a store changes the type of a variable.** -/
theorem steady_execute {o : Opcode} (h : ∀ s, o ≠ .store s) (i : Instruction) :
    Steady (execute o i) := by
  cases o with
  | nop | enter => exact steady_pure _
  | push =>
      simp only [execute]
      split
      · exact steady_forM_push _
      · exact steady_throw _
  | dup => exact steady_peek.bind fun _ => steady_push _
  | drop =>
      refine steady_pop.bind fun e => ?_
      split
      · exact steady_emit _
      · exact steady_pure _
  | load s => exact (steady_locate s i).bind fun _ => steady_push _
  | store s => exact absurd rfl (h s)
  | int | float | intCompare | floatCompare => exact steady_binary _ _
  | unary o => exact steady_pop.bind fun _ => steady_push _
  | native =>
      simp only [execute]
      split
      · exact steady_invoke _ _ _ _
      · exact steady_throw _
  | call =>
      simp only [execute]
      split
      · exact steady_callRoutine _
      · exact steady_throw _
  | leave =>
      simp only [execute]
      split
      · exact steady_leave _
      · exact steady_throw _
  | jump => exact (steady_liftM _).bind fun _ => steady_emit _
  | jumpIfZero => exact steady_pop.bind fun _ => steady_branch _ _
  | compareJump r => exact steady_pop.bind fun _ => steady_pop.bind fun _ => steady_branch _ _

theorem steady_skip (i : Instruction) : Steady (skip i) :=
  steady_get.bind fun _ => (steady_report _).bind fun _ => steady_emit _

/-- A store that finds its variable has it learn the type of the top value. -/
theorem typeOf_store {ref : Reference} {f : Frame} (h : f.routine.Has ref.place) (place : Place) :
    ((store ref).exec f).2.typeOf place
      = if ref.place = place then (f.typeOf place).refine (f.stack.pop.1.type f.typeOf)
        else f.typeOf place :=
  Frame.typeOf_learn (f := { f.report f.stack.pop.2.2 with stack := f.stack.pop.2.1 }) h
    (f.stack.pop.1.type f.typeOf) place

/-- A store refines the type of its target by that of the value, and of no other place. -/
theorem typeOf_execute_store (s : Storage) (i : Instruction) (f : Frame) (place : Place) :
    ((execute (.store s) i).exec f).2.typeOf place
      = if f.place? s i = some place then (f.typeOf place).refine (f.stack.pop.1.type f.typeOf)
        else f.typeOf place := by
  obtain ⟨htypes, hhas⟩ := locate_spec s i f
  have hstack := (learns_locate s i f).stack
  obtain ⟨v, f₁, hl⟩ : ∃ v f₁, (locate s i).exec f = (v, f₁) := ⟨_, _, rfl⟩
  have hplace : f.place? s i = v.toOption.map (·.place) := by rw [Frame.place?, hl]
  rw [hl] at htypes hstack hhas
  rw [hplace, execute, exec_bind, hl]
  cases v with
  | error e => simpa [Except.toOption] using congrFun htypes place
  | ok ref =>
      dsimp only at htypes hstack hhas ⊢
      rw [typeOf_store (hhas ref rfl), htypes, hstack]
      simp [Except.toOption]

/-- Every instruction but a store leaves the types alone. -/
theorem steady_step {i : Instruction} (h : ∀ s, i.kind ≠ .op (.store s)) : Steady (step i) := by
  unfold step
  split
  · rename_i o ho
    refine steady_get.bind fun f => ?_
    split
    · exact steady_execute (fun s hs => h s (hs ▸ ho)) i
    · exact steady_skip i
  · exact steady_skip i

/-- **What an instruction does to the types**: the place that it stores into learns the type that
the value has, and nothing else changes. -/
theorem typeOf_step (f : Frame) (i : Instruction) (place : Place) :
    ((step i).exec f).2.typeOf place
      = (f.typeOf place).refine ((Moment.storedIn? ⟨f, i⟩ place).getD .unknown) := by
  by_cases hst : ∃ s, i.kind = .op (.store s)
  · obtain ⟨s, hk⟩ := hst
    simp only [step, Moment.storedIn?, Moment.target?, hk, exec_bind, exec_get]
    by_cases ho : .store s ∈ f.program.handled
    · rw [if_pos ho, typeOf_execute_store]
      by_cases hp : f.place? s i = some place <;> simp [ho, hp]
    · rw [if_neg ho, steady_skip i f]
      simp [ho]
  · have hno : ∀ s, i.kind ≠ .op (.store s) := fun s hk => hst ⟨s, hk⟩
    rw [steady_step hno f, Moment.storedIn?, Moment.target?_eq_none hno]
    simp

end Lift

/-! ### What a run does to the types -/

/-- At each of the moments the types are what is known at the start and what the stores before have
added, and `known'` is what is known behind the last. -/
inductive Evolves : (Place → DataType) → List Moment → (Place → DataType) → Prop where
  | nil {known : Place → DataType} : Evolves known [] known
  | cons {known known' : Place → DataType} {m : Moment} {h : List Moment} :
      m.frame.typeOf = known →
      Evolves (fun place => (known place).refine ((m.storedIn? place).getD .unknown)) h known' →
      Evolves known (m :: h) known'

namespace Evolves

variable {known known' known'' : Place → DataType} {h h' before after : List Moment} {m : Moment}

/-- Two runs one behind the other. -/
theorem append (hf : Evolves known h known') (hf' : Evolves known' h' known'') :
    Evolves known (h ++ h') known'' := by
  induction hf with
  | nil => exact hf'
  | cons hm _ ih => exact .cons hm (ih hf')

/-- A run can be cut at any moment. -/
theorem split (hf : Evolves known (before ++ m :: after) known') :
    Evolves known before m.frame.typeOf := by
  induction before generalizing known with
  | nil =>
      cases hf with
      | cons hm _ => exact hm ▸ .nil
  | cons m' before ih =>
      cases hf with
      | cons hm hrest => exact .cons hm (ih hrest)

/-- **The first type that is known stays.** -/
theorem firstKnown_eq (hf : Evolves known h known') (place : Place) :
    known' place = firstKnown (known place :: h.filterMap (·.storedIn? place)) := by
  induction hf with
  | nil => rw [List.filterMap_nil, firstKnown_singleton]
  | @cons known _ m h _ _ ih =>
      rw [ih, firstKnown_refine]
      cases hs : m.storedIn? place with
      | none =>
          rw [List.filterMap_cons, hs, Option.getD_none, ← firstKnown_refine,
            DataType.refine_unknown]
      | some t => rw [List.filterMap_cons, hs, Option.getD_some]

end Evolves

/-- Carrying out instructions follows the stores, however it ends. -/
theorem Lift.Runs.evolves {f : Frame} {h : List Moment} {out : Except Fault Unit × Frame}
    (hr : Runs f h out) : Evolves f.typeOf h out.2.typeOf := by
  -- the tape has nothing to do with types
  have hstep : ∀ {f f' : Frame} {t : Tape} {i : Instruction} {v : Except Fault Unit},
      (step i).exec (f.withTape t) = (v, f') → f'.typeOf
        = fun place => (f.typeOf place).refine
            ((Moment.storedIn? ⟨f.withTape t, i⟩ place).getD .unknown) := by
    intro f f' t i v hs
    funext place
    have hplace := typeOf_step (f.withTape t) i place
    rwa [hs] at hplace
  induction hr with
  | done | ended => exact .nil
  | fault hs =>
      refine .cons rfl ?_
      rw [← hstep hs]
      exact .nil
  | more hs _ ih =>
      refine .cons rfl ?_
      rw [← hstep hs]
      exact ih

/-! ### Whole routines -/

namespace Stage

variable {s : Stage} {a : Int}

/-- What is known of a place. -/
def typeOf (s : Stage) : Place → DataType :=
  s.program.typeOf s.routine

theorem typeOf_seed (source : Int) (stack : OperandStack) (b : Block) :
    (s.seed source stack b).typeOf = s.typeOf := by
  unfold seed
  split
  · split <;> rfl
  · rfl

/-- Handing stacks on to other blocks leaves the types alone. -/
theorem typeOf_seedAll (source : Int) (stack : OperandStack) (ts : List Int) (s : Stage) :
    (seedAll source stack ts s).2.typeOf = s.typeOf := by
  fun_induction seedAll source stack ts s with
  | case1 => rfl
  | case2 a rest s b hb ih => exact ih.trans (typeOf_seed source stack b)
  | case3 => rfl

/-- One visit: the run of its block, and the stacks handed on. -/
theorem evolves_visit (s : Stage) (a : Int) :
    Evolves s.typeOf (s.visitMoments a) (s.visit a).2.typeOf := by
  unfold visitMoments visit
  cases s.routine.graph.block? a with
  | none => exact .nil
  | some b =>
      have hrun : Evolves s.typeOf (Frame.moments ⟨s.program, s.routine, b, b.entryStack, s.events⟩)
          (s.runBlock b).2.typeOf :=
        (Frame.runs_runBlock ⟨s.program, s.routine, b, b.entryStack, s.events⟩).evolves
      dsimp only
      generalize s.runBlock b = out at hrun
      obtain ⟨v, s₁⟩ := out
      cases v with
      | error e => exact hrun
      | ok stack =>
          dsimp only at hrun ⊢
          have hseed := typeOf_seedAll a stack b.successors s₁
          generalize seedAll a stack b.successors s₁ = out at hseed
          obtain ⟨v, s₂⟩ := out
          dsimp only at hseed
          rw [← hseed] at hrun
          cases v with
          | error | ok => exact hrun

/-- **A walk through the blocks follows the stores**, also one that is broken off. -/
theorem evolves_walk (keys : List Int) (s : Stage) (visited queue : List Int) :
    Evolves s.typeOf (walkMoments keys s visited queue) (walk keys s visited queue).2.typeOf := by
  fun_induction walk keys s visited queue with
  | case1 s visited =>
      rw [walkMoments]
      exact .nil
  | case2 s visited a queue ha ih =>
      rw [walkMoments, if_pos ha]
      exact ih
  | case3 s visited a queue ha hk f s₁ hv =>
      rw [walkMoments, if_neg ha, if_pos hk, hv, List.append_nil]
      have hvisit := evolves_visit s a
      rwa [hv] at hvisit
  | case4 s visited a queue ha hk found s₁ hv ih =>
      rw [walkMoments, if_neg ha, if_pos hk, hv]
      have hvisit := evolves_visit s a
      rw [hv] at hvisit
      exact hvisit.append ih
  | case5 s visited a queue ha hk =>
      rw [walkMoments, if_neg ha, if_neg hk]
      exact .nil

/-- The whole interpretation of a routine is its walk. -/
theorem evolves_interpret (s : Stage) :
    Evolves s.typeOf s.interpretMoments s.interpret.2.typeOf := by
  unfold interpretMoments interpret
  cases s.routine.graph.block? s.routine.address with
  | none => exact .nil
  | some b =>
      exact evolves_walk _ { s with
        routine := { s.routine with
          graph := s.routine.graph.update b.start fun b =>
            { b with entryStack := [], seeded := true } } } [] [b.start]

end Stage

/-- Discovery has nothing to do with variables. -/
theorem Routine.typeOf_discover (r : Routine) (shared : Typing) :
    r.discover.state.typeOf shared = r.typeOf shared := by
  unfold Routine.discover
  split
  · rfl
  · split <;> rfl

namespace Program

/-- **Lifting a routine follows the stores.** -/
theorem evolves_lift (p : Program) (r : Routine) :
    Evolves (p.typeOf r) (p.moments r) ((p.lift r).state.1.typeOf (p.lift r).state.2) := by
  have hd := r.typeOf_discover p.typing
  unfold moments lift
  cases hdisc : r.discover with
  | mk v r₀ events =>
    rw [hdisc] at hd
    cases v with
    | error e =>
        change Evolves _ [] (r₀.typeOf p.typing)
        rw [hd]
        exact .nil
    | ok order =>
        have hint := Stage.evolves_interpret ⟨p, r₀, events⟩
        have hstart : Stage.typeOf ⟨p, r₀, events⟩ = p.typeOf r := hd
        rw [hstart] at hint
        exact hint

end Program

/-! ### Whole programs -/

/-- The place is one and the same for all routines. -/
def Place.isShared : Place → Bool
  | .input _ | .auto _ => false
  | _ => true

/-- The types of the values stored into a place of the routine with the number `k`, in order. -/
def storesInto (k : Nat) (place : Place) (h : List (Nat × Moment)) : List DataType :=
  h.filterMap fun e => if place.isShared || e.1 == k then e.2.storedIn? place else none

section StoresInto

variable {j k : Nat} {place : Place} {h h' : List (Nat × Moment)} {ms : List Moment}

/-- The stores of two runs, in order. -/
theorem storesInto_append :
    storesInto k place (h ++ h') = storesInto k place h ++ storesInto k place h' :=
  List.filterMap_append

/-- Within one routine, every store counts that goes to the place. -/
theorem storesInto_map :
    storesInto k place (ms.map (Prod.mk k)) = ms.filterMap (·.storedIn? place) := by
  simp [storesInto, List.filterMap_map]

/-- The stores into a shared place are the same for every routine. -/
theorem storesInto_congr (hs : place.isShared = true) :
    storesInto j place h = storesInto k place h := by
  simp [storesInto, hs]

/-- What other routines store into their own places is of no concern. -/
theorem storesInto_of_ne (hs : place.isShared = false) (hne : ∀ e ∈ h, e.1 ≠ k) :
    storesInto k place h = [] := by
  refine List.filterMap_eq_nil_iff.mpr fun e he => ?_
  simp [hs, hne e he]

end StoresInto

namespace Program

variable {p p' : Program} {r r' : Routine} {k : Nat} {rs : List Routine} {place : Place}

/-- What is known of a shared place, the program knows. -/
theorem typeOf_of_shared (hs : place.isShared = true) : p.typeOf r place = p.typing.get place := by
  cases place with
  | input | auto => cases hs
  | static | global | loose => rfl

/-- What is known of another, its routine knows. -/
theorem typeOf_of_own (hs : place.isShared = false) : p'.typeOf r place = p.typeOf r place := by
  cases place with
  | input | auto => rfl
  | static | global | loose => cases hs

/-- What lifting one routine leaves is where the next starts. -/
theorem firstKnown_lift {j : Nat} (hj : j ≠ k) (r₀ : Routine) (h : List (Nat × Moment)) :
    firstKnown ((p.lift r₀).state.1.typeOf r place :: storesInto j place h)
      = firstKnown (p.typeOf r place ::
          storesInto j place ((p.moments r₀).map (Prod.mk k) ++ h)) := by
  rw [storesInto_append]
  cases hs : place.isShared with
  | false =>
      rw [storesInto_of_ne (h := (p.moments r₀).map (Prod.mk k)) hs (by simp [Ne.symm hj]),
        List.nil_append, typeOf_of_own hs]
  | true =>
      have hfirst : storesInto j place ((p.moments r₀).map (Prod.mk k))
          = (p.moments r₀).filterMap (·.storedIn? place) :=
        (storesInto_congr hs).trans storesInto_map
      have hlift := (p.evolves_lift r₀).firstKnown_eq place
      rw [typeOf_of_shared hs, typeOf_of_shared hs] at hlift
      rw [hfirst, ← firstKnown_append, typeOf_of_shared hs, typeOf_of_shared hs, hlift]

/-- What is said of `rs` lifted one after the other in `p`, the first with the number `k`. -/
structure Settled (p : Program) (k : Nat) (rs : List Routine) : Prop where
  moment : ∀ before j m after, p.history k rs = before ++ (j, m) :: after →
    ∃ n r, j = k + n ∧ rs[n]? = some r ∧
      ∀ place, m.frame.typeOf place = firstKnown (p.typeOf r place :: storesInto j place before)
  shared : ∀ place : Place, place.isShared = true →
    (p.liftAll rs).state.typing.get place
      = firstKnown (p.typing.get place :: storesInto k place (p.history k rs))
  own : ∀ rs', (p.liftAll rs).value = .ok rs' → ∀ n r', rs'[n]? = some r' →
    ∃ r, rs[n]? = some r ∧ ∀ place, (p.liftAll rs).state.typeOf r' place
      = firstKnown (p.typeOf r place :: storesInto (k + n) place (p.history k rs))

theorem settled_nil (p : Program) (k : Nat) : p.Settled k [] where
  moment before j m after h := by simp [history] at h
  shared place hs := (firstKnown_singleton _).symm
  own rs' h n r' hr := by
    cases h
    simp at hr

/-- A moment of the routine that is lifted first. -/
theorem moment_map {before after : List (Nat × Moment)} {j : Nat} {m : Moment}
    (h : (p.moments r).map (Prod.mk k) = before ++ (j, m) :: after) :
    j = k ∧ ∀ place,
      m.frame.typeOf place = firstKnown (p.typeOf r place :: storesInto k place before) := by
  obtain ⟨first, rest, hms, rfl, hrest⟩ := List.map_eq_append_iff.mp h
  obtain ⟨m', rest', rfl, hm, -⟩ := List.map_eq_cons_iff.mp hrest
  obtain ⟨rfl, rfl⟩ := Prod.mk.inj hm
  refine ⟨rfl, fun place => ?_⟩
  have hevolves := p.evolves_lift r
  rw [hms] at hevolves
  rw [hevolves.split.firstKnown_eq place, storesInto_map]

section Cons

/-- A fault ends the history with the routine it is in. -/
theorem history_of_error {e : Fault} (h : (p.lift r).value = .error e) :
    p.history k (r :: rs) = (p.moments r).map (Prod.mk k) := by
  rw [history]
  cases hl : p.lift r with
  | mk v s events =>
    rw [hl] at h
    cases h
    exact List.append_nil _

/-- After a routine, the history goes on in the program it left. -/
theorem history_of_ok (h : (p.lift r).value = .ok ()) :
    p.history k (r :: rs)
      = (p.moments r).map (Prod.mk k) ++ (p.lift r).state.1.history (k + 1) rs := by
  rw [history]
  cases hl : p.lift r with
  | mk v s events =>
    rw [hl] at h
    cases h
    rfl

theorem liftAll_of_error {e : Fault} (h : (p.lift r).value = .error e) :
    (p.liftAll (r :: rs)).value = .error e ∧ (p.liftAll (r :: rs)).state = (p.lift r).state.1 := by
  rw [liftAll]
  cases hl : p.lift r with
  | mk v s events =>
    rw [hl] at h
    cases h
    exact ⟨rfl, rfl⟩

/-- The routines that follow are lifted in the program that the first one left. -/
theorem liftAll_of_ok (h : (p.lift r).value = .ok ()) :
    (p.liftAll (r :: rs)).value
        = ((p.lift r).state.1.liftAll rs).value.map ((p.lift r).state.2 :: ·) ∧
      (p.liftAll (r :: rs)).state = ((p.lift r).state.1.liftAll rs).state := by
  rw [liftAll]
  cases hl : p.lift r with
  | mk v s events =>
    rw [hl] at h
    cases h
    exact ⟨rfl, rfl⟩

end Cons

/-- A routine whose lift is broken off is the last. -/
theorem Settled.of_error {e : Fault} (h : (p.lift r).value = .error e) : p.Settled k (r :: rs) where
  moment before j m after hsplit := by
    rw [history_of_error h] at hsplit
    obtain ⟨rfl, htypes⟩ := moment_map hsplit
    exact ⟨0, r, rfl, rfl, htypes⟩
  shared place hs := by
    have hlift := (p.evolves_lift r).firstKnown_eq place
    rw [typeOf_of_shared hs, typeOf_of_shared hs] at hlift
    rw [(liftAll_of_error h).2, history_of_error h, storesInto_map, hlift]
  own rs' hrs := by
    rw [(liftAll_of_error h).1] at hrs
    cases hrs

/-- What the routines behind have to say of a place that is none of theirs. -/
theorem Settled.storesInto_eq_nil (h : p.Settled (k + 1) rs) (hs : place.isShared = false) :
    storesInto k place (p.history (k + 1) rs) = [] := by
  refine storesInto_of_ne hs fun e he => ?_
  obtain ⟨before, after, hsplit⟩ := List.append_of_mem he
  obtain ⟨n, -, hn, -⟩ := h.moment before e.1 e.2 after hsplit
  omega

/-- **A routine that was lifted leaves what it knows to those behind.** -/
theorem Settled.of_ok (h : (p.lift r).value = .ok ())
    (hrest : (p.lift r).state.1.Settled (k + 1) rs) : p.Settled k (r :: rs) where
  moment before j m after hsplit := by
    rw [history_of_ok h] at hsplit
    -- the moment is one of the routines that follow, or of the first one
    rcases List.append_eq_append_iff.mp hsplit with ⟨mid, rfl, hmid⟩ | ⟨mid, hmid, hafter⟩
    · obtain ⟨n, r', rfl, hr', htypes⟩ := hrest.moment mid j m after hmid
      refine ⟨n + 1, r', by omega, hr', fun place => ?_⟩
      rw [htypes place, firstKnown_lift (k := k) (by omega)]
    · cases mid with
      | nil =>
          obtain ⟨n, r', rfl, hr', htypes⟩ := hrest.moment [] j m after hafter.symm
          refine ⟨n + 1, r', by omega, hr', fun place => ?_⟩
          rw [htypes place, firstKnown_lift (k := k) (by omega), List.append_nil, hmid,
            List.append_nil]
      | cons e mid =>
          obtain ⟨rfl, rfl⟩ := List.cons.inj hafter
          obtain ⟨rfl, htypes⟩ := moment_map hmid
          exact ⟨0, r, rfl, rfl, htypes⟩
  shared place hs := by
    have hlift : firstKnown ((p.lift r).state.1.typeOf r place :: _) = _ :=
      firstKnown_lift (Nat.succ_ne_self k) r ((p.lift r).state.1.history (k + 1) rs)
    rw [typeOf_of_shared hs, typeOf_of_shared hs] at hlift
    rw [(liftAll_of_ok h).2, hrest.shared place hs, hlift, history_of_ok h, storesInto_congr hs]
  own rs' hrs n r' hr' := by
    rw [(liftAll_of_ok h).1] at hrs
    rw [(liftAll_of_ok h).2, history_of_ok h]
    cases hmore : ((p.lift r).state.1.liftAll rs).value with
    | error e =>
        rw [hmore] at hrs
        cases hrs
    | ok more =>
        rw [hmore] at hrs
        cases hrs
        cases n with
        | zero =>
            obtain rfl : (p.lift r).state.2 = r' := Option.some.inj hr'
            refine ⟨r, rfl, fun place => ?_⟩
            have hlift := (p.evolves_lift r).firstKnown_eq place
            rw [Nat.add_zero, storesInto_append, storesInto_map, ← firstKnown_append, ← hlift]
            -- only into a shared place do the routines that follow store
            cases hs : place.isShared with
            | false =>
                rw [hrest.storesInto_eq_nil hs, firstKnown_singleton, typeOf_of_own hs]
            | true =>
                rw [typeOf_of_shared hs, typeOf_of_shared hs, hrest.shared place hs,
                  storesInto_congr hs]
        | succ n =>
            obtain ⟨r₀, hr₀, htypes⟩ := hrest.own more hmore n r' hr'
            refine ⟨r₀, hr₀, fun place => ?_⟩
            rw [htypes place, firstKnown_lift (k := k) (by omega)]
            congr 3
            omega

/-- **Routines lifted one after the other follow the stores.** -/
theorem settled (p : Program) (k : Nat) (rs : List Routine) : p.Settled k rs := by
  induction rs generalizing p k with
  | nil => exact p.settled_nil k
  | cons r rs ih =>
      cases hv : (p.lift r).value with
      | error e => exact .of_error hv
      | ok => exact .of_ok hv (ih _ _)

theorem typing_register (p : Program) (rs : List Routine) : (p.register rs).typing = p.typing := by
  induction rs generalizing p with
  | nil => rfl
  | cons r rs ih => exact ih _

/-- The moments of a whole run, each with the number of its routine. -/
def run (p : Program) : List (Nat × Moment) :=
  (p.register p.routines).history 0 p.routines

/-- A value of another type does not change what is known, and it is stored all the same. -/
example :
    let p : Program := {
      name := "twice"
      code := [⟨0, .op .push, .push [.int 1]⟩, ⟨1, .op (.store .static), .slot 0⟩,
        ⟨2, .op .push, .push [.bool true]⟩, ⟨3, .op (.store .static), .slot 0⟩] }
    storesInto 0 (.static 0) p.run = [.int, .bool] ∧
      p.decompile.state.typing.get (.static 0) = .int := by
  cbv

/-- What is known of the variables in the course of a run, and at its end. -/
structure FirstStoreWins (p : Program) : Prop where
  /-- At every moment a variable has the first known type among the one it started with and those of
  the values stored into it before, each as it was when it was stored. -/
  moment : ∀ before k m after, p.run = before ++ (k, m) :: after →
    ∃ r, p.routines[k]? = some r ∧
      ∀ place, m.frame.typeOf place = firstKnown (p.typeOf r place :: storesInto k place before)
  /-- It is the same for shared variables at the end, even if the run was broken off, -/
  shared : ∀ place : Place, place.isShared = true →
    p.decompile.state.typing.get place
      = firstKnown (p.typing.get place :: storesInto 0 place p.run)
  /-- and for all variables of the routines that come out of it. -/
  own : ∀ rs, p.decompile.value = .ok rs → ∀ k r, rs[k]? = some r →
    ∃ r₀, p.routines[k]? = some r₀ ∧ ∀ place, p.decompile.state.typeOf r place
      = firstKnown (p.typeOf r₀ place :: storesInto k place p.run)
  /-- A type that is known at one moment is the same at all that follow. -/
  kept : ∀ before k m mid k' m' after, p.run = before ++ (k, m) :: (mid ++ (k', m') :: after) →
    ∀ place : Place, place.isShared = true ∨ k' = k → m.frame.typeOf place ≠ .unknown →
      m'.frame.typeOf place = m.frame.typeOf place

/-- **The first typed store wins.** -/
theorem firstStoreWins (p : Program) : p.FirstStoreWins := by
  have hset := (p.register p.routines).settled 0 p.routines
  have htypes : ∀ r, (p.register p.routines).typeOf r = p.typeOf r := by
    intro r
    rw [typeOf, typing_register, typeOf]
  have hmoment : ∀ before k m after, p.run = before ++ (k, m) :: after →
      ∃ r, p.routines[k]? = some r ∧
        ∀ place,
          m.frame.typeOf place = firstKnown (p.typeOf r place :: storesInto k place before) := by
    intro before k m after hsplit
    obtain ⟨n, r, hk, hr, hplace⟩ := hset.moment before k m after hsplit
    obtain rfl : k = n := by rw [hk, Nat.zero_add]
    exact ⟨r, hr, htypes r ▸ hplace⟩
  refine ⟨hmoment, fun place hs => ?_, fun rs hrs k r hr => ?_, ?_⟩
  · rw [← p.typing_register p.routines]
    exact hset.shared place hs
  · obtain ⟨r₀, hr₀, hplace⟩ := hset.own rs hrs k r hr
    rw [Nat.zero_add, htypes r₀] at hplace
    exact ⟨r₀, hr₀, hplace⟩
  · intro before k m mid k' m' after hsplit place hsame hknown
    obtain ⟨r, hr, hplace⟩ := hmoment before k m _ hsplit
    obtain ⟨r', hr', hplace'⟩ :=
      hmoment (before ++ (k, m) :: mid) k' m' after (by simpa using hsplit)
    -- both are said of one and the same variable
    have hstart : p.typeOf r' place = p.typeOf r place ∧
        ∀ h, storesInto k' place h = storesInto k place h := by
      rcases hsame with hs | rfl
      · exact ⟨(typeOf_of_shared hs).trans (typeOf_of_shared hs).symm, fun h => storesInto_congr hs⟩
      · obtain rfl : r' = r := Option.some.inj (hr'.symm.trans hr)
        exact ⟨rfl, fun _ => rfl⟩
    rw [hplace' place, hstart.1, hstart.2, storesInto_append, ← firstKnown_append, ← hplace place,
      firstKnown_cons_of_ne hknown]

end Program

end ScriptLift
