import ScriptLift.Proofs.Decoding
import ScriptLift.Proofs.Lift.Joins
import ScriptLift.Proofs.Lift.Success

/-!
# What stops a lift

Where the instructions are well-formed, their addresses distinct, and the entry is one of them
(`Routine.IsSound`), only one thing stops a lift: a return of more values than one, and only if the
entry leads to it.  `FailsIff v many` says this of an outcome `v`: it is a value unless `many`, and
otherwise the fault that names the number of values returned.  It is shown for one instruction
(`Lift.failsIff_step`), and from there for a block, a walk, a routine and several routines.
-/

namespace ScriptLift

/-- The outcome is a value unless `many`, and then the number of values returned is at fault. -/
structure FailsIff {α : Type} (v : Except Fault α) (many : Prop) : Prop where
  value : ¬ many → ∃ a, v = .ok a
  fault : many → ∃ routine count, v = .error (.returnCount routine count)

namespace FailsIff

variable {α β : Type} {v : Except Fault α} {many many' : Prop} {a : α} {e : Fault}

/-- A value, where there are not many. -/
theorem of_ok (h : v = .ok a) (hn : ¬ many) : FailsIff v many :=
  ⟨fun _ => ⟨a, h⟩, fun hm => absurd hm hn⟩

/-- The fault, where there are. -/
theorem of_error (h : v = .error e) (he : ∃ routine count, e = .returnCount routine count)
    (hm : many) : FailsIff v many := by
  obtain ⟨routine, count, rfl⟩ := he
  exact ⟨fun hn => absurd hm hn, fun _ => ⟨routine, count, h⟩⟩

/-- From a value it follows that there are not many. -/
theorem not_of_ok (h : FailsIff v many) (hv : v = .ok a) : ¬ many := by
  intro hm
  obtain ⟨routine, count, he⟩ := h.fault hm
  rw [hv] at he
  cases he

/-- From a fault it follows that there are, and which fault it is. -/
theorem of_eq_error (h : FailsIff v many) (hv : v = .error e) :
    many ∧ ∃ routine count, e = .returnCount routine count := by
  by_cases hm : many
  · obtain ⟨routine, count, he⟩ := h.fault hm
    rw [hv] at he
    exact ⟨hm, routine, count, Except.error.inj he⟩
  · obtain ⟨a, ha⟩ := h.value hm
    rw [hv] at ha
    cases ha

theorem congr (h : FailsIff v many) (hm : many ↔ many') : FailsIff v many' :=
  ⟨fun hn => h.value fun h => hn (hm.mp h), fun h' => h.fault (hm.mpr h')⟩

theorem map (h : FailsIff v many) (g : α → β) : FailsIff (v.map g) many := by
  refine ⟨fun hn => ?_, fun hm => ?_⟩
  · obtain ⟨a, rfl⟩ := h.value hn
    exact ⟨g a, rfl⟩
  · obtain ⟨routine, count, rfl⟩ := h.fault hm
    exact ⟨routine, count, rfl⟩

end FailsIff

/-- The instruction is a return of more values than one. -/
def Instruction.returnsMany (i : Instruction) : Bool :=
  i.returns?.any (2 ≤ ·)

/-- The block holds a return of more values than one. -/
def Block.ReturnsMany (b : Block) : Prop :=
  ∃ i ∈ b.tape.instructions, i.returnsMany = true

namespace Lift

variable {α β : Type} {m : Lift α} {k : α → Lift β} {f : Frame} {i : Instruction}

/-! ### Computations that nothing stops -/

/-- Whatever the frame, the computation comes to a value. -/
def Total (m : Lift α) : Prop :=
  ∀ f : Frame, ∃ a f', m.exec f = (.ok a, f')

/-- Nothing stops two computations that nothing stops. -/
theorem Total.bind (h : Total m) (hk : ∀ a, Total (k a)) : Total (m >>= k) := by
  intro f
  obtain ⟨a, f₁, hm⟩ := h f
  obtain ⟨b, f₂, hb⟩ := hk a f₁
  exact ⟨b, f₂, by rw [exec_bind, hm]; exact hb⟩

theorem total_pure (a : α) : Total (pure a : Lift α) :=
  fun f => ⟨a, f, rfl⟩

theorem total_get : Total (get : Lift Frame) :=
  fun f => ⟨f, f, rfl⟩

theorem total_modify (g : Frame → Frame) : Total (modify g : Lift Unit) :=
  fun f => ⟨(), g f, rfl⟩

theorem total_liftM {x : Except Fault α} {a : α} (h : x = .ok a) : Total (liftM x : Lift α) :=
  fun f => ⟨a, f, by rw [exec_liftM, h]⟩

theorem total_push (e : Expr) : Total (push e) :=
  total_modify _

theorem total_emit (s : Stmt) : Total (emit s) :=
  total_modify _

theorem total_report (e : Event) : Total (report e) :=
  total_modify _

/-- An empty stack stops nothing. -/
theorem total_pop : Total pop :=
  fun f => ⟨_, _, exec_pop f⟩

theorem total_peek : Total peek :=
  fun f => ⟨_, _, exec_peek f⟩

theorem total_popMany (n : Int) : Total (popMany n) :=
  fun f => ⟨_, _, exec_popMany n f⟩

/-- A slot that is not negative is always resolved; a local is declared if it has to be. -/
theorem total_locate {n : Nat} (st : Storage) (h : i.operands = .slot n) : Total (locate st i) := by
  have hslot : i.slot = .ok n := by rw [Instruction.slot, h]
  refine fun f => ?_
  rw [locate, exec_bind, exec_liftM, hslot]
  cases st with
  | «local» =>
      obtain ⟨locals, hs, -⟩ := f.routine.slot_natCast n
      refine ⟨f.routine.localRef n, { f with routine := { f.routine with locals } }, ?_⟩
      simp only [exec_bind, exec_get, exec_liftM, hs, exec_set, exec_pure]
  | static | global => exact ⟨_, _, rfl⟩

theorem total_store (ref : Reference) : Total (store ref) :=
  total_pop.bind fun _ => (total_modify _).bind fun _ => total_emit _

theorem total_binary (op : String) (t : DataType) : Total (binary op t) :=
  total_pop.bind fun _ => total_pop.bind fun _ => total_push _

/-- A call needs nothing on the stack. -/
theorem total_invoke (name : String) (args returns : Int) (t : DataType) :
    Total (invoke name args returns t) := by
  refine (total_popMany args).bind fun es => ?_
  split
  · exact total_emit _
  split
  · exact (total_report _).bind fun _ => total_push _
  · exact total_push _

theorem total_callRoutine (target : Int) : Total (callRoutine target) := by
  refine total_get.bind fun f => ?_
  cases f.program.callee? target with
  | some callee => exact total_invoke _ _ _ _
  | none => exact (total_report _).bind fun _ => total_emit _

/-- A return of at most one value can be described. -/
theorem total_inferReturn {n : Nat} (h : n ≤ 1) (values : List Expr) :
    Total (inferReturn n values) := by
  intro f
  simp only [inferReturn, exec_bind, exec_get, exec_liftM]
  generalize hr : f.routine.inferReturn n _ = out
  cases out with
  | error e =>
      obtain ⟨out, hout⟩ := f.routine.exists_inferReturn h _
      rw [hout] at hr
      cases hr
  | ok out => exact ⟨(), _, rfl⟩

/-- So it is carried out. -/
theorem total_leave {n : Nat} (h : n ≤ 1) : Total (leave n) := by
  have hn : ¬ (1 : Int) < n := by omega
  rw [leave, if_neg hn]
  exact (total_popMany n).bind fun values => (total_inferReturn h values).bind fun _ => total_emit _

theorem total_target {t : Int} (h : i.operands = .branch t) : Total (liftM i.target : Lift Int) :=
  total_liftM (a := t) (by simp [Instruction.target, Instruction.branchTarget?, h])

/-- A conditional jump that has a target is carried out, whatever follows it. -/
theorem total_branch {t : Int} (h : i.operands = .branch t) (c : Expr) : Total (branch i c) := by
  refine (total_target h).bind fun _ => total_get.bind fun f => ?_
  cases f.block.fallthrough with
  | none => exact (total_emit _).bind fun _ => total_emit _
  | some next => exact (total_emit _).bind fun _ => total_modify _

theorem total_forM_push (values : List Literal) :
    Total (values.forM fun v => push (.ofLiteral v)) := by
  induction values with
  | nil => exact total_pure _
  | cons v values ih => exact (total_push _).bind fun _ => ih

/-- **An operation with operands that fit comes to its end**, unless it returns too much. -/
theorem total_execute {o : Opcode} (hi : i.kind = .op o) (hw : i.isWellFormed = true)
    (hr : i.returnsMany = false) : Total (execute o i) := by
  simp only [Instruction.isWellFormed, hi] at hw
  cases o with
  | nop | enter => exact total_pure _
  | push =>
      cases hos : i.operands with
      | push values =>
          simp only [execute, hos]
          exact total_forM_push values
      | _ => simp [hos, Opcode.accepts] at hw
  | dup => exact total_peek.bind fun _ => total_push _
  | drop =>
      refine total_pop.bind fun e => ?_
      split
      · exact total_emit _
      · exact total_pure _
  | load st =>
      obtain ⟨n, hos⟩ := Opcode.slot_of_accepts hw ⟨st, Or.inl rfl⟩
      exact (total_locate st hos).bind fun _ => total_push _
  | store st =>
      obtain ⟨n, hos⟩ := Opcode.slot_of_accepts hw ⟨st, Or.inr rfl⟩
      exact (total_locate st hos).bind fun ref => total_store ref
  | int o | float o | intCompare r | floatCompare r => exact total_binary _ _
  | unary o => exact total_pop.bind fun _ => total_push _
  | native =>
      cases hos : i.operands with
      | native args returns hash name resultType =>
          simp only [execute, hos]
          exact total_invoke _ _ _ _
      | _ => simp [hos, Opcode.accepts] at hw
  | call =>
      cases hos : i.operands with
      | call target =>
          simp only [execute, hos]
          exact total_callRoutine target
      | _ => simp [hos, Opcode.accepts] at hw
  | leave =>
      cases hos : i.operands with
      | ret args n =>
          have hn : 0 ≤ n := by simpa [hos, Opcode.accepts] using hw
          have hle : n < 2 := by
            simpa [Instruction.returnsMany, Instruction.returns?, hi, hos] using hr
          simp only [execute, hos]
          rw [← Int.toNat_of_nonneg hn]
          exact total_leave (by omega)
      | _ => simp [hos, Opcode.accepts] at hw
  | jump =>
      obtain ⟨t, hos⟩ := Opcode.target_of_accepts hw (Or.inl rfl)
      exact (total_target hos).bind fun _ => total_emit _
  | jumpIfZero =>
      obtain ⟨t, hos⟩ := Opcode.target_of_accepts hw (Or.inr (Or.inl rfl))
      exact total_pop.bind fun _ => total_branch hos _
  | compareJump r =>
      obtain ⟨t, hos⟩ := Opcode.target_of_accepts hw (Or.inr (Or.inr ⟨r, rfl⟩))
      exact total_pop.bind fun _ => total_pop.bind fun _ => total_branch hos _

/-! ### Instructions and blocks -/

/-- A return of too many values is refused. -/
theorem exec_leave_of_lt {n : Int} (h : 1 < n) (f : Frame) :
    (leave n).exec f = (.error (.returnCount f.routine.name n), f) := by
  have hsite : ∀ top, Routine.siteType? n top = none := by
    intro top
    rw [Routine.siteType?, if_neg (by omega), if_neg (by omega)]
  simp [leave, if_pos h, exec_bind, inferReturn, Routine.inferReturn, hsite]

/-- **An instruction is stopped only by returning too much.** -/
theorem failsIff_step (hp : f.program.handled = Opcode.all) (hw : i.isWellFormed = true) :
    FailsIff ((step i).exec f).1 (i.returnsMany = true) := by
  obtain ⟨o, hi⟩ : ∃ o, i.kind = .op o := by
    cases hi : i.kind with
    | op o => exact ⟨o, rfl⟩
    | other name => simp [Instruction.isWellFormed, hi] at hw
  rw [exec_step hp hi]
  cases hr : i.returnsMany with
  | false =>
      obtain ⟨a, f', h⟩ := total_execute hi hw hr f
      exact .of_ok (congrArg Prod.fst h) (by simp)
  | true =>
      obtain ⟨args, n, rfl, hos, hn⟩ :
          ∃ args n, o = .leave ∧ i.operands = .ret args n ∧ (1 : Int) < n := by
        unfold Instruction.returnsMany Instruction.returns? at hr
        split at hr
        · rename_i args n hk hos
          rw [hi] at hk
          have hn : 2 ≤ n := by simpa using hr
          exact ⟨args, n, Kind.op.inj hk, hos, by omega⟩
        · cases hr
      refine .of_error (e := .returnCount f.routine.name n) ?_ ⟨_, _, rfl⟩ rfl
      simp only [execute, hos, exec_leave_of_lt hn]

/-- What is left on the tape is carried out to its end, unless it returns too much. -/
theorem failsIff_steps {is : List Instruction} (hp : f.program.handled = Opcode.all)
    (hu : f.block.tape.unread.map (·.instruction) = is) (hw : ∀ i ∈ is, i.isWellFormed = true) :
    FailsIff ((steps is.length).exec f).1 (∃ i ∈ is, i.returnsMany = true) := by
  induction is generalizing f with
  | nil => exact .of_ok (a := ()) rfl (by simp)
  | cons i is ih =>
      obtain ⟨c, cs, hc, rfl, hcs⟩ := List.map_eq_cons_iff.mp hu
      obtain ⟨t, ht, htu, -⟩ := exec_next hc
      have hstep := failsIff_step (f := f.withTape t) hp (hw c.instruction (by simp))
      have heff : Effect f.program (fun _ => True) True (step c.instruction) _ fun _ => True :=
        effect_step Expr.hereditary_true _
      have hgrows := heff.grows (f.withTape t) (.refl _)
      have htape := heff.tape (f.withTape t) (.refl _)
      rw [List.length_cons, steps, exec_bind, ht]
      dsimp only
      rw [exec_bind]
      cases hs : (step c.instruction).exec (f.withTape t) with
      | mk v f₁ =>
        rw [hs] at hstep hgrows htape
        cases v with
        | error e =>
            obtain ⟨hm, he⟩ := hstep.of_eq_error rfl
            exact .of_error rfl he ⟨_, by simp, hm⟩
        | ok u =>
            have hn := hstep.not_of_ok rfl
            have hrest := ih (f := f₁) (hgrows.tables.handled.trans hp)
              (by rw [htape]; exact (congrArg _ htu).trans hcs)
              (fun i hi => hw i (List.mem_cons_of_mem _ hi))
            exact hrest.congr (by simp [hn])

/-- **A block is carried out to its end, unless it returns too much.** -/
theorem failsIff_runBlock (hp : f.program.handled = Opcode.all)
    (hw : ∀ i ∈ f.block.tape.instructions, i.isWellFormed = true) :
    FailsIff (runBlock.exec f).1 f.block.ReturnsMany := by
  obtain ⟨hexec, hunread⟩ := exec_runBlock f
  rw [hexec]
  exact failsIff_steps (f := f.withTape f.block.tape.rewind) hp hunread hw

end Lift

/-! ### Walks -/

namespace Stage

variable {s : Stage} {a : Int} {b b₀ : Block} {r₀ : Routine} {visited queue : List Int}

/-- A stack can be handed on where there are blocks. -/
theorem exists_seedAll (source : Int) (stack : OperandStack) (ts : List Int)
    (h : ∀ t ∈ ts, t ∈ s.routine.graph.starts) :
    ∃ s', seedAll source stack ts s = (.ok (), s') := by
  induction ts generalizing s with
  | nil => exact ⟨s, rfl⟩
  | cons t ts ih =>
      obtain ⟨b, hb⟩ := Graph.exists_block?_iff.mpr (h t (by simp))
      have hstarts := (s.agrees_seed source stack b).starts
      obtain ⟨s', hs'⟩ := ih (s := s.seed source stack b)
        fun u hu => hstarts ▸ h u (List.mem_cons_of_mem t hu)
      exact ⟨s', by rw [seedAll, hb]; exact hs'⟩

/-- **A visit comes to its end, unless the block returns too much.** -/
theorem Inv.failsIff_visit (hr : r₀.IsDiscovered) (h : Inv r₀ s visited queue)
    (hb₀ : r₀.graph.block? a = some b₀) (hw : ∀ i ∈ b₀.tape.instructions, i.isWellFormed = true) :
    FailsIff (s.visit a).1 b₀.ReturnsMany := by
  obtain ⟨b, hb, hbec⟩ := h.blocks a b₀ hb₀
  have hrun : FailsIff (s.runBlock b).1 b₀.ReturnsMany := by
    have := Lift.failsIff_runBlock (f := ⟨s.program, s.routine, b, b.entryStack, s.events⟩)
      h.handled (by rw [hbec.flow.instructions]; exact hw)
    rw [Block.ReturnsMany, hbec.flow.instructions] at this
    exact this.map _
  unfold Stage.visit
  simp only [hb]
  cases hrb : s.runBlock b with
  | mk v s₁ =>
    rw [hrb] at hrun
    cases v with
    | error e =>
        obtain ⟨hm, he⟩ := hrun.of_eq_error rfl
        exact .of_error rfl he hm
    | ok stack =>
        obtain ⟨b', hran, -, -, -, -, -, hgraph⟩ := runBlock_ran hrb
        obtain ⟨s₂, hseed⟩ := exists_seedAll (s := s₁) a stack b.successors fun t ht => by
          rw [hgraph, Graph.starts_update _ fun _ _ => hran.start, h.starts]
          exact hr.closed b₀ (Graph.mem_of_block? hb₀) t (hbec.flow.successors ▸ ht)
        simp only [hseed]
        exact .of_ok rfl (hrun.not_of_ok rfl)

/-- **A walk comes to its end, unless a block returns too much.** -/
theorem Inv.failsIff_walk (hr : r₀.IsDiscovered)
    (hw : ∀ b₀ ∈ r₀.graph.blocks, ∀ i ∈ b₀.tape.instructions, i.isWellFormed = true)
    (h : Inv r₀ s visited queue) (hq : ∀ c ∈ queue, c ∈ r₀.graph.starts)
    (hv : ∀ c ∈ visited, ∀ b₀, r₀.graph.block? c = some b₀ → ¬ b₀.ReturnsMany) :
    FailsIff (walk r₀.graph.starts s visited queue).1 (∃ b₀ ∈ r₀.graph.blocks, b₀.ReturnsMany) := by
  generalize hk : r₀.graph.starts = keys
  fun_induction walk keys s visited queue with
  | case1 s visited =>
      -- the entry leads to every block, so every block has been visited
      refine .of_ok (a := ()) rfl ?_
      rintro ⟨b₀, hb₀, hm⟩
      have hmem := h.mem_visited hr.nodup (hr.reached _ (Graph.mem_starts hb₀))
      exact hv _ hmem b₀ (Graph.block?_start hr.nodup hb₀) hm
  | case2 s visited a queue ha ih =>
      exact ih (h.skip ha) (fun c hc => hq c (List.mem_cons_of_mem a hc)) hv
  | case3 s visited a queue ha hmem e s' hvisit =>
      obtain ⟨b₀, hb₀⟩ := Graph.exists_block?_iff.mpr (hk ▸ hmem)
      have hb₀mem := Graph.mem_of_block? hb₀
      have hout := h.failsIff_visit hr hb₀ (hw b₀ hb₀mem)
      obtain ⟨hm, he⟩ := hout.of_eq_error (congrArg Prod.fst hvisit)
      exact .of_error rfl he ⟨b₀, hb₀mem, hm⟩
  | case4 s visited a queue ha hmem found s' hvisit ih =>
      obtain ⟨b₀, hb₀⟩ := Graph.exists_block?_iff.mpr (hk ▸ hmem)
      have hout := h.failsIff_visit hr hb₀ (hw b₀ (Graph.mem_of_block? hb₀))
      have hn := hout.not_of_ok (congrArg Prod.fst hvisit)
      obtain ⟨b, b', hvis, rfl⟩ := visited_visit hvisit
      refine ih (h.visit hr.fresh ha hvisit) (fun c hc => ?_) fun c hc c₀ hc₀ => ?_
      · rcases List.mem_append.mp hc with hc | hc
        · exact hq c (List.mem_cons_of_mem a hc)
        · exact h.starts ▸ hvis.targets c (List.mem_filter.mp hc).1
      · rcases List.mem_append.mp hc with hc | hc
        · exact hv c hc c₀ hc₀
        · obtain rfl := List.mem_singleton.mp hc
          obtain rfl : c₀ = b₀ := Option.some.inj (hc₀.symm.trans hb₀)
          exact hn
  | case5 s visited a queue ha hmem => exact absurd (hk ▸ hq a (by simp)) hmem

end Stage

/-! ### Routines -/

namespace Routine

/-- The code of the routine is like what decoding leaves, and an instruction stands at the entry. -/
structure IsSound (r : Routine) : Prop where
  distinct : (r.code.map (·.address)).Nodup
  entry : r.address ∈ r.code.map (·.address)
  wellFormed : ∀ i ∈ r.code, i.isWellFormed = true

/-- The entry leads to a return of more values than one. -/
def ReturnsMany (r : Routine) : Prop :=
  ∃ i, Reachable r.code r.address i ∧ i.returnsMany = true

end Routine

namespace Program

variable {p : Program} {r : Routine} {rs : List Routine}

/-- **Lifting a routine succeeds, unless its entry leads to a return of too many values.** -/
theorem failsIff_lift (hp : p.handled = Opcode.all) (hr : r.IsSound) :
    FailsIff (p.lift r).value r.ReturnsMany := by
  obtain ⟨g, order, events, hinv, hlift⟩ := p.lift_eq_walk hr.distinct hr.entry
  have hdisc := hinv.isDiscovered hr.distinct
  have hexact := hinv.isExact hr.distinct rfl
  have hmany : (∃ b ∈ g.blocks, b.ReturnsMany) ↔ r.ReturnsMany := by
    refine ⟨fun ⟨b, hb, i, hi, hm⟩ => ⟨i, (hexact.covers i).mp ⟨b, hb, hi⟩, hm⟩,
      fun ⟨i, hi, hm⟩ => ?_⟩
    obtain ⟨b, hb, hib⟩ := (hexact.covers i).mpr hi
    exact ⟨b, hb, i, hib, hm⟩
  have hw : ∀ b ∈ g.blocks, ∀ i ∈ b.tape.instructions, i.isWellFormed = true := by
    intro b hb i hi
    obtain ⟨before, behind, hcode⟩ := hexact.run b hb
    have hmem : i ∈ r.code := by
      show i ∈ r.survey.code
      simp [hcode, hi]
    exact hr.wellFormed i hmem
  have hstart : Stage.Inv { r with graph := g, visited := [] }
      (Stage.settled ⟨p, { r with graph := g, visited := [] }, events⟩) [] [r.address] :=
    Stage.inv_start hp
  have hwalk := hstart.failsIff_walk hdisc hw (by simpa using hdisc.origin) (by simp)
  rw [hlift]
  exact hwalk.congr hmany

/-- **Lifting several routines succeeds, unless one of them returns too much.** -/
theorem failsIff_liftAll (hp : p.handled = Opcode.all) (hrs : ∀ r ∈ rs, r.IsSound) :
    FailsIff (p.liftAll rs).value (∃ r ∈ rs, r.ReturnsMany) := by
  induction rs generalizing p with
  | nil => exact .of_ok rfl (by simp)
  | cons r rs ih =>
      have hlift := failsIff_lift hp (hrs r (by simp))
      have htables := sameTables_lift (p := p) (r := r)
      unfold liftAll
      cases hout : p.lift r with
      | mk value state events =>
        rw [hout] at hlift htables
        cases value with
        | error e =>
            obtain ⟨hm, he⟩ := hlift.of_eq_error rfl
            exact .of_error rfl he ⟨r, by simp, hm⟩
        | ok u =>
            have hn := hlift.not_of_ok rfl
            have hrest := ih (p := state.1) ((htables rfl).handled.trans hp)
              fun r hr => hrs r (List.mem_cons_of_mem _ hr)
            exact (hrest.map (state.2 :: ·)).congr (by simp [hn])

/-- What comes out of lifting several routines was lifted, each in its program. -/
theorem lifted_of_mem_liftAll {out : List Routine} (h : (p.liftAll rs).value = .ok out)
    {r' : Routine} (hr' : r' ∈ out) :
    ∃ q r, r ∈ rs ∧ (lift q r).value = .ok () ∧ r' = (lift q r).state.2 := by
  induction rs generalizing p out with
  | nil =>
      cases h
      cases hr'
  | cons r rs ih =>
      unfold liftAll at h
      cases hout : p.lift r with
      | mk value state events =>
        rw [hout] at h
        cases value with
        | error e => cases h
        | ok u =>
            simp only at h
            cases hrest : (liftAll state.1 rs).value with
            | error e => simp [hrest, Except.map] at h
            | ok rest =>
                rw [hrest] at h
                cases h
                rcases List.mem_cons.mp hr' with rfl | hr'
                · exact ⟨p, r, by simp, by rw [hout], by rw [hout]⟩
                · obtain ⟨q, r₁, hr₁, hok, heq⟩ := ih hrest hr'
                  exact ⟨q, r₁, List.mem_cons_of_mem _ hr₁, hok, heq⟩

/-- Entering routines in the table does not change what is carried out. -/
theorem handled_register (p : Program) (rs : List Routine) :
    (p.register rs).handled = p.handled := by
  induction rs generalizing p with
  | nil => rfl
  | cons r rs ih => exact ih _

end Program

/-! ### Pieces of code -/

variable {code c : List Instruction}

/-- No instruction is lost by cutting the code into pieces. -/
theorem flatten_chunks (code : List Instruction) : (chunks code).flatten = code := by
  induction code with
  | nil => rfl
  | cons i rest ih =>
      unfold chunks
      cases hc : chunks rest with
      | nil => simpa [hc] using ih
      | cons c cs =>
          rw [hc] at ih
          dsimp only
          split
          · simpa using ih
          · simpa using ih

/-- No piece of code is empty. -/
theorem ne_nil_of_mem_chunks (h : c ∈ chunks code) : c ≠ [] := by
  induction code generalizing c with
  | nil => simp [chunks] at h
  | cons i rest ih =>
      unfold chunks at h
      cases hc : chunks rest with
      | nil =>
          rw [hc] at h
          simp only [List.mem_singleton] at h
          simp [h]
      | cons d ds =>
          rw [hc] at h ih
          dsimp only at h
          split at h
          · rcases List.mem_cons.mp h with rfl | h
            · simp
            · exact ih h
          · rcases List.mem_cons.mp h with rfl | h
            · simp
            · exact ih (List.mem_cons_of_mem d h)

/-- Code without a head in it is one piece. -/
theorem chunks_eq_singleton (hne : code ≠ []) (h : ∀ i ∈ code, i.isEnter = false) :
    chunks code = [code] := by
  induction code with
  | nil => exact absurd rfl hne
  | cons i rest ih =>
      cases rest with
      | nil => rfl
      | cons j rest =>
          have hj : j.isEnter = false := h j (by simp)
          rw [chunks, ih (by simp) fun i hi => h i (List.mem_cons_of_mem _ hi)]
          simp [hj]

/-- The routine made of a piece of code has this code and is entered at its first instruction. -/
theorem Routine.ofChunk_eq (k : Nat) (c : List Instruction) :
    (ofChunk k c).code = c ∧ (ofChunk k c).address = (c.head?.map (·.address)).getD 0 := by
  unfold ofChunk
  dsimp only
  split <;> exact ⟨rfl, rfl⟩

/-- **The routines that decoded code is cut into are sound.** -/
theorem Routine.isSound_ofChunk (hd : (code.map (·.address)).Nodup)
    (hw : ∀ i ∈ code, i.isWellFormed = true) (hc : c ∈ chunks code) (k : Nat) :
    (ofChunk k c).IsSound := by
  obtain ⟨hcode, haddress⟩ := ofChunk_eq k c
  have hsub : c.Sublist code := by
    rw [← flatten_chunks code]
    exact List.sublist_flatten_of_mem hc
  refine ⟨?_, ?_, ?_⟩
  · rw [hcode]
    exact (hsub.map _).nodup hd
  · rw [hcode, haddress]
    cases c with
    | nil => exact absurd rfl (ne_nil_of_mem_chunks hc)
    | cons i rest => simp
  · rw [hcode]
    exact fun i hi => hw i (hsub.mem hi)

/-- Some piece of the code leads from its first instruction to a return of more values than one. -/
def ReturnsMany (code : List Instruction) : Prop :=
  ∃ c ∈ chunks code, ∃ first ∈ c.head?,
    ∃ i n, Reachable c first.address i ∧ i.returns? = some n ∧ 2 ≤ n

namespace Program

variable {p : Program}

/-- The routines of a program are those of its pieces, each with its number. -/
theorem mem_routines {r : Routine} :
    r ∈ p.routines ↔
      ∃ k, ∃ h : k < (chunks p.code).length, r = .ofChunk k ((chunks p.code)[k]) := by
  simp [routines, List.mem_mapIdx, eq_comm]

/-- No routine of a program is without code. -/
theorem code_ne_nil_of_mem {r : Routine} (h : r ∈ p.routines) : r.code ≠ [] := by
  obtain ⟨k, hk, rfl⟩ := mem_routines.mp h
  rw [(Routine.ofChunk_eq k _).1]
  exact ne_nil_of_mem_chunks (List.getElem_mem hk)

/-- **Lifting a decoded program succeeds, unless some piece of it returns too much.** -/
theorem failsIff_decompile (hp : p.handled = Opcode.all) (hd : (p.code.map (·.address)).Nodup)
    (hw : ∀ i ∈ p.code, i.isWellFormed = true) :
    FailsIff p.decompile.value (ScriptLift.ReturnsMany p.code) := by
  have hsound : ∀ r ∈ p.routines, r.IsSound := by
    intro r hr
    obtain ⟨k, hk, rfl⟩ := mem_routines.mp hr
    exact Routine.isSound_ofChunk hd hw (List.getElem_mem hk) k
  refine (failsIff_liftAll (by rw [handled_register, hp]) hsound).congr ⟨?_, ?_⟩
  · rintro ⟨r, hr, i, hi, hm⟩
    obtain ⟨k, hk, rfl⟩ := mem_routines.mp hr
    obtain ⟨hcode, haddress⟩ := Routine.ofChunk_eq k ((chunks p.code)[k])
    obtain ⟨first, hfirst⟩ := Option.isSome_iff_exists.mp
      (List.isSome_head?.mpr (ne_nil_of_mem_chunks (List.getElem_mem hk)))
    obtain ⟨n, hn, hle⟩ : ∃ n, i.returns? = some n ∧ 2 ≤ n := by
      simpa [Instruction.returnsMany, Option.any_eq_true] using hm
    rw [hcode, haddress, hfirst] at hi
    exact ⟨_, List.getElem_mem hk, first, hfirst, i, n, hi, hn, hle⟩
  · rintro ⟨c, hc, first, hfirst, i, n, hi, hn, hle⟩
    obtain ⟨k, hk, rfl⟩ := List.getElem_of_mem hc
    obtain ⟨hcode, haddress⟩ := Routine.ofChunk_eq k ((chunks p.code)[k])
    refine ⟨_, mem_routines.mpr ⟨k, hk, rfl⟩, i, ?_, ?_⟩
    · rw [hcode, haddress, Option.mem_def.mp hfirst]
      exact hi
    · simp [Instruction.returnsMany, hn, hle]

end Program

end ScriptLift
