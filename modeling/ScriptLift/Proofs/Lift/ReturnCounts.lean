import Mathlib
import ScriptLift.Proofs.Lift.Faults
import ScriptLift.Proofs.Lift.FirstStore
import ScriptLift.Proofs.Lift.Order
import ScriptLift.Proofs.Lift.Untyped

/-!
# How many values a routine gives back

There are two answers.  Calls go by the table of routines, which is made before anything is lifted
and has the number at the first return in the code.  The routine itself keeps the number at the
first return that is carried out.  `Lift.arity?_step` says what one instruction does to the second,
and `Program.arity?_lift` what a whole lift does: the blocks are carried out in the order they stand
in, so the number is that of the first return in this order.

So the two agree exactly where the first return in the code and the first in the blocks give back
equally many values (`Program.callee?_agrees_iff`).  They need not: the first return in the code may
be one that nothing leads to (`Program.callee?_of_dead_return`).
-/

namespace ScriptLift

namespace Routine

/-- How many values are given back at the return sites met so far. -/
def arity? (r : Routine) : Option Int :=
  r.result.map (·.count)

/-- The instructions in the blocks, block by block; a lift carries them out in this order. -/
def carriedOut (r : Routine) : List Instruction :=
  r.graph.blocks.flatMap (·.tape.instructions)

end Routine

/-- How many values an instruction gives back, if the program has returns carried out. -/
def Program.returned? (p : Program) (i : Instruction) : Option Int :=
  if p.handled.contains .leave then i.returns? else none

/-- What an instruction gives back depends on the operations carried out. -/
theorem Program.SameTables.returned? {p p' : Program} (h : p.SameTables p') :
    p'.returned? = p.returned? := by
  funext i
  rw [Program.returned?, Program.returned?, h.handled]

/-! ### One instruction -/

namespace Lift

variable {α β : Type} {m : Lift α} {k : α → Lift β} {f f' : Frame} {i : Instruction}

/-- Whatever comes of the computation, it settles nothing about the result of the routine. -/
def Mute (m : Lift α) : Prop :=
  ∀ f : Frame, (m.exec f).2.routine.result = f.routine.result

/-- Two computations that settle nothing, one behind the other. -/
theorem Mute.bind (h : Mute m) (hk : ∀ a, Mute (k a)) : Mute (m >>= k) := by
  intro f
  have hm := h f
  rw [exec_bind]
  generalize m.exec f = out at hm
  obtain ⟨v, f'⟩ := out
  cases v with
  | error e => exact hm
  | ok a => exact (hk a f').trans hm

/-- What settles nothing leaves the number of values as it is. -/
theorem Mute.arity? (h : Mute m) {v : Except Fault α} (hm : m.exec f = (v, f')) :
    f'.routine.arity? = f.routine.arity? := by
  have hresult := h f
  rw [hm] at hresult
  exact congrArg (Option.map (·.count)) hresult

theorem mute_pure (a : α) : Mute (pure a : Lift α) :=
  fun _ => rfl

theorem mute_throw (e : Fault) : Mute (throw e : Lift α) :=
  fun _ => rfl

theorem mute_get : Mute (get : Lift Frame) :=
  fun _ => rfl

theorem mute_liftM (x : Except Fault α) : Mute (liftM x : Lift α) := by
  intro f
  rw [exec_liftM]

theorem mute_push (e : Expr) : Mute (push e) :=
  fun _ => rfl

theorem mute_pop : Mute pop :=
  fun _ => rfl

theorem mute_popMany (n : Int) : Mute (popMany n) :=
  fun _ => rfl

theorem mute_report (e : Event) : Mute (report e) :=
  fun _ => rfl

theorem mute_emit (s : Stmt) : Mute (emit s) :=
  fun _ => rfl

/-- A local that is declared is no result. -/
theorem mute_locate (s : Storage) (i : Instruction) : Mute (locate s i) := by
  refine (mute_liftM i.slot).bind fun n => ?_
  cases s with
  | «local» =>
      intro f
      simp only [exec_bind, exec_get, exec_liftM]
      cases h : f.routine.slot n with
      | error e => rfl
      | ok out =>
          obtain ⟨ref, r⟩ := out
          obtain ⟨locals, rfl⟩ := Routine.slot_ok h
          rfl
  | static | global => exact mute_pure _

/-- Nor is the type that a store tells. -/
theorem mute_store (ref : Reference) : Mute (store ref) := by
  refine mute_pop.bind fun value => Mute.bind (fun f => ?_) fun _ => mute_emit _
  obtain ⟨inputs, locals, h⟩ := f.routine.learn_eq ref.place (value.type f.typeOf)
  exact congrArg (·.result) h

theorem mute_binary (op : String) (t : DataType) : Mute (binary op t) :=
  mute_pop.bind fun _ => mute_pop.bind fun _ => mute_push _

/-- What a call gives back is no result of the routine it is made in. -/
theorem mute_invoke (name : String) (args returns : Int) (t : DataType) :
    Mute (invoke name args returns t) := by
  refine (mute_popMany args).bind fun es => ?_
  split
  · exact mute_emit _
  split
  · exact Mute.bind (mute_report _) fun _ => mute_push _
  · exact mute_push _

theorem mute_callRoutine (target : Int) : Mute (callRoutine target) := by
  refine mute_get.bind fun f => ?_
  split
  · exact mute_invoke _ _ _ _
  · exact (mute_report _).bind fun _ => mute_emit _

/-- A conditional jump gives nothing back. -/
theorem mute_branch (i : Instruction) (condition : Expr) : Mute (branch i condition) := by
  refine (mute_liftM _).bind fun target => mute_get.bind fun f => ?_
  split
  · exact (mute_emit _).bind fun _ => mute_emit _
  · exact (mute_emit _).bind fun _ _ => rfl

theorem mute_forM_push (vs : List Literal) : Mute (vs.forM fun v => push (.ofLiteral v)) := by
  induction vs with
  | nil => exact mute_pure _
  | cons v vs ih => exact (mute_push _).bind fun _ => ih

/-- **Only a return settles how many values are given back.** -/
theorem mute_execute {o : Opcode} (h : o ≠ .leave) (i : Instruction) : Mute (execute o i) := by
  cases o with
  | nop | enter => exact mute_pure _
  | push =>
      simp only [execute]
      split
      · exact mute_forM_push _
      · exact mute_throw _
  | dup => exact Mute.bind (fun _ => rfl) fun _ => mute_push _
  | drop =>
      refine mute_pop.bind fun e => ?_
      split
      · exact mute_emit _
      · exact mute_pure _
  | load s => exact (mute_locate s i).bind fun _ => mute_push _
  | store s => exact (mute_locate s i).bind fun _ => mute_store _
  | int | float | intCompare | floatCompare => exact mute_binary _ _
  | unary o => exact mute_pop.bind fun _ => mute_push _
  | native =>
      simp only [execute]
      split
      · exact mute_invoke _ _ _ _
      · exact mute_throw _
  | call =>
      simp only [execute]
      split
      · exact mute_callRoutine _
      · exact mute_throw _
  | leave => exact absurd rfl h
  | jump => exact (mute_liftM _).bind fun _ => mute_emit _
  | jumpIfZero => exact mute_pop.bind fun _ => mute_branch _ _
  | compareJump r => exact mute_pop.bind fun _ => mute_pop.bind fun _ => mute_branch _ _

theorem mute_skip (i : Instruction) : Mute (skip i) :=
  mute_get.bind fun _ => (mute_report _).bind fun _ => mute_emit _

/-- **Only a return settles something about the result.** -/
theorem mute_step (h : i.kind ≠ .op .leave) : Mute (step i) := by
  unfold step
  split
  · rename_i o ho
    refine mute_get.bind fun f => ?_
    split
    · exact mute_execute (fun hl => h (hl ▸ ho)) i
    · exact mute_skip i
  · exact mute_skip i

/-- A return that is not refused leaves the number of its values, if there was none before. -/
theorem arity?_leave {n : Int} (h : (leave n).exec f = (.ok (), f')) :
    f'.routine.arity? = f.routine.arity?.or (some n) := by
  unfold leave at h
  by_cases hn : n = 0 ∨ n = 1
  · have hlt : ¬ 1 < n := by omega
    obtain ⟨result, events, hcount, hinfer⟩ := exec_inferReturn hn (f.stack.popMany n.toNat).1
      { f.report (f.stack.popMany n.toNat).2.2 with stack := (f.stack.popMany n.toNat).2.1 }
    simp only [hlt, if_false, exec_bind, exec_popMany, hinfer, exec_emit] at h
    cases h
    exact hcount
  · by_cases hlt : 1 < n <;> simp [hlt, exec_bind, exec_inferReturn_of_not hn] at h

/-- **What an instruction does to the number of values given back**: a return settles it, if none
before has, and nothing else does. -/
theorem arity?_step (h : (step i).exec f = (.ok (), f')) :
    f'.routine.arity? = f.routine.arity?.or (f.program.returned? i) := by
  by_cases hk : i.kind = .op .leave
  · by_cases hl : .leave ∈ f.program.handled
    · simp only [step, hk, exec_bind, exec_get, hl, if_true, execute] at h
      split at h
      · rename_i args n hos
        rw [arity?_leave h]
        simp [Program.returned?, Instruction.returns?, hk, hos, hl]
      · cases h
    · simp only [step, hk, exec_bind, exec_get, hl, if_false] at h
      rw [(mute_skip i).arity? h]
      simp [Program.returned?, hl]
  · have hnone : i.returns? = none := by
      unfold Instruction.returns?
      split
      · rename_i hk' _
        exact absurd hk' hk
      · rfl
    rw [(mute_step hk).arity? h]
    simp [Program.returned?, hnone]

/-- **The first return that is carried out settles the number.** -/
theorem Runs.arity? {h : List Moment} {out : Except Fault Unit × Frame} (hr : Runs f h out)
    (hok : out.1 = .ok ()) :
    out.2.routine.arity?
      = f.routine.arity?.or ((h.map (·.instruction)).findSome? f.program.returned?) := by
  induction hr with
  | done t => simp [Frame.withTape]
  | ended t e => cases hok
  | fault _ => cases hok
  | @more f f' t i h out hs _ ih =>
      have heffect : Effect f.program (fun _ => True) True (step i) _ fun _ => True :=
        effect_step Expr.hereditary_true _
      have htables : f.program.SameTables f'.program := by
        have := (heffect.grows (f.withTape t) (.refl _)).tables
        rwa [hs] at this
      have hfirst : ((⟨f.withTape t, i⟩ :: h).map (·.instruction)).findSome? f.program.returned?
          = (f.program.returned? i).or ((h.map (·.instruction)).findSome? f.program.returned?) := by
        rw [List.map_cons, List.findSome?_cons]
        cases f.program.returned? i <;> rfl
      rw [ih hok, arity?_step hs, htables.returned?, hfirst, Option.or_assoc]
      rfl

end Lift

/-! ### One block after the other -/

/-- The instructions of the block at an address. -/
def Graph.codeAt (g : Graph) (a : Int) : List Instruction :=
  ((g.block? a).map (·.tape.instructions)).getD []

/-- The instructions at an address are those of its block. -/
theorem Graph.codeAt_of_block? {g : Graph} {a : Int} {b : Block} (h : g.block? a = some b) :
    g.codeAt a = b.tape.instructions := by
  rw [codeAt, h, Option.map_some, Option.getD_some]

namespace Stage

variable {s s' : Stage} {a : Int} {b b' : Block} {found : List Int}

theorem result_seed (source : Int) (stack : OperandStack) (s : Stage) (b : Block) :
    (s.seed source stack b).routine.result = s.routine.result := by
  unfold seed
  split
  · split <;> rfl
  · rfl

/-- Handing stacks on to other blocks settles nothing. -/
theorem result_seedAll (source : Int) (stack : OperandStack) (ts : List Int) (s : Stage) :
    (seedAll source stack ts s).2.routine.result = s.routine.result := by
  fun_induction seedAll source stack ts s with
  | case1 => rfl
  | case2 a rest s b hb ih => exact ih.trans (result_seed source stack s b)
  | case3 => rfl

/-- **A visit settles the number of values given back, if the block returns and none has
before.** -/
theorem arity?_visit (h : s.visit a = (.ok found, s')) :
    s'.routine.arity?
      = s.routine.arity?.or ((s.routine.graph.codeAt a).findSome? s.program.returned?) := by
  unfold visit at h
  split at h
  · cases h
  rename_i b hb
  rw [Graph.codeAt_of_block? hb]
  unfold runBlock at h
  cases hrun : Lift.runBlock.exec ⟨s.program, s.routine, b, b.entryStack, s.events⟩ with
  | mk v f =>
    cases v with
    | error e =>
        rw [hrun] at h
        cases h
    | ok u =>
        have hruns := Frame.runs_runBlock ⟨s.program, s.routine, b, b.entryStack, s.events⟩
        rw [hrun] at hruns
        have hcount := hruns.arity? rfl
        rw [Frame.instructions_moments hrun] at hcount
        rw [hrun] at h
        dsimp only [Except.map] at h
        split at h
        · cases h
        rename_i s₂ hseed
        cases h
        have hresult := result_seedAll a f.stack b.successors
          ⟨f.program, { f.routine with graph := f.routine.graph.update b.start fun _ => f.block },
            f.events⟩
        rw [hseed] at hresult
        rw [← hcount]
        exact congrArg (Option.map (·.count)) hresult

/-- A visit leaves the instructions of the blocks as they are. -/
theorem Visited.codeAt (h : s.Visited a b b' s') (c : Int) :
    s'.routine.graph.codeAt c = s.routine.graph.codeAt c := by
  rw [Graph.codeAt, Graph.codeAt,
    h.map_block? (fun stack d => (d.sameFlow_settle stack).instructions) h.ran.instructions]

/-- What several visits settle, and what they leave as it is. -/
theorem arity?_visitAll {order : List Int} (h : visitAll order s = (.ok (), s')) :
    s'.routine.graph.codeAt = s.routine.graph.codeAt ∧
      s'.routine.arity? = s.routine.arity?.or
        ((order.flatMap s.routine.graph.codeAt).findSome? s.program.returned?) := by
  induction order generalizing s with
  | nil =>
      cases h
      simp
  | cons a order ih =>
      unfold visitAll at h
      split at h
      · cases h
      rename_i found s₁ hv
      obtain ⟨b, b', hvis, -⟩ := visited_visit hv
      obtain ⟨hcode, hcount⟩ := ih h
      have hcode₁ : s₁.routine.graph.codeAt = s.routine.graph.codeAt := funext hvis.codeAt
      rw [hcode₁] at hcode hcount
      rw [hvis.tables.returned?, arity?_visit hv, Option.or_assoc] at hcount
      exact ⟨hcode, by rw [hcount, List.flatMap_cons, List.findSome?_append]⟩

end Stage

/-! ### Whole routines -/

/-- With one block for each start, the instructions can be collected by way of the starts. -/
theorem Graph.flatMap_codeAt {g : Graph} (hn : g.starts.Nodup) :
    g.starts.flatMap g.codeAt = g.blocks.flatMap (·.tape.instructions) := by
  rw [starts, List.flatMap_map]
  exact List.flatMap_congr fun b hb => codeAt_of_block? (block?_start hn hb)

/-- The entry stack that a walk starts with is no code. -/
theorem Stage.codeAt_settled (s : Stage) :
    s.settled.routine.graph.codeAt = s.routine.graph.codeAt := by
  funext c
  rw [Graph.codeAt, Graph.codeAt, map_block?_settled fun _ => rfl]

namespace Program

variable {p : Program} {r : Routine} {rs : List Routine}

/-- **The number of values given back is that of the first return in the blocks**, if none was met
before the lift.  The instructions in the blocks are those that discovery has put there. -/
theorem arity?_lift (hcode : r.code ≠ []) (h : (p.lift r).value = .ok ()) :
    (p.lift r).state.2.carriedOut = r.discover.state.carriedOut ∧
      (p.lift r).state.2.arity?
        = r.arity?.or ((p.lift r).state.2.carriedOut.findSome? p.returned?) := by
  obtain ⟨order, s, hvalue, hnodup, hcreated, hall, hlift⟩ := visits_lift hcode h
  obtain ⟨order', hvalue', -, hstarts, -⟩ := reported_lift hcode h
  obtain rfl : order' = order := Except.ok.inj (hvalue'.symm.trans hvalue)
  obtain ⟨hcodeAt, harity⟩ := Stage.arity?_visitAll hall
  rw [Stage.codeAt_settled] at hcodeAt harity
  have hresult : r.discover.state.arity? = r.arity? := by
    cases hdisc : r.discover with
    | mk v r₀ events =>
      rw [hdisc] at hvalue
      cases hvalue
      obtain ⟨-, -, rfl, -⟩ := Routine.discover_eq_walk hcode hdisc
      rfl
  have hbefore : order'.flatMap r.discover.state.graph.codeAt = r.discover.state.carriedOut := by
    rw [← hcreated, Graph.flatMap_codeAt (hcreated ▸ hnodup), Routine.carriedOut]
  have hafter : (p.lift r).state.2.carriedOut = r.discover.state.carriedOut := by
    rw [Routine.carriedOut, ← Graph.flatMap_codeAt (hstarts ▸ hnodup), hstarts, ← hbefore,
      ← hcodeAt, hlift]
  refine ⟨hafter, ?_⟩
  rw [hafter, ← hresult, ← hbefore, hlift]
  exact harity

/-- In code with distinct addresses, nothing is carried out but what stands in the code. -/
theorem mem_code_of_carriedOut (hd : (r.code.map (·.address)).Nodup) (hcode : r.code ≠ [])
    (h : (p.lift r).value = .ok ()) {i : Instruction} (hi : i ∈ (p.lift r).state.2.carriedOut) :
    i ∈ r.code := by
  rw [(arity?_lift hcode h).1] at hi
  obtain ⟨b, hb, hib⟩ := List.mem_flatMap.mp hi
  obtain ⟨-, -, hexact⟩ := r.discover_isExact hd (entry_mem_of_lift hcode h)
  obtain ⟨before, behind, hrun⟩ := hexact.run b hb
  rw [hrun]
  simp [hib]

/-- A lift keeps the code of a routine and its address. -/
theorem code_lift (hcode : r.code ≠ []) (h : (p.lift r).value = .ok ()) :
    (p.lift r).state.2.code = r.code ∧ (p.lift r).state.2.address = r.address :=
  lift_induct (P := fun s => s.routine.code = r.code ∧ s.routine.address = r.address)
    (fun hdisc => by
      obtain ⟨-, -, rfl, -⟩ := Routine.discover_eq_walk hcode hdisc
      exact ⟨rfl, rfl⟩)
    id (fun _ hs hv => ⟨hv.code.trans hs.1, hv.address.trans hs.2⟩) id h

/-! ### The table of routines -/

/-- Registering routines changes nothing at other addresses. -/
theorem callee?_register_of_not_mem {a : Int} (ha : a ∉ rs.map (·.address)) :
    (p.register rs).callee? a = p.callee? a := by
  induction rs generalizing p with
  | nil => rfl
  | cons q rs ih =>
      rw [List.map_cons, List.mem_cons, not_or] at ha
      have hne : (a == q.address) = false := by simpa using ha.1
      rw [register, List.foldl_cons]
      refine (ih ha.2).trans ?_
      rw [callee?, callee?, List.lookup_cons, hne]

/-- With distinct addresses no routine takes the place of another. -/
theorem callee?_register (hn : (rs.map (·.address)).Nodup) (hr : r ∈ rs) :
    (p.register rs).callee? r.address = some r.callee := by
  induction rs generalizing p with
  | nil => cases hr
  | cons q rs ih =>
      rw [List.map_cons, List.nodup_cons] at hn
      rcases List.mem_cons.mp hr with rfl | hr
      · rw [register, List.foldl_cons]
        refine (callee?_register_of_not_mem hn.1).trans ?_
        simp [callee?]
      · exact ih hn.2 hr

/-- Lifting routines leaves the tables of the program alone. -/
theorem sameTables_liftAll {out : List Routine} (h : (p.liftAll rs).value = .ok out) :
    p.SameTables (p.liftAll rs).state := by
  induction rs generalizing p out with
  | nil => exact .refl p
  | cons r rs ih =>
      cases hv : (p.lift r).value with
      | error e =>
          rw [(liftAll_of_error hv).1] at h
          cases h
      | ok u =>
          have hcons := @liftAll_of_ok p r rs hv
          rw [hcons.1] at h
          cases hrest : ((p.lift r).state.1.liftAll rs).value with
          | error e =>
              rw [hrest] at h
              cases h
          | ok rest =>
              rw [hcons.2]
              exact (sameTables_lift hv).trans (ih hrest)

end Program

/-- The first addresses of pieces of code that are not empty stand in the whole in this order. -/
theorem sublist_heads {cs : List (List Instruction)} (hcs : ∀ c ∈ cs, c ≠ []) :
    (cs.map fun c => (c.head?.map (·.address)).getD 0).Sublist (cs.flatten.map (·.address)) := by
  induction cs with
  | nil => exact .slnil
  | cons c cs ih =>
      obtain ⟨hc, hrest⟩ := List.forall_mem_cons.mp hcs
      obtain ⟨i, c, rfl⟩ := List.exists_cons_of_ne_nil hc
      rw [List.map_cons, List.flatten_cons, List.map_append]
      exact ((ih hrest).trans (List.sublist_append_right _ _)).cons_cons i.address

namespace Program

variable {p : Program}

/-- Routines of distinct instructions have distinct addresses. -/
theorem nodup_routines (hd : (p.code.map (·.address)).Nodup) :
    (p.routines.map (·.address)).Nodup := by
  have heads : p.routines.map (·.address)
      = (chunks p.code).map fun c => (c.head?.map (·.address)).getD 0 := by
    refine List.ext_getElem (by simp [routines]) fun k hk _ => ?_
    simp only [routines, List.getElem_map, List.getElem_mapIdx, (Routine.ofChunk_eq k _).2]
  rw [heads]
  refine (sublist_heads fun c hc => ne_nil_of_mem_chunks hc).nodup ?_
  rwa [flatten_chunks]

/-- A routine that is made of a piece of code has some code, with distinct addresses if the program
has them, and no return site was met in it. -/
theorem fresh_of_mem_routines (hd : (p.code.map (·.address)).Nodup) {r : Routine}
    (hr : r ∈ p.routines) :
    r.code ≠ [] ∧ (r.code.map (·.address)).Nodup ∧ r.arity? = none := by
  obtain ⟨k, hk, rfl⟩ := mem_routines.mp hr
  have hmem : (chunks p.code)[k] ∈ chunks p.code := List.getElem_mem hk
  rw [(Routine.ofChunk_eq k _).1]
  refine ⟨ne_nil_of_mem_chunks hmem, ?_, ?_⟩
  · rw [← flatten_chunks p.code] at hd
    exact ((List.sublist_flatten_of_mem hmem).map _).nodup hd
  · unfold Routine.ofChunk
    dsimp only
    split <;> rfl

/-- What is met while returns are carried out is what the instructions say. -/
theorem findSome?_returned? {is : List Instruction} {n : Int}
    (h : is.findSome? p.returned? = some n) :
    is.findSome? (·.returns?) = some n := by
  by_cases hl : p.handled.contains .leave = true
  · rw [← h]
    congr 1
    funext i
    rw [returned?, if_pos hl]
  · obtain ⟨i, -, hi⟩ := List.exists_of_findSome?_eq_some h
    rw [returned?, if_neg hl] at hi
    cases hi

/-- What is known of the only routine that comes out is known of a routine. -/
theorem eq_singleton_of_map {α : Type} {v : Except Fault (List Routine)} {g : Routine → α} {a : α}
    (h : v.map (·.map g) = .ok [a]) : ∃ r, v = .ok [r] ∧ g r = a := by
  cases v with
  | error e => cases h
  | ok rs =>
      obtain ⟨r, rfl, hr⟩ := List.map_eq_singleton_iff.mp (Except.ok.inj h)
      exact ⟨r, rfl, hr⟩

/-- **A call and the routine that it calls agree on the number of values given back** exactly if the
first return in the code of the routine gives back as many as the first that was carried out. -/
theorem callee?_agrees_iff (p : Program) (hd : (p.code.map (·.address)).Nodup) {rs : List Routine}
    (h : p.decompile.value = .ok rs) {r : Routine} (hr : r ∈ rs) {known : Result}
    (hknown : r.result = some known) :
    (p.decompile.state.callee? r.address).map (·.returns) = some known.count ↔
      r.code.findSome? (·.returns?) = r.carriedOut.findSome? (·.returns?) := by
  obtain ⟨q, r₀, hr₀, hok, rfl⟩ := lifted_of_mem_liftAll h hr
  obtain ⟨hne, hdistinct, hfresh⟩ := fresh_of_mem_routines hd hr₀
  obtain ⟨hcode, haddress⟩ := code_lift hne hok
  have hkept : (q.lift r₀).state.2.carriedOut.findSome? (·.returns?) = some known.count := by
    have harity := (arity?_lift hne hok).2
    rw [hfresh, Option.none_or, Routine.arity?, hknown] at harity
    exact findSome?_returned? harity.symm
  -- the return that was carried out is one of the code, so there is a first one
  obtain ⟨n, hn⟩ : ∃ n, r₀.code.findSome? (·.returns?) = some n := by
    obtain ⟨i, hi, hreturns⟩ := List.exists_of_findSome?_eq_some hkept
    rw [← Option.isSome_iff_exists, List.isSome_findSome?, List.any_eq_true]
    exact ⟨i, mem_code_of_carriedOut hdistinct hne hok hi, by simp [hreturns]⟩
  have htable : p.decompile.state.callee? r₀.address = some r₀.callee := by
    rw [decompile, (sameTables_liftAll h).callee?, callee?_register (nodup_routines hd) hr₀]
  rw [hcode, haddress, hkept, htable, hn, Option.map_some, Routine.callee, declaredReturns, hn,
    Option.getD_some]

/-- A return that nothing leads to stands first, and a return of nothing last; both the one that is
carried out first and the one that stands first give back one value. -/
theorem callee?_agrees_iff_branching :
    let p : Program := {
      name := "script"
      code := [⟨0, .op .enter, .enter 0 0 "f"⟩, ⟨1, .op .jump, .branch 4⟩,
        ⟨2, .op .push, .push [.int 5]⟩, ⟨3, .op .leave, .ret 0 1⟩,
        ⟨4, .op (.load .static), .slot 0⟩, ⟨5, .op .jumpIfZero, .branch 8⟩,
        ⟨6, .op .push, .push [.int 7]⟩, ⟨7, .op .leave, .ret 0 1⟩, ⟨8, .op .leave, .ret 0 0⟩] }
    (p.code.map (·.address)).Nodup ∧
      ∃ r known, p.decompile.value = .ok [r] ∧ r.result = some known ∧
        (p.decompile.state.callee? r.address).map (·.returns) = some known.count := by
  intro p
  have hd : (p.code.map (·.address)).Nodup := by decide
  have hrun : p.decompile.value.map (·.map fun r =>
        (r.result, r.code.findSome? (·.returns?), r.carriedOut.findSome? (·.returns?)))
      = .ok [(some ⟨1, .int⟩, some 1, some 1)] := by cbv
  obtain ⟨r, hvalue, hr⟩ := eq_singleton_of_map hrun
  obtain ⟨hresult, hfirst⟩ := Prod.mk.inj hr
  obtain ⟨hcode, hcarried⟩ := Prod.mk.inj hfirst
  exact ⟨hd, r, _, hvalue, hresult,
    (callee?_agrees_iff p hd hvalue (by simp) hresult).mpr (hcode.trans hcarried.symm)⟩

/-- The first return in the code gives back nothing, and nothing leads to it: by the table the
routine has no value to give back, but it gives back one. -/
theorem callee?_of_dead_return :
    let p : Program := {
      name := "script"
      code := [⟨0, .op .enter, .enter 0 0 "f"⟩, ⟨1, .op .jump, .branch 3⟩,
        ⟨2, .op .leave, .ret 0 0⟩, ⟨3, .op .push, .push [.int 7]⟩, ⟨4, .op .leave, .ret 0 1⟩] }
    (p.code.map (·.address)).Nodup ∧
      ∃ r known, p.decompile.value = .ok [r] ∧ r.result = some known ∧ known.count = 1 ∧
        (p.decompile.state.callee? r.address).map (·.returns) = some 0 := by
  intro p
  have hd : (p.code.map (·.address)).Nodup := by decide
  have hrun : p.decompile.value.map (·.map fun r => (r.address, r.result))
      = .ok [(0, some ⟨1, .int⟩)] := by cbv
  have htable : (p.decompile.state.callee? 0).map (·.returns) = some 0 := by cbv
  obtain ⟨r, hvalue, hr⟩ := eq_singleton_of_map hrun
  obtain ⟨haddress, hresult⟩ := Prod.mk.inj hr
  exact ⟨hd, r, _, hvalue, hresult, rfl, by rw [haddress, htable]⟩

end Program

end ScriptLift
