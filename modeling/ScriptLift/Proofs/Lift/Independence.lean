import ScriptLift.Proofs.Layout.Text
import ScriptLift.Proofs.Lift.Faults
import ScriptLift.Proofs.Lift.Untyped

/-!
# Lifting in any order

The routines of a program may be lifted one by one, in any order and any number of times
(`Session`).  They share the table of routines, which no lift changes, and what is known of the
types of static and global variables, which makes no difference to what is lifted
(`Program.lift_inStep`).  A routine that is lifted again has the locals of the last time, and the
second time declares no others (`declareAll_declareAll`).

So each routine has one value or fault, which every call for it comes to, and each call leaves it
the same up to types (`Program.leaves_lift`).  A run of calls therefore comes to what one pass over
the routines comes to (`Program.liftEach_agrees`).
-/

namespace ScriptLift

/-! ### Routines without types -/

namespace Routine

/-- The routine without what is known of types. -/
def untyped (r : Routine) : Routine :=
  { r with
    inputs := r.inputs.map fun v => { v with type := .unknown }
    locals := r.locals.map Local.untyped
    result := r.result.map fun known => { known with type := .unknown } }

variable {r s t : Routine} {touched : List Nat} {returned : List Int}

/-- The inputs of twins have the same names. -/
theorem Twin.inputs (h : r.Twin s) :
    s.inputs.map (fun v => { v with type := .unknown })
      = r.inputs.map fun v => { v with type := .unknown } := by
  refine List.ext_getElem (by simpa using h.names.inputs) fun n hs hr => ?_
  have hname := congrArg (·.name) (h.names.slots n)
  simp only [List.length_map] at hs hr
  simp only [localRef, hs, hr, if_true, List.getElem?_eq_getElem, Option.getD_some] at hname
  simp [hname]

/-- Twins with the same locals, results, blocks and labels are the same up to types. -/
theorem untyped_eq (h : r.Twin s) (hl : s.locals.map Local.untyped = r.locals.map Local.untyped)
    (hc : s.result.map (·.count) = r.result.map (·.count)) (hg : s.graph = r.graph)
    (hv : s.visited = r.visited) (hb : s.labels = r.labels) : s.untyped = r.untyped := by
  have hresult : ∀ result : Option Result, (result.map fun known => { known with type := .unknown })
      = (result.map (·.count)).map fun count => ⟨count, .unknown⟩ := by
    intro result
    cases result <;> rfl
  rw [untyped, untyped, h.name, h.address, h.code, h.inputs, hl, hresult, hc, hg, hv, hb, ← hresult]

/-- What a lift has used, the next one uses without effect. -/
theorem Uses.again (h : r.Uses touched returned t) (hs : s.untyped = t.untyped) :
    s.labels = r.labels ∧
      declareAll r.inputs.length (s.locals.map Local.untyped) touched = t.locals.map Local.untyped ∧
      (s.result.map (·.count)).or returned.head? = t.result.map (·.count) := by
  have hlocals : s.locals.map Local.untyped = t.locals.map Local.untyped := congrArg (·.locals) hs
  have hcount : s.result.map (·.count) = t.result.map (·.count) := by
    simpa [untyped, Function.comp_def] using
      congrArg (fun r : Routine => r.result.map (·.count)) hs
  refine ⟨(congrArg (·.labels) hs).trans h.labels, ?_, ?_⟩
  · rw [hlocals, h.locals, declareAll_declareAll]
  · rw [hcount, h.count, Option.or_assoc, Option.or_self]

end Routine

namespace Program

variable {p q : Program} {r s : Routine}

/-- Up to types, `s` is what a lift of `r` in `p` leaves. -/
structure Leaves (p : Program) (r s : Routine) : Prop where
  twin : r.Twin s
  untyped : s.untyped = (p.lift r).state.2.untyped

/-- **To lift a routine again changes nothing but types.** -/
theorem leaves_lift (hp : p.SameTables q) (hcode : r.code ≠ []) (h : s = r ∨ p.Leaves r s) :
    (q.lift s).value = (p.lift r).value ∧ p.SameTables (q.lift s).state.1 ∧
      p.Leaves r (q.lift s).state.2 := by
  have htwin : r.Twin s := by
    rcases h with rfl | h
    · exact .refl s
    · exact h.twin
  obtain ⟨hvalue, hstep⟩ := lift_inStep hp htwin hcode
  obtain ⟨touched, returned, h₁, h₂⟩ := hstep.uses
  refine ⟨hvalue, hstep.right, htwin.trans h₂.toTwin, ?_⟩
  -- if `r` was lifted before, all that this lift touches was declared then
  have hagain : s.labels = r.labels ∧
      declareAll r.inputs.length (s.locals.map Local.untyped) touched
        = (p.lift r).state.2.locals.map Local.untyped ∧
      (s.result.map (·.count)).or returned.head? = (p.lift r).state.2.result.map (·.count) := by
    rcases h with rfl | h
    · exact ⟨rfl, h₁.locals.symm, h₁.count.symm⟩
    · exact h₁.again h.untyped
  obtain ⟨hlabels, hlocals, hcount⟩ := hagain
  refine Routine.untyped_eq hstep.twins ?_ ?_ hstep.graph hstep.visited ?_
  · rw [h₂.locals, htwin.names.inputs, hlocals]
  · rw [h₂.count, hcount]
  · rw [h₂.labels, h₁.labels, hlabels]

end Program

/-! ### What is shown of a routine -/

/-- A line of such statements is written alike whatever is known. -/
theorem Line.IsFrom.isUntyped {l : Line} (h : l.IsFrom Stmt.IsUntyped)
    (known known' : Place → DataType) : l.text known' = l.text known := by
  cases l with
  | simple indent s => rw [text, text, h known known']
  | opening | otherwise | closing | label | goto => rfl

/-- The routines show the same but for types, with what is known of the places outside them. -/
structure Routine.Agrees (r : Routine) (shared : Typing) (s : Routine) (shared' : Typing) :
    Prop where
  /-- They have the same blocks, with the same edges and the same statements. -/
  graph : s.graph = r.graph
  /-- The lines of their bodies read the same. -/
  lines : s.lines.map (·.text (s.typeOf shared')) = r.lines.map (·.text (r.typeOf shared))
  /-- They declare the same locals. -/
  locals : s.declaredLocals.map (·.name) = r.declaredLocals.map (·.name)
  /-- Nothing else of them differs either. -/
  untyped : s.untyped = r.untyped

/-- What is shown of a routine depends on types only where it names them. -/
theorem Routine.agrees_of_untyped {r s : Routine} (h : s.untyped = r.untyped)
    (hr : r.graph.IsUntyped) (shared shared' : Typing) : r.Agrees shared s shared' := by
  have hgraph : s.graph = r.graph := congrArg (·.graph) h
  have haddress : s.address = r.address := congrArg (·.address) h
  have hlines : s.lines = r.lines := by
    simp only [Routine.lines, neededLabels, body, hgraph, haddress]
  have hdeclared : ∀ t : Routine, t.declaredLocals.map (·.name)
      = (t.untyped.locals.filter (·.declared)).map (·.name) := by
    intro t
    simp [declaredLocals, Routine.untyped, List.filter_map, Function.comp_def, Local.untyped]
  refine ⟨hgraph, ?_, ?_, h⟩
  · rw [hlines]
    refine List.map_congr_left fun l hl => ?_
    have hfrom : l.IsFrom Stmt.IsUntyped :=
      isFrom_lines (fun a b hb => hr b (Graph.mem_of_block? hb)) l hl
    exact hfrom.isUntyped _ _
  · rw [hdeclared, hdeclared, h]

theorem Program.Leaves.agrees {p : Program} {r s s' : Routine} (h : p.Leaves r s)
    (h' : p.Leaves r s') (hcode : r.code ≠ []) (shared shared' : Typing) :
    s.Agrees shared s' shared' := by
  have hgraph : s.graph = (p.lift r).state.2.graph := congrArg (·.graph) h.untyped
  refine Routine.agrees_of_untyped (h'.untyped.trans h.untyped.symm) ?_ shared shared'
  rw [hgraph]
  exact (Program.lift_inStep (.refl p) (.refl r) hcode).2.untyped

/-! ### Runs of lifts -/

/-- A program and its routines, each as it was lifted last. -/
structure Session (n : Nat) where
  program : Program
  routines : Fin n → Routine

namespace Session

variable {n : Nat} {p : Program} {base : Fin n → Routine} {done : List (Fin n)} {s : Session n}

/-- Lift one of the routines. -/
def lift (s : Session n) (k : Fin n) : Except Fault Unit × Session n :=
  let out := s.program.lift (s.routines k)
  (out.value, ⟨out.state.1, fun j => if j = k then out.state.2 else s.routines j⟩)

/-- Lift routines one after the other, going on after a fault.  The result is what each call came
to, and the session behind the last. -/
def liftEach : Session n → List (Fin n) → List (Except Fault Unit) × Session n
  | s, [] => ([], s)
  | s, k :: calls =>
    let (value, s) := s.lift k
    let (values, s) := s.liftEach calls
    (value :: values, s)

/-- The routines in `done` are as a lift in `p` leaves them, and the others as at first. -/
structure Settled (p : Program) (base : Fin n → Routine) (done : List (Fin n)) (s : Session n) :
    Prop where
  tables : p.SameTables s.program
  lifted : ∀ k ∈ done, p.Leaves (base k) (s.routines k)
  fresh : ∀ k ∉ done, s.routines k = base k

/-- One call comes to the value of its routine. -/
theorem Settled.lift (h : s.Settled p base done) (hcode : ∀ k, (base k).code ≠ []) (k : Fin n) :
    (s.lift k).1 = (p.lift (base k)).value ∧ (s.lift k).2.Settled p base (done ++ [k]) := by
  have hk : s.routines k = base k ∨ p.Leaves (base k) (s.routines k) := by
    by_cases hd : k ∈ done
    · exact Or.inr (h.lifted k hd)
    · exact Or.inl (h.fresh k hd)
  obtain ⟨hvalue, htables, hleaves⟩ := Program.leaves_lift h.tables (hcode k) hk
  refine ⟨hvalue, htables, fun j hj => ?_, fun j hj => ?_⟩
  · by_cases hjk : j = k
    · subst hjk
      simpa [Session.lift] using hleaves
    · have hdone : j ∈ done := by simpa [hjk] using hj
      simpa [Session.lift, hjk] using h.lifted j hdone
  · obtain ⟨hdone, hjk⟩ : j ∉ done ∧ j ≠ k := by simpa using hj
    simpa [Session.lift, hjk] using h.fresh j hdone

/-- **Every call of a run comes to the value of its routine.** -/
theorem Settled.liftEach (h : s.Settled p base done) (hcode : ∀ k, (base k).code ≠ [])
    (calls : List (Fin n)) :
    (s.liftEach calls).1 = calls.map (fun k => (p.lift (base k)).value) ∧
      (s.liftEach calls).2.Settled p base (done ++ calls) := by
  induction calls generalizing s done with
  | nil =>
      rw [List.append_nil]
      exact ⟨rfl, h⟩
  | cons k calls ih =>
      obtain ⟨hvalue, hs⟩ := h.lift hcode k
      obtain ⟨hvalues, hend⟩ := ih hs
      rw [List.append_assoc] at hend
      refine ⟨?_, hend⟩
      rw [List.map_cons, ← hvalue, ← hvalues]
      rfl

end Session

namespace Program

/-- The routines of the program, entered in its table and not lifted yet. -/
def session (p : Program) : Session p.routines.length :=
  ⟨p.register p.routines, p.routines.get⟩

theorem settled_session (p : Program) :
    p.session.Settled (p.register p.routines) p.routines.get [] :=
  ⟨.refl _, by simp, fun _ _ => rfl⟩

/-- **Lifting does not depend on order and repetition.**  However the routines of a program are
called, each call comes to the same value or fault as in one pass over all of them, and leaves the
same routine but for types. -/
theorem liftEach_agrees (p : Program) (calls : List (Fin p.routines.length)) :
    let pass := p.session.liftEach (List.finRange p.routines.length)
    let run := p.session.liftEach calls
    (∃ value : Fin p.routines.length → Except Fault Unit,
      pass.1 = (List.finRange p.routines.length).map value ∧ run.1 = calls.map value) ∧
    ∀ k ∈ calls, (pass.2.routines k).Agrees pass.2.program.typing (run.2.routines k)
      run.2.program.typing := by
  have hcode : ∀ k, (p.routines.get k).code ≠ [] := fun k => code_ne_nil_of_mem (List.get_mem _ k)
  obtain ⟨hpass, hsettled⟩ := p.settled_session.liftEach hcode (List.finRange p.routines.length)
  obtain ⟨hrun, hsettled'⟩ := p.settled_session.liftEach hcode calls
  refine ⟨⟨_, hpass, hrun⟩, fun k hk => ?_⟩
  exact (hsettled.lifted k (by simp)).agrees (hsettled'.lifted k (by simpa using hk)) (hcode k) _ _

/-- The second routine copies what the first stores, and the third returns too much.  Called out of
order and twice, the second learns nothing of what it copies, but its body is the same. -/
theorem liftEach_agrees_reversed :
    let p : Program := {
      name := "copy"
      code := [⟨0, .op .enter, .enter 0 2 ""⟩, ⟨1, .op .push, .push [.int 7]⟩,
        ⟨2, .op (.store .static), .slot 0⟩, ⟨3, .op .leave, .ret 0 0⟩,
        ⟨4, .op .enter, .enter 0 3 ""⟩, ⟨5, .op (.load .static), .slot 0⟩,
        ⟨6, .op (.store .local), .slot 1⟩, ⟨7, .op .leave, .ret 0 0⟩,
        ⟨8, .op .enter, .enter 0 2 ""⟩, ⟨9, .op .leave, .ret 0 2⟩] }
    let second : Fin p.routines.length := ⟨1, by decide⟩
    let pass := p.session.liftEach (List.finRange p.routines.length)
    let run := p.session.liftEach [⟨2, by decide⟩, second, second, ⟨0, by decide⟩]
    (pass.2.routines second).declarationLines = ["    int local_1;", ""] ∧
      (run.2.routines second).declarationLines = ["    var local_1;", ""] ∧
      (pass.2.routines second).Agrees pass.2.program.typing (run.2.routines second)
        run.2.program.typing := by
  intro p second pass run
  refine ⟨by cbv, by cbv, (liftEach_agrees p _).2 second (by simp)⟩

end Program

end ScriptLift
