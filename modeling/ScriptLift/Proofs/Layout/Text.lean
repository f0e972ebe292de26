import ScriptLift.Proofs.Layout.Shape
import ScriptLift.Proofs.Lift.Joins

/-!
# Lifted routines have a text

Only a literal that stands for no value and is asked for in base sixteen has no spelling.  Neither
an instruction nor what stands for a missing value brings one in (`Expr.hereditary_hasText`), and a
layout writes no statement that is not in a block (`Layout.isFrom_lay`).  So every line of a lifted
routine can be written (`Program.lineTexts_lift`).
-/

namespace ScriptLift

namespace Expr

theorem allHaveText_iff (es : List Expr) :
    allHaveText es = true ↔ ∀ e ∈ es, e.hasText = true := by
  induction es with
  | nil => simp [allHaveText]
  | cons e es ih => simp [allHaveText, ih]

/-- What is built from expressions with a text has one. -/
theorem hereditary_hasText : Hereditary fun e => e.hasText = true where
  literal v := by cases v <;> rfl
  var _ := rfl
  binary hl hr op t := by rw [hasText, hl, hr, Bool.and_self]
  unary he op t := by rw [hasText, he]
  call hes name t := by
    rw [hasText]
    exact (allHaveText_iff _).mpr hes

end Expr

/-- A statement has a text if its expressions have. -/
theorem Stmt.hasText_of_exprs {s : Stmt} (h : ∀ e ∈ s.exprs, e.hasText = true) :
    s.hasText = true := by
  cases s with
  | assign target value => exact h value (by simp [exprs])
  | call e => exact h e (by simp [exprs])
  | ret values => exact (Expr.allHaveText_iff values).mpr h
  | branch condition thenBlock join elseBlock => exact h condition (by simp [exprs])
  | declare | comment | goto => rfl

/-! ### Where lines come from -/

/-- The line is written from a statement with the property, or from none. -/
def Line.IsFrom (P : Stmt → Prop) : Line → Prop
  | simple _ s => P s
  | opening _ condition =>
    ∃ thenBlock join elseBlock, P (.branch condition thenBlock join elseBlock)
  | _ => True

theorem Line.IsFrom.hasText {l : Line} (h : l.IsFrom fun s => s.hasText = true) :
    l.hasText = true := by
  cases l with
  | simple indent s => exact h
  | opening indent condition =>
      obtain ⟨_, _, _, h⟩ := h
      exact h
  | otherwise | closing | label | goto => rfl

namespace Layout

variable {P : Stmt → Prop}

/-- As for lines; to place a block writes no statement. -/
def Step.IsFrom (P : Stmt → Prop) : Step → Prop
  | line l => l.IsFrom P
  | place _ => True

/-- Whatever the task writes itself is written from statements with the property. -/
def Task.IsFrom (P : Stmt → Prop) : Task → Prop
  | line l => l.IsFrom P
  | statements ss _ _ => ∀ s ∈ ss, P s
  | region .. => True

theorem isFrom_branchTasks (thenBlock : Int) (join elseBlock : Option Int) (indent : Int) :
    ∀ t ∈ branchTasks thenBlock join elseBlock indent, t.IsFrom P := by
  cases elseBlock <;> simp [branchTasks, Task.IsFrom, Line.IsFrom]

theorem isFrom_labelLine (labels : List Int) (a indent : Int) :
    ∀ step ∈ labelLine labels a indent, step.IsFrom P := by
  unfold labelLine
  split
  · simp [Step.IsFrom, Line.IsFrom]
  · simp

/-- Statements are laid out one after the other. -/
theorem isFrom_statements {s : Stmt} {ss : List Stmt} {indent : Int} {stop : Option Int}
    {tasks : List Task} (h : ∀ t ∈ .statements (s :: ss) indent stop :: tasks, t.IsFrom P) :
    P s ∧ ∀ t ∈ .statements ss indent stop :: tasks, t.IsFrom P := by
  obtain ⟨hss, htasks⟩ := List.forall_mem_cons.mp h
  obtain ⟨hs, hss⟩ := List.forall_mem_cons.mp hss
  exact ⟨hs, List.forall_mem_cons.mpr ⟨hss, htasks⟩⟩

/-- **A layout writes only the statements in the blocks.** -/
theorem isFrom_lay {g : Graph} {labels visited : List Int} {tasks : List Task}
    (hg : ∀ a b, g.block? a = some b → ∀ s ∈ b.statements, P s)
    (ht : ∀ t ∈ tasks, t.IsFrom P) :
    ∀ step ∈ lay g labels visited tasks, step.IsFrom P := by
  -- in each case the line written is from a statement of the tasks, and the tasks left are as
  -- before
  fun_induction lay g labels visited tasks with
  | case1 => simp
  | case2 visited l tasks ih =>
      obtain ⟨hl, htasks⟩ := List.forall_mem_cons.mp ht
      exact List.forall_mem_cons.mpr ⟨hl, ih htasks⟩
  | case3 visited indent stop tasks ih => exact ih (List.forall_mem_cons.mp ht).2
  | case4 visited ss indent stop tasks condition thenBlock join elseBlock ih =>
      obtain ⟨hs, hrest⟩ := isFrom_statements ht
      refine List.forall_mem_cons.mpr ⟨⟨thenBlock, join, elseBlock, hs⟩, ih fun t ht => ?_⟩
      rcases List.mem_append.mp ht with ht | ht
      · exact isFrom_branchTasks _ _ _ _ t ht
      · exact hrest t ht
  | case5 visited ss indent tasks a ih => exact ih (isFrom_statements ht).2
  | case6 visited ss indent stop tasks a hs hv ih =>
      exact List.forall_mem_cons.mpr ⟨trivial, ih (isFrom_statements ht).2⟩
  | case7 visited ss indent stop tasks a hs hv ih =>
      exact ih (List.forall_mem_cons.mpr ⟨trivial, (isFrom_statements ht).2⟩)
  | case8 visited ss indent stop tasks s hb hj ih =>
      obtain ⟨hs, hrest⟩ := isFrom_statements ht
      exact List.forall_mem_cons.mpr ⟨hs, ih hrest⟩
  | case9 visited indent stop tasks ih => exact ih (List.forall_mem_cons.mp ht).2
  | case10 visited a indent tasks ih => exact ih (List.forall_mem_cons.mp ht).2
  | case11 visited a indent stop tasks hs hb ih =>
      exact List.forall_mem_cons.mpr ⟨trivial, ih (List.forall_mem_cons.mp ht).2⟩
  | case12 visited a indent stop tasks hs b hb hv ih =>
      exact List.forall_mem_cons.mpr ⟨trivial, ih (List.forall_mem_cons.mp ht).2⟩
  | case13 visited a indent stop tasks hs b hb hv ih =>
      have hrest := ih (List.forall_mem_cons.mpr
        ⟨hg a b hb, List.forall_mem_cons.mpr ⟨trivial, (List.forall_mem_cons.mp ht).2⟩⟩)
      intro step hstep
      rcases List.mem_append.mp hstep with hstep | hstep
      · rcases List.mem_cons.mp hstep with rfl | hstep
        · trivial
        · exact isFrom_labelLine labels a indent step hstep
      · exact hrest step hstep

end Layout

/-- Every line of a routine is from a statement in its blocks, or from none. -/
theorem Routine.isFrom_lines {r : Routine} {P : Stmt → Prop}
    (h : ∀ a b, r.graph.block? a = some b → ∀ s ∈ b.statements, P s) :
    ∀ l ∈ r.lines, l.IsFrom P := by
  intro l hl
  unfold lines body at hl
  split at hl
  · obtain ⟨step, hstep, hline⟩ := List.mem_filterMap.mp hl
    have htasks : ∀ t ∈ [Layout.Task.region (some r.address) 1 none], t.IsFrom P := by
      simp [Layout.Task.IsFrom]
    have hfrom := Layout.isFrom_lay h htasks step hstep
    cases step with
    | line k =>
        cases hline
        exact hfrom
    | place a => cases hline
  · cases hl

namespace Program

variable {p : Program} {r : Routine}

/-- **The lines of a lifted routine can be written.** -/
theorem lineTexts_lift (hcode : r.code ≠ []) (h : (p.lift r).value = .ok ())
    (known : Place → DataType) :
    lineTexts known (p.lift r).state.2.lines
      = .ok ((p.lift r).state.2.lines.map (·.text known)) := by
  have hall : (p.lift r).state.2.lines.all (·.hasText) = true := by
    refine List.all_eq_true.mpr fun l hl =>
      (Routine.isFrom_lines (fun a b hb s hs => ?_) l hl).hasText
    refine Stmt.hasText_of_exprs fun e he => ?_
    have hblock : b.Holds fun e => e.hasText = true :=
      holds_lift Expr.hereditary_hasText (fun hn => absurd hn hcode) h (Or.inr rfl) hb
    exact hblock.statements s hs e he
  rw [lineTexts, if_pos hall]

end Program

end ScriptLift
