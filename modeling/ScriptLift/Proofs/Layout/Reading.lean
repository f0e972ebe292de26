import ScriptLift.Proofs.Flow
import ScriptLift.Proofs.Layout.Coverage
import ScriptLift.Proofs.Text.Hex

/-!
# The lines as a program

The lines of a body are read as a program (`Line.next`): they run in order, a condition that fails
leads to the second part of its branch or behind the branch, a first part that is over leads behind
the branch, a `goto` leads behind the label of its name, and a return stops.  The state is what is
left of the lines.

Two things tell where control goes in a layout.  Braces come in pairs (`Layout.Laid.balanced`), so
skipping a part of a branch ends at its own brace.  And a label stands where its block was placed
(`Layout.Laid.finds`), so a `goto` leads to the block that it names.
-/

namespace ScriptLift

namespace Line

/-- What is left behind the part of a branch that the lines start in: behind its closing brace, or
already behind its `else` if asked for.  The depth counts the branches opened on the way. -/
def skip (toElse : Bool) : Nat → List Line → List Line
  | _, [] => []
  | depth, opening .. :: ls => skip toElse (depth + 1) ls
  | 0, otherwise _ :: ls => if toElse then ls else skip toElse 0 ls
  | 0, closing _ :: ls => ls
  | depth + 1, closing _ :: ls => skip toElse depth ls
  | depth, _ :: ls => skip toElse depth ls

/-- What is left behind the label of a given name. -/
def findLabel (name : String) : List Line → Option (List Line)
  | [] => none
  | label _ a :: ls => if labelName a = name then some ls else findLabel name ls
  | _ :: ls => findLabel name ls

/-- What a program does when `ls` is left of it. -/
def next (program : List Line) : List Line → Move Action (List Line)
  | [] => .halt
  | simple _ (.ret values) :: _ => .go [.run (.ret values)] []
  | simple _ s :: ls => .go [.run s] ls
  | opening _ c :: ls => .ask [.test c] fun outcome => if outcome then ls else skip true 0 ls
  | otherwise _ :: ls => .go [] (skip false 0 ls)
  | closing _ :: ls => .go [] ls
  | label _ _ :: ls => .go [] ls
  | goto _ a :: _ => .go [] ((findLabel (labelName a) program).getD [])

section Skip

variable {toElse : Bool} {depth : Nat} {i a : Int} {ls : List Line}

/-- A line without a brace is passed over at any depth. -/
theorem skip_simple {s : Stmt} :
    skip toElse depth (simple i s :: ls) = skip toElse depth ls := by
  cases depth <;> rfl

theorem skip_label : skip toElse depth (label i a :: ls) = skip toElse depth ls := by
  cases depth <;> rfl

theorem skip_goto : skip toElse depth (goto i a :: ls) = skip toElse depth ls := by
  cases depth <;> rfl

/-- A branch that opens on the way is one more to leave. -/
theorem skip_opening {c : Expr} :
    skip toElse depth (opening i c :: ls) = skip toElse (depth + 1) ls := by
  cases depth <;> rfl

/-- The `else` of an inner branch ends nothing. -/
theorem skip_otherwise :
    skip toElse (depth + 1) (otherwise i :: ls) = skip toElse (depth + 1) ls := rfl

/-- The braces in the lines come in pairs: they are passed over together. -/
def Balanced (ls : List Line) : Prop :=
  ∀ toElse depth K, skip toElse depth (ls ++ K) = skip toElse depth K

/-- No lines have no braces. -/
theorem balanced_nil : Balanced [] :=
  fun _ _ _ => rfl

/-- Balanced lines behind balanced lines are passed over one after the other. -/
theorem Balanced.append {ls ls' : List Line} (h : Balanced ls) (h' : Balanced ls') :
    Balanced (ls ++ ls') := by
  intro toElse depth K
  rw [List.append_assoc, h, h']

theorem Balanced.simple {s : Stmt} (h : Balanced ls) : Balanced (Line.simple i s :: ls) := by
  intro toElse depth K
  rw [List.cons_append, skip_simple, h]

theorem balanced_goto : Balanced [Line.goto i a] := by
  intro toElse depth K
  rw [List.cons_append, skip_goto]
  rfl

/-- A branch without an `else` is balanced if its part is. -/
theorem Balanced.braces {c : Expr} (h : Balanced ls) :
    Balanced (opening i c :: (ls ++ [closing i])) := by
  intro toElse depth K
  rw [List.cons_append, skip_opening, List.append_assoc, h]
  rfl

/-- A branch with an `else` is balanced if both its parts are: skipping the first does not stop at
the `else`, since the branch itself was opened on the way. -/
theorem Balanced.bracesElse {c : Expr} {ls' : List Line} (h : Balanced ls) (h' : Balanced ls') :
    Balanced (opening i c :: (ls ++ otherwise i :: (ls' ++ [closing i]))) := by
  intro toElse depth K
  rw [List.cons_append, skip_opening, List.append_assoc, h, List.cons_append, skip_otherwise,
    List.append_assoc, h']
  rfl

end Skip

end Line

namespace Layout

open Line (Balanced)

variable {g : Graph} {labels v : List Int} {a? stop : Option Int} {a i : Int} {s t K : List Step}
  {plain : List Stmt}

/-! ### Braces -/

/-- The front of a block has no braces. -/
theorem balanced_head : Balanced (lines (head labels a i plain)) := by
  have hlabel : Balanced (lines (labelLine labels a i)) := by
    unfold labelLine
    split
    · intro toElse depth K
      exact Line.skip_label
    · exact Line.balanced_nil
  have hplain : Balanced (lines (plain.map fun s => .line (.simple i s))) := by
    induction plain with
    | nil => exact Line.balanced_nil
    | cons s plain ih => exact ih.simple
  rw [head, lines_place, lines_append]
  exact hlabel.append hplain

/-- **The braces of a region come in pairs.** -/
theorem Laid.balanced (h : Laid g labels v a? i stop s) : Balanced (lines s) := by
  induction h with
  | nothing | stop => exact Line.balanced_nil
  | jump => exact Line.balanced_goto
  | ret =>
      rw [lines_append]
      exact balanced_head.append Line.balanced_nil.simple
  | go _ _ _ _ _ _ ih =>
      rw [lines_append]
      exact balanced_head.append ih
  | fork _ _ _ _ _ _ ih₁ ih₂ =>
      simp only [lines_append, lines_line]
      refine balanced_head.append ?_
      simpa using (ih₁.braces).append ih₂
  | forkElse _ _ _ _ _ _ _ ih₁ ih₂ ih₃ =>
      simp only [lines_append, lines_line]
      refine balanced_head.append ?_
      simpa using (ih₁.bracesElse ih₂).append ih₃

/-! ### Labels -/

/-- The blocks placed in the steps, each with the steps behind its label; `K` is what follows. -/
def marks (labels : List Int) (K : List Step) : List Step → List (Int × List Step)
  | [] => []
  | .line _ :: s => marks labels K s
  | .place a :: s => (a, (s ++ K).drop (if a ∈ labels then 1 else 0)) :: marks labels K s

/-- The blocks placed by the first steps have the second steps behind them, and then the rest. -/
theorem marks_append (s t : List Step) :
    marks labels K (s ++ t) = marks labels (t ++ K) s ++ marks labels K t := by
  induction s with
  | nil => rfl
  | cons x s ih =>
      cases x with
      | line l => exact ih
      | place a => simp [marks, ih]

@[simp]
theorem marks_line (l : Line) (s : List Step) :
    marks labels K (.line l :: s) = marks labels K s := rfl

/-- The front of a block places that block, in front of its plain statements. -/
theorem marks_head :
    marks labels K (head labels a i plain)
      = [(a, (plain.map fun s => .line (.simple i s)) ++ K)] := by
  have hplain : marks labels K (plain.map fun s => .line (.simple i s)) = [] := by
    induction plain with
    | nil => rfl
    | cons s plain ih => exact ih
  by_cases ha : a ∈ labels
  · simp [head, marks, labelLine, ha, hplain]
  · simp [head, marks, labelLine, ha, hplain]

/-- A label is found where its block was placed, and nowhere if it was not placed. -/
def Finds (labels : List Int) (s : List Step) (a : Int) : Prop :=
  ∀ K, (a ∈ labels → a ∈ places s → ∃ q, (a, q) ∈ marks labels K s ∧
      Line.findLabel (labelName a) (lines (s ++ K)) = some (lines q)) ∧
    (a ∉ places s →
      Line.findLabel (labelName a) (lines (s ++ K)) = Line.findLabel (labelName a) (lines K))

theorem finds_nil : Finds labels [] a :=
  fun K => ⟨fun _ h => by simp at h, fun _ => rfl⟩

/-- A label is looked for in the first steps and, if it is not there, in the second. -/
theorem Finds.append (hs : Finds labels s a) (ht : Finds labels t a) :
    Finds labels (s ++ t) a := by
  intro K
  rw [List.append_assoc, marks_append, places_append]
  refine ⟨fun ha hp => ?_, fun hp => ?_⟩
  · by_cases hps : a ∈ places s
    · obtain ⟨q, hq, hfind⟩ := (hs (t ++ K)).1 ha hps
      exact ⟨q, List.mem_append_left _ hq, hfind⟩
    · obtain ⟨q, hq, hfind⟩ := (ht K).1 ha ((List.mem_append.mp hp).resolve_left hps)
      exact ⟨q, List.mem_append_right _ hq, ((hs (t ++ K)).2 hps).trans hfind⟩
  · rw [List.mem_append, not_or] at hp
    exact ((hs (t ++ K)).2 hp.1).trans ((ht K).2 hp.2)

/-- A line that is no label hides none. -/
theorem Finds.line {l : Line} (hl : ∀ j c, l ≠ .label j c) (hs : Finds labels s a) :
    Finds labels (.line l :: s) a := by
  intro K
  have hskip : ∀ ls, Line.findLabel (labelName a) (l :: ls) = Line.findLabel (labelName a) ls := by
    intro ls
    cases l with
    | label j c => exact absurd rfl (hl j c)
    | simple | opening | otherwise | closing | goto => rfl
  rw [List.cons_append, lines_line, hskip, marks_line, places_line]
  exact hs K

/-- The label of a block stands right in front of its statements. -/
theorem finds_head {c : Int} : Finds labels (head labels c i plain) a := by
  have hplain : ∀ K,
      Line.findLabel (labelName a) (lines ((plain.map fun s => .line (.simple i s)) ++ K))
      = Line.findLabel (labelName a) (lines K) := by
    intro K
    induction plain with
    | nil => rfl
    | cons s plain ih => exact ih
  intro K
  rw [marks_head, places_head, List.mem_singleton]
  refine ⟨?_, fun hne => ?_⟩
  · rintro ha rfl
    refine ⟨_, List.mem_singleton.mpr rfl, ?_⟩
    simp [head, labelLine, ha, Line.findLabel]
  · rw [← hplain K]
    by_cases hc : c ∈ labels
    · have hname : labelName c ≠ labelName a := fun h => hne (labelName_injective h).symm
      simp [head, labelLine, hc, Line.findLabel, hname]
    · simp [head, labelLine, hc]

/-- **The label of a block placed in a region is found there.** -/
theorem Laid.finds (h : Laid g labels v a? i stop s) (a : Int) : Finds labels s a := by
  induction h with
  | nothing | stop => exact finds_nil
  | jump => exact finds_nil.line (by simp)
  | ret => exact finds_head.append (finds_nil.line (by simp))
  | go _ _ _ _ _ _ ih => exact finds_head.append ih
  | fork _ _ _ _ _ _ ih₁ ih₂ =>
      exact finds_head.append ((ih₁.append (ih₂.line (by simp))).line (by simp))
  | forkElse _ _ _ _ _ _ _ ih₁ ih₂ ih₃ =>
      exact finds_head.append
        ((ih₁.append ((ih₂.append (ih₃.line (by simp))).line (by simp))).line (by simp))

/-- Labels do not change what is jumped to. -/
theorem targets_lay (labels : List Int) (v : List Int) (ts : List Task) :
    (lines (lay g labels v ts)).filterMap Line.target?
      = (lines (lay g [] v ts)).filterMap Line.target? := by
  have hlabel : ∀ a i, (lines (labelLine labels a i)).filterMap Line.target? = [] := by
    intro a i
    unfold labelLine
    split <;> rfl
  have hnone : ∀ a i, labelLine [] a i = [] := fun a i => by simp [labelLine]
  fun_induction lay g labels v ts with
  | case1 => rw [lay_nil]
  | case2 v l ts ih =>
      rw [lay_line, lines_line, lines_line, List.filterMap_cons, List.filterMap_cons, ih]
  | case3 v i stop ts ih => rw [lay_statements_nil, ih]
  | case4 v ss i stop ts c n join other ih =>
      rw [lay_branch, lines_line, lines_line, List.filterMap_cons, List.filterMap_cons, ih]
  | case5 v ss i ts a ih => rw [lay_goto, lay_region_stop, ih]
  | case6 v ss i stop ts a hs ha ih =>
      rw [lay_goto, lay_region_jump hs (Or.inr ha), lines_line, lines_line, List.filterMap_cons,
        List.filterMap_cons, ih]
  | case7 v ss i stop ts a hs ha ih => rw [lay_goto, ih]
  | case8 v ss i stop ts s hb hg ih =>
      rw [lay_simple hb hg, lines_line, lines_line, List.filterMap_cons, List.filterMap_cons, ih]
  | case9 v i stop ts ih => rw [lay_region_none, ih]
  | case10 v a i ts ih => rw [lay_region_stop, ih]
  | case11 v a i stop ts hs hb ih =>
      rw [lay_region_jump hs (Or.inl hb), lines_line, lines_line, List.filterMap_cons,
        List.filterMap_cons, ih]
  | case12 v a i stop ts hs b hb ha ih =>
      rw [lay_region_jump hs (Or.inr ha), lines_line, lines_line, List.filterMap_cons,
        List.filterMap_cons, ih]
  -- the only case in which the labels matter, and they add lines without a target
  | case13 v a i stop ts hs b hb ha ih =>
      rw [lay_region_place hs hb ha, hnone]
      simp [hlabel, ih]

end Layout

end ScriptLift
