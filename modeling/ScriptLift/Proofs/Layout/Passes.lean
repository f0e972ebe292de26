import Mathlib
import ScriptLift.Proofs.Layout.Reading

/-!
# The two passes agree on labels

A body is laid out twice, and the labels of the second pass are the addresses that the first one
jumps to.  Nothing is assumed of the routine here: its blocks may have been made by hand, and may
lead in circles or to where there is no block.

What laying out does is told step by step (`Layout.Stepwise`): a jump goes to an address without a
block or to a block that has been placed, and a block is placed once, with its label if it needs
one.  So the labels written are those of the blocks placed that need one, each once, and a block
that is jumped to is among the blocks placed.  Labels do not change where the jumps go
(`Layout.targets_lay`), so the labels needed are those of the jumps written beside them
(`Routine.labels_agree`).
-/

namespace ScriptLift

namespace Line

/-- The address that a line is the label of. -/
def labelled? : Line → Option Int
  | label _ address => some address
  | _ => none

/-- The line names no address. -/
def IsNameless (l : Line) : Prop :=
  l.target? = none ∧ l.labelled? = none

theorem mem_targets {a : Int} {ls : List Line} :
    a ∈ ls.filterMap target? ↔ ∃ i, goto i a ∈ ls := by
  rw [List.mem_filterMap]
  constructor
  · rintro ⟨l, hl, ha⟩
    cases l with
    | goto i c =>
        cases ha
        exact ⟨i, hl⟩
    | simple | opening | otherwise | closing | label => cases ha
  · rintro ⟨i, hl⟩
    exact ⟨goto i a, hl, rfl⟩

end Line

namespace Layout

variable {g : Graph} {labels v : List Int} {s : List Step} {ts : List Task} {a : Int}

/-! ### Step by step -/

/-- **What laying out does, step by step.**  The blocks in `v` have been placed before. -/
inductive Stepwise (g : Graph) (labels : List Int) : List Int → List Step → Prop where
  | done {v : List Int} : Stepwise g labels v []
  | line {v : List Int} {l : Line} {s : List Step} : l.IsNameless → Stepwise g labels v s →
      Stepwise g labels v (.line l :: s)
  | jump {v : List Int} {a i : Int} {s : List Step} : g.block? a = none ∨ a ∈ v →
      Stepwise g labels v s → Stepwise g labels v (.line (.goto i a) :: s)
  | place {v : List Int} {a i : Int} {s : List Step} : a ∈ g.starts → a ∉ v →
      Stepwise g labels (v ++ [a]) s →
      Stepwise g labels v (.place a :: (labelLine labels a i ++ s))

/-- The lines that stand between the parts of a branch name no address. -/
theorem isNameless_of_mem_branchTasks {l : Line} {n i : Int} {join other : Option Int}
    (h : .line l ∈ branchTasks n join other i) : l.IsNameless := by
  cases other with
  | none =>
      obtain rfl : l = .closing i := by simpa [branchTasks] using h
      exact ⟨rfl, rfl⟩
  | some t =>
      obtain rfl | rfl : l = .otherwise i ∨ l = .closing i := by simpa [branchTasks] using h
      all_goals exact ⟨rfl, rfl⟩

theorem stepwise_lay (h : ∀ l, .line l ∈ ts → l.IsNameless) :
    Stepwise g labels v (lay g labels v ts) := by
  fun_induction lay g labels v ts with
  | case1 => exact .done
  | case2 v l ts ih => exact .line (h l (by simp)) (ih fun l hl => h l (by simp [hl]))
  | case3 v i stop ts ih => exact ih fun l hl => h l (by simp [hl])
  | case4 v ss i stop ts c n join other ih =>
      refine .line ⟨rfl, rfl⟩ (ih fun l hl => ?_)
      rcases List.mem_append.mp hl with hl | hl
      · exact isNameless_of_mem_branchTasks hl
      · exact h l (by simpa using hl)
  | case5 v ss i ts a ih => exact ih fun l hl => h l (by simpa using hl)
  | case6 v ss i stop ts a hs ha ih =>
      exact .jump (Or.inr ha) (ih fun l hl => h l (by simpa using hl))
  | case7 v ss i stop ts a hs ha ih => exact ih fun l hl => h l (by simpa using hl)
  | case8 v ss i stop ts s hb hg ih =>
      exact .line ⟨rfl, rfl⟩ (ih fun l hl => h l (by simpa using hl))
  | case9 v i stop ts ih => exact ih fun l hl => h l (by simp [hl])
  | case10 v a i ts ih => exact ih fun l hl => h l (by simp [hl])
  | case11 v a i stop ts hs hb ih => exact .jump (Or.inl hb) (ih fun l hl => h l (by simp [hl]))
  | case12 v a i stop ts hs b hb ha ih =>
      exact .jump (Or.inr ha) (ih fun l hl => h l (by simp [hl]))
  | case13 v a i stop ts hs b hb ha ih =>
      exact .place (Graph.mem_starts_of_block? hb) ha (ih fun l hl => h l (by simpa using hl))

namespace Stepwise

theorem nodup (h : Stepwise g labels v s) (hv : v.Nodup) : (v ++ places s).Nodup := by
  induction h with
  | done => simpa using hv
  | line _ _ ih => exact ih hv
  | jump _ _ ih => exact ih hv
  | @place v c i s _ hc _ ih =>
      have hv' : (v ++ [c]).Nodup := by
        rw [List.nodup_append]
        exact ⟨hv, List.nodup_singleton c, by simpa using fun b hb => ne_of_mem_of_not_mem hb hc⟩
      simpa using ih hv'

theorem places_subset (h : Stepwise g labels v s) : ∀ a ∈ places s, a ∈ g.starts := by
  induction h with
  | done => simp
  | line _ _ ih => exact ih
  | jump _ _ ih => exact ih
  | place hc _ _ ih => simpa using ⟨hc, ih⟩

/-- A block that is jumped to has been placed by the end. -/
theorem mem_of_target (h : Stepwise g labels v s) (ha : a ∈ (lines s).filterMap Line.target?)
    (hb : a ∈ g.starts) : a ∈ v ++ places s := by
  induction h with
  | done => cases ha
  | line hl _ ih =>
      rw [lines_line, List.filterMap_cons_none hl.1] at ha
      exact ih ha
  | @jump v c i s hc _ ih =>
      have ha : a ∈ c :: (lines s).filterMap Line.target? := ha
      rcases List.mem_cons.mp ha with rfl | ha
      · rcases hc with hnone | hv
        · exact absurd hb (Graph.block?_eq_none_iff.mp hnone)
        · exact List.mem_append_left _ hv
      · exact ih ha
  | @place v c i s _ _ _ ih =>
      have hlabel : (lines (labelLine labels c i)).filterMap Line.target? = [] := by
        unfold labelLine
        split <;> rfl
      rw [lines_place, lines_append, List.filterMap_append, hlabel, List.nil_append] at ha
      simpa using ih ha

/-- **The labels written are those of the blocks placed that need one.** -/
theorem labels_eq (h : Stepwise g labels v s) :
    (lines s).filterMap Line.labelled? = (places s).filter fun a => a ∈ labels := by
  induction h with
  | done => rfl
  | line hl _ ih => rw [lines_line, List.filterMap_cons_none hl.2, places_line, ih]
  | jump _ _ ih => exact ih
  | @place v c i s _ _ _ ih =>
      rw [lines_place, lines_append, List.filterMap_append, ih, places_place, places_append,
        places_labelLine, List.nil_append]
      by_cases hc : c ∈ labels
      · simp [labelLine, hc, Line.labelled?]
      · simp [labelLine, hc]

end Stepwise

end Layout

/-! ### Bodies -/

namespace Routine

/-- A body is made of steps from nothing placed, whatever the labels. -/
theorem exists_stepwise_body (r : Routine) (labels : List Int) :
    ∃ s, Layout.Stepwise r.graph labels [] s ∧ r.body labels = Layout.lines s := by
  unfold body
  split
  · exact ⟨_, Layout.stepwise_lay (by simp), rfl⟩
  · exact ⟨[], .done, rfl⟩

/-- The second pass jumps to where the first one does. -/
theorem targets_lines (r : Routine) : r.lines.filterMap Line.target? = r.neededLabels := by
  unfold lines neededLabels body
  split
  · exact Layout.targets_lay _ _ _
  · rfl

/-- **The two passes agree on labels.**  A block that is jumped to has one label line, a label line
is that of a block that is jumped to, and what earlier layouts have left behind does not matter, so
the text is the same the next time. -/
theorem labels_agree (r : Routine) :
    (∀ i a, .goto i a ∈ r.lines → a ∈ r.graph.starts →
      (r.lines.filterMap Line.labelled?).count a = 1) ∧
    (∀ i a, .label i a ∈ r.lines → a ∈ r.graph.starts ∧ ∃ j, .goto j a ∈ r.lines) ∧
    (∀ shared labels visited, ({ r with labels, visited } : Routine).text shared = r.text shared) ∧
    ∀ shared, r.laidOut.text shared = r.text shared := by
  obtain ⟨s, hs, hlines⟩ := r.exists_stepwise_body r.neededLabels
  have hlabels : r.lines.filterMap Line.labelled?
      = (Layout.places s).filter fun a => a ∈ r.neededLabels := by
    rw [lines, hlines, hs.labels_eq]
  have htargets : ∀ a, a ∈ r.neededLabels ↔ ∃ i, .goto i a ∈ r.lines := by
    intro a
    rw [← r.targets_lines, Line.mem_targets]
  refine ⟨fun i a hgoto hblock => ?_, fun i a hlabel => ?_, fun _ _ _ => rfl, fun _ => rfl⟩
  · -- a block that is jumped to was placed, and only once
    have hneeded : a ∈ r.neededLabels := (htargets a).mpr ⟨i, hgoto⟩
    have hplaced : a ∈ Layout.places s := by
      refine hs.mem_of_target (v := []) ?_ hblock
      rwa [← hlines, ← lines, r.targets_lines]
    have hnodup : (Layout.places s).Nodup := hs.nodup .nil
    rw [hlabels]
    exact List.count_eq_one_of_mem (hnodup.filter _)
      (List.mem_filter.mpr ⟨hplaced, by simpa using hneeded⟩)
  · have hmem : a ∈ r.lines.filterMap Line.labelled? := List.mem_filterMap.mpr ⟨_, hlabel, rfl⟩
    rw [hlabels, List.mem_filter] at hmem
    exact ⟨hs.places_subset a hmem.1, (htargets a).mp (by simpa using hmem.2)⟩

/-- Two blocks that lead to each other, one of them also to itself and to where there is no block.
An earlier layout has left marks behind. -/
theorem labels_agree_circle :
    let r : Routine := {
      name := "circle"
      address := 0
      code := []
      graph := ⟨[{ start := 0, statements := [.goto 4] },
        { start := 4, statements := [.goto 0, .goto 9], continuation := some 4 }]⟩
      visited := [4]
      labels := [9] }
    r.lines = [.label 0 0, .label 0 4, .goto 1 0, .goto 1 9, .goto 1 4] ∧
      (r.lines.filterMap Line.labelled?).count 0 = 1 ∧ ∃ j, .goto j 4 ∈ r.lines := by
  intro r
  have hlines : r.lines = [.label 0 0, .label 0 4, .goto 1 0, .goto 1 9, .goto 1 4] := by
    dsimp only [r]
    cbv
  obtain ⟨hone, hlabel, -⟩ := r.labels_agree
  exact ⟨hlines, hone 1 0 (by simp [hlines]) (by decide), (hlabel 0 4 (by simp [hlines])).2⟩

end Routine

end ScriptLift
