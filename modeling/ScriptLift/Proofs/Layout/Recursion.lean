import Mathlib
import ScriptLift.Proofs.Layout.Shape

/-!
# Laying out comes to an end

Laying out calls itself: a region lays out the statements of its blocks, a branch among them two
more regions, a `goto` the region it goes to.  Nothing says that the addresses in the blocks lead
anywhere but in circles.  `Layout.Ends` says what such a call does when it ends, rule by rule and
without a measure; `Layout.exists_ends` that every call ends, whatever the graph and the blocks
placed before.

The argument goes by the number of blocks that have not been placed.  A region that places a block
goes on with one less, and what stands around it never gets one back, since the blocks placed are
only added to (`Layout.Ends.visited_eq`).  Within one such number, a branch and a list of statements
are finite.

A call may be broken off by a literal without a text.  The line with it is then the last step.
-/

namespace ScriptLift

namespace Layout

/-! ### Calls -/

/-- A piece of the work of laying out. -/
inductive Call where
  | line (l : Line)
  | region (address : Option Int) (indent : Int) (stop : Option Int)
  | statement (s : Stmt) (indent : Int) (stop : Option Int)
  | statements (ss : List Stmt) (indent : Int) (stop : Option Int)
  /-- One piece and then another. -/
  | seq (first second : Call)

namespace Call

/-- The pieces of a branch. -/
def branch (condition : Expr) (thenBlock : Int) (join elseBlock : Option Int) (indent : Int) :
    Call :=
  .seq (.line (.opening indent condition)) <| .seq (.region (some thenBlock) (indent + 1) join) <|
    match elseBlock with
    | some a =>
      .seq (.line (.otherwise indent)) <| .seq (.region (some a) (indent + 1) join) <|
        .line (.closing indent)
    | none => .line (.closing indent)

/-- The tasks that a call is. -/
def tasks : Call → List Task
  | line l => [.line l]
  | region address indent stop => [.region address indent stop]
  | statement s indent stop => [.statements [s] indent stop]
  | statements ss indent stop => [.statements ss indent stop]
  | seq first second => first.tasks ++ second.tasks

end Call

/-- **How a call ends.**  `Ends g labels c v ok s w` says that the call `c`, when the blocks in `v`
have been placed before, takes the steps `s` and leaves the blocks in `w` placed; it comes to its
end if `ok`, and otherwise it is broken off by the last of the steps. -/
inductive Ends (g : Graph) (labels : List Int) :
    Call → List Int → Bool → List Step → List Int → Prop where
  | line {l : Line} {v : List Int} : Ends g labels (.line l) v l.hasText [.line l] v
  | seq {c c' : Call} {v w w' : List Int} {ok : Bool} {s s' : List Step} :
      Ends g labels c v true s w → Ends g labels c' w ok s' w' →
      Ends g labels (.seq c c') v ok (s ++ s') w'
  | broken {c c' : Call} {v w : List Int} {s : List Step} :
      Ends g labels c v false s w → Ends g labels (.seq c c') v false s w
  | nothing {i : Int} {stop : Option Int} {v : List Int} :
      Ends g labels (.region none i stop) v true [] v
  /-- The region ends where it starts. -/
  | stop {a i : Int} {v : List Int} : Ends g labels (.region (some a) i (some a)) v true [] v
  /-- The block stands elsewhere, or there is none. -/
  | jump {a i : Int} {stop : Option Int} {v : List Int} : stop ≠ some a →
      (g.block? a = none ∨ a ∈ v) →
      Ends g labels (.region (some a) i stop) v true [.line (.goto i a)] v
  /-- The block is placed, and the region goes on with its continuation. -/
  | place {a i : Int} {stop : Option Int} {b : Block} {v w : List Int} {ok : Bool} {s : List Step} :
      stop ≠ some a → g.block? a = some b → a ∉ v →
      Ends g labels (.seq (.statements b.statements i stop) (.region b.continuation i stop))
        (v ++ [a]) ok s w →
      Ends g labels (.region (some a) i stop) v ok (.place a :: (labelLine labels a i ++ s)) w
  | nil {i : Int} {stop : Option Int} {v : List Int} :
      Ends g labels (.statements [] i stop) v true [] v
  | cons {x : Stmt} {xs : List Stmt} {i : Int} {stop : Option Int} {v w : List Int} {ok : Bool}
      {s : List Step} :
      Ends g labels (.seq (.statement x i stop) (.statements xs i stop)) v ok s w →
      Ends g labels (.statements (x :: xs) i stop) v ok s w
  | branch {condition : Expr} {n i : Int} {join other stop : Option Int} {v w : List Int}
      {ok : Bool} {s : List Step} :
      Ends g labels (.branch condition n join other i) v ok s w →
      Ends g labels (.statement (.branch condition n join other) i stop) v ok s w
  | gotoStop {a i : Int} {v : List Int} :
      Ends g labels (.statement (.goto a) i (some a)) v true [] v
  | gotoPlaced {a i : Int} {stop : Option Int} {v : List Int} : stop ≠ some a → a ∈ v →
      Ends g labels (.statement (.goto a) i stop) v true [.line (.goto i a)] v
  | goto {a i : Int} {stop : Option Int} {v w : List Int} {ok : Bool} {s : List Step} :
      stop ≠ some a → a ∉ v → Ends g labels (.region (some a) i stop) v ok s w →
      Ends g labels (.statement (.goto a) i stop) v ok s w
  | simple {x : Stmt} {i : Int} {stop : Option Int} {v w : List Int} {ok : Bool} {s : List Step} :
      (∀ condition n join other, x ≠ .branch condition n join other) → (∀ a, x ≠ .goto a) →
      Ends g labels (.line (.simple i x)) v ok s w →
      Ends g labels (.statement x i stop) v ok s w

variable {g : Graph} {labels v w : List Int} {c c' : Call} {ok : Bool} {s : List Step} {n : Nat}

/-! ### Blocks are only added -/

/-- A call adds the blocks it places to those placed before, in order. -/
theorem Ends.visited_eq (h : Ends g labels c v ok s w) : w = v ++ places s := by
  induction h with
  | line | nothing | stop | jump | nil | gotoStop | gotoPlaced => simp
  | seq _ _ ih ih' => rw [ih', ih, places_append, List.append_assoc]
  | broken _ ih => exact ih
  | place _ _ _ _ ih => simpa using ih
  | cons _ ih | branch _ ih | goto _ _ _ ih | simple _ _ _ ih => exact ih

/-- Only blocks of the graph are placed, none of them twice and none that was placed before. -/
theorem Ends.places_fresh (h : Ends g labels c v ok s w) :
    (places s).Nodup ∧ ∀ a ∈ places s, a ∉ v ∧ a ∈ g.starts := by
  induction h with
  | line | nothing | stop | jump | nil | gotoStop | gotoPlaced => simp
  | seq hfirst _ ih ih' =>
      -- what the second call places is new to the first, too
      obtain rfl := hfirst.visited_eq
      rw [places_append]
      refine ⟨ih.1.append ih'.1 fun a ha ha' => (ih'.2 a ha').1 (List.mem_append_right _ ha), ?_⟩
      refine List.forall_mem_append.mpr ⟨ih.2, fun a ha => ?_⟩
      exact ⟨fun hv => (ih'.2 a ha).1 (List.mem_append_left _ hv), (ih'.2 a ha).2⟩
  | broken _ ih => exact ih
  | @place a i stop b v w ok s _ hb ha _ ih =>
      rw [places_place, places_append, places_labelLine, List.nil_append]
      refine ⟨List.nodup_cons.mpr ⟨fun h => (ih.2 a h).1 (by simp), ih.1⟩, ?_⟩
      refine List.forall_mem_cons.mpr ⟨⟨ha, Graph.mem_starts_of_block? hb⟩, fun a' h => ?_⟩
      exact ⟨fun hv => (ih.2 a' h).1 (List.mem_append_left _ hv), (ih.2 a' h).2⟩
  | cons _ ih | branch _ ih | goto _ _ _ ih | simple _ _ _ ih => exact ih

/-! ### Every call ends -/

/-- The call ends wherever at most `n` blocks have not been placed. -/
def EndsBelow (g : Graph) (labels : List Int) (n : Nat) (c : Call) : Prop :=
  ∀ v, unvisited g.starts v ≤ n → ∃ ok s w, Ends g labels c v ok s w

namespace EndsBelow

theorem line (l : Line) : EndsBelow g labels n (.line l) :=
  fun v _ => ⟨l.hasText, [.line l], v, .line⟩

/-- The second call starts with fewer blocks left than the first or as many, so the bound holds for
both. -/
theorem seq (h : EndsBelow g labels n c) (h' : EndsBelow g labels n c') :
    EndsBelow g labels n (.seq c c') := by
  intro v hv
  obtain ⟨ok, s, w, hc⟩ := h v hv
  cases ok with
  | false => exact ⟨false, s, w, .broken hc⟩
  | true =>
      have hw : unvisited g.starts w ≤ n := by
        rw [hc.visited_eq]
        exact (unvisited_append_le _ _ _).trans hv
      obtain ⟨ok', s', w', hc'⟩ := h' w hw
      exact ⟨ok', s ++ s', w', .seq hc hc'⟩

/-- Inside a region that places a block, one block less is left. -/
theorem region (h : ∀ m < n, ∀ c, EndsBelow g labels m c) (a : Option Int) (i : Int)
    (stop : Option Int) : EndsBelow g labels n (.region a i stop) := by
  intro v hv
  cases a with
  | none => exact ⟨true, [], v, .nothing⟩
  | some a =>
      by_cases hs : stop = some a
      · rw [hs]
        exact ⟨true, [], v, .stop⟩
      by_cases hj : g.block? a = none ∨ a ∈ v
      · exact ⟨true, [.line (.goto i a)], v, .jump hs hj⟩
      rw [not_or] at hj
      obtain ⟨b, hb⟩ := Option.ne_none_iff_exists'.mp hj.1
      have hless : unvisited g.starts (v ++ [a]) < n :=
        (unvisited_append_lt (Graph.mem_starts_of_block? hb) hj.2).trans_le hv
      obtain ⟨ok, s, w, hc⟩ := h _ hless
        (.seq (.statements b.statements i stop) (.region b.continuation i stop)) (v ++ [a]) le_rfl
      exact ⟨ok, _, w, .place hs hb hj.2 hc⟩

variable (h : ∀ m < n, ∀ c, EndsBelow g labels m c)
include h

/-- Both parts of a branch are regions; what is around them are lines. -/
theorem branch (condition : Expr) (thenBlock : Int) (join elseBlock : Option Int) (i : Int) :
    EndsBelow g labels n (.branch condition thenBlock join elseBlock i) := by
  refine (line _).seq ((region h _ _ _).seq ?_)
  cases elseBlock with
  | none => exact line _
  | some a => exact (line _).seq ((region h _ _ _).seq (line _))

/-- One statement is a line, a branch, or a region that a jump leads to. -/
theorem statement (x : Stmt) (i : Int) (stop : Option Int) :
    EndsBelow g labels n (.statement x i stop) := by
  intro v hv
  cases x with
  | branch condition thenBlock join elseBlock =>
      obtain ⟨ok, s, w, hc⟩ := branch h condition thenBlock join elseBlock i v hv
      exact ⟨ok, s, w, .branch hc⟩
  | goto a =>
      by_cases hs : stop = some a
      · rw [hs]
        exact ⟨true, [], v, .gotoStop⟩
      by_cases ha : a ∈ v
      · exact ⟨true, [.line (.goto i a)], v, .gotoPlaced hs ha⟩
      obtain ⟨ok, s, w, hc⟩ := region h (some a) i stop v hv
      exact ⟨ok, s, w, .goto hs ha hc⟩
  | assign | call | ret | declare | comment =>
      exact ⟨_, _, v, .simple (by simp) (by simp) .line⟩

/-- By induction on the statements, which are one call each. -/
theorem statements (xs : List Stmt) (i : Int) (stop : Option Int) :
    EndsBelow g labels n (.statements xs i stop) := by
  induction xs with
  | nil => exact fun v _ => ⟨true, [], v, .nil⟩
  | cons x xs ih =>
      intro v hv
      obtain ⟨ok, s, w, hc⟩ := (statement h x i stop).seq ih v hv
      exact ⟨ok, s, w, .cons hc⟩

/-- Every kind of call ends, if all end that have fewer blocks left. -/
theorem call (c : Call) : EndsBelow g labels n c := by
  induction c with
  | line l => exact line l
  | region a i stop => exact region h a i stop
  | statement x i stop => exact statement h x i stop
  | statements xs i stop => exact statements h xs i stop
  | seq c c' ih ih' => exact ih.seq ih'

end EndsBelow

/-- **Every call ends.** -/
theorem exists_ends (g : Graph) (labels : List Int) (c : Call) (v : List Int) :
    ∃ ok s w, Ends g labels c v ok s w := by
  have hall : ∀ n c, EndsBelow g labels n c := by
    intro n
    induction n using Nat.strongRecOn with
    | ind n ih => exact EndsBelow.call ih
  exact hall _ c v le_rfl

/-! ### The end is that of the tasks -/

/-- The steps up to the first that writes a line without a text, which is the last. -/
def written : List Step → List Step
  | [] => []
  | x :: xs => if x.hasText then x :: written xs else [x]

/-- All of a layout is written if each line has a text. -/
theorem written_of_all {s : List Step} (h : s.all Step.hasText = true) : written s = s := by
  induction s with
  | nil => rfl
  | cons x xs ih =>
      rw [List.all_cons, Bool.and_eq_true] at h
      rw [written, if_pos h.1, ih h.2]

/-- Writing goes on with the second steps if it was through with the first. -/
theorem written_append (s t : List Step) :
    written (s ++ t) = if s.all Step.hasText then s ++ written t else written s := by
  induction s with
  | nil => rfl
  | cons x xs ih =>
      cases hx : x.hasText <;> cases hxs : xs.all Step.hasText <;>
        simp [written, hx, hxs, ih]

/-- The blocks placed by then are those of what was written. -/
theorem places_written (s : List Step) : places (written s) = placed s := by
  induction s with
  | nil => rfl
  | cons x xs ih =>
      cases hx : x.hasText with
      | true =>
          rw [written, if_pos hx, placed, List.takeWhile_cons_of_pos hx, places,
            List.filterMap_cons, List.filterMap_cons, ← places, ih, placed]
      | false =>
          cases x with
          | place a => cases hx
          | line l => simp [written, placed, hx]

theorem all_hasText_lines (s : List Step) : (lines s).all (·.hasText) = s.all Step.hasText := by
  induction s with
  | nil => rfl
  | cons x xs ih =>
      cases x with
      | line l => rw [lines_line, List.all_cons, List.all_cons, ih, Step.hasText]
      | place a => rw [lines_place, ih, List.all_cons, Step.hasText, Bool.true_and]

theorem all_hasText_labelLine (a i : Int) : (labelLine labels a i).all Step.hasText = true := by
  unfold labelLine
  split <;> rfl

/-- A statement and the rest of its list can be two tasks. -/
theorem lay_statements_cons (x : Stmt) (xs : List Stmt) (i : Int) (stop : Option Int) :
    lay g labels v [.statements (x :: xs) i stop]
      = lay g labels v [.statements [x] i stop, .statements xs i stop] := by
  cases x with
  | branch condition n join other =>
      rw [lay_branch, lay_branch, lay_append, lay_append, lay_statements_nil]
  | goto a =>
      rw [lay_goto, lay_goto, ← List.singleton_append, lay_append,
        ← List.singleton_append (l := [_, _]), lay_append, lay_statements_nil]
  | assign | call | ret | declare | comment =>
      rw [lay_simple (by simp) (by simp), lay_simple (by simp) (by simp), lay_statements_nil]

/-- **A call ends as its tasks are laid out.** -/
theorem Ends.eq_lay (h : Ends g labels c v ok s w) :
    ok = (lay g labels v c.tasks).all Step.hasText ∧ s = written (lay g labels v c.tasks) := by
  induction h with
  | line =>
      rw [Call.tasks, lay_line, lay_nil, written]
      exact ⟨(Bool.and_true _).symm, by split <;> rfl⟩
  | @seq c c' v w w' ok s s' hc hc' ih ih' =>
      -- the second call starts with the blocks that the tasks of the first have placed
      have hall : (lay g labels v c.tasks).all Step.hasText = true := ih.1.symm
      have hs : s = lay g labels v c.tasks := ih.2.trans (written_of_all hall)
      have hw : w = v ++ places (lay g labels v c.tasks) := hs ▸ hc.visited_eq
      rw [Call.tasks, lay_append, ← hw, List.all_append, hall, Bool.true_and, written_append,
        if_pos hall, ← hs, ← ih'.2]
      exact ⟨ih'.1, rfl⟩
  | broken _ ih =>
      -- the tasks go on behind the line without a text, but nothing of that is written
      rw [Call.tasks, lay_append, List.all_append, ← ih.1, written_append, ← ih.1]
      exact ⟨rfl, ih.2⟩
  | nothing => simp [Call.tasks, lay_region_none, lay_nil, written]
  | stop => simp [Call.tasks, lay_region_stop, lay_nil, written]
  | jump hs hj =>
      simp [Call.tasks, lay_region_jump hs hj, lay_nil, written, Step.hasText, Line.hasText]
  | @place a i stop b v w ok s hs hb ha _ ih =>
      have hlabel : ([Step.place a] ++ labelLine labels a i).all Step.hasText = true := by
        rw [List.all_append, all_hasText_labelLine]
        rfl
      have hlay : lay g labels v (Call.region (some a) i stop).tasks
          = [.place a] ++ labelLine labels a i ++ lay g labels (v ++ [a])
              (Call.seq (.statements b.statements i stop) (.region b.continuation i stop)).tasks :=
        lay_region_place hs hb ha
      rw [hlay, List.all_append, hlabel, Bool.true_and, written_append, if_pos hlabel, ← ih.2]
      exact ⟨ih.1, rfl⟩
  | nil => simp [Call.tasks, lay_statements_nil, lay_nil, written]
  | cons _ ih =>
      rw [Call.tasks, lay_statements_cons]
      exact ih
  | @branch condition n i join other stop v w ok s _ ih =>
      have htasks : (Call.branch condition n join other i).tasks
          = .line (.opening i condition) :: branchTasks n join other i := by
        cases other <;> rfl
      rw [htasks, lay_line] at ih
      rw [Call.tasks, lay_branch, lay_append, lay_statements_nil, lay_nil, List.append_nil]
      exact ih
  | gotoStop => simp [Call.tasks, lay_goto, lay_region_stop, lay_statements_nil, lay_nil, written]
  | gotoPlaced hs ha =>
      simp [Call.tasks, lay_goto, lay_region_jump hs (Or.inr ha), lay_statements_nil, lay_nil,
        written, Step.hasText, Line.hasText]
  | @goto a i stop v w ok s hs ha _ ih =>
      have hlay : lay g labels v [.statements [.goto a] i stop]
          = lay g labels v [.region (some a) i stop] := by
        rw [lay_goto, ← List.singleton_append, lay_append, lay_statements_nil, lay_nil,
          List.append_nil]
      rw [Call.tasks, hlay]
      exact ih
  | simple hb hg _ ih =>
      rw [Call.tasks, lay_simple hb hg, lay_statements_nil, ← lay_line]
      exact ih

end Layout

/-- **Laying out always ends.**  Whatever the blocks of a routine hold and wherever they lead,
whatever was placed before and where the call is to stop, there is one way in which the call ends.
It writes the lines of the layout, unless one of them has no text, and leaves the blocks placed that
were placed before and those that it has placed itself: blocks of the routine, none of them twice
and none placed before. -/
theorem Routine.layTasks_ends (r : Routine) (c : Layout.Call) :
    ∃ ok s w, Layout.Ends r.graph r.labels c r.visited ok s w ∧
      (∀ ok' s' w', Layout.Ends r.graph r.labels c r.visited ok' s' w' →
        ok' = ok ∧ s' = s ∧ w' = w) ∧
      ok = (r.layTasks c.tasks).1.all (·.hasText) ∧
      (ok = true → (r.layTasks c.tasks).1 = Layout.lines s) ∧
      w = (r.layTasks c.tasks).2 ∧
      w = r.visited ++ Layout.places s ∧
      (Layout.places s).Nodup ∧ ∀ a ∈ Layout.places s, a ∉ r.visited ∧ a ∈ r.graph.starts := by
  obtain ⟨ok, s, w, h⟩ := Layout.exists_ends r.graph r.labels c r.visited
  obtain ⟨hok, hs⟩ := h.eq_lay
  refine ⟨ok, s, w, h, fun ok' s' w' h' => ?_, hok.trans (Layout.all_hasText_lines _).symm,
    fun htrue => ?_, ?_, h.visited_eq, h.places_fresh⟩
  · obtain ⟨hok', hs'⟩ := h'.eq_lay
    obtain rfl : s' = s := hs'.trans hs.symm
    exact ⟨hok'.trans hok.symm, rfl, h'.visited_eq.trans h.visited_eq.symm⟩
  · rw [hs, Layout.written_of_all (hok ▸ htrue)]
    rfl
  · rw [h.visited_eq, hs, Layout.places_written]
    rfl

end ScriptLift
