import ScriptLift.Layout
import ScriptLift.Proofs.Lift.Ending

/-!
# The shape of a layout

Tasks are laid out one after the other (`Layout.lay_append`), so the layout of a region is made up
from the layouts of the regions inside it.  `Layout.Laid` says how, block by block: the plain
statements of a block stand first, and what follows depends on how the block ends.
-/

namespace ScriptLift.Layout

variable {g : Graph} {labels v : List Int} {i : Int} {stop : Option Int} {ts : List Task}

/-! ### One task at a time -/

/-- The blocks placed in the steps, in order. -/
def places (steps : List Step) : List Int :=
  steps.filterMap Step.placed?

@[simp]
theorem places_nil : places [] = [] := rfl

@[simp]
theorem places_line (l : Line) (s : List Step) : places (.line l :: s) = places s := rfl

@[simp]
theorem places_place (a : Int) (s : List Step) : places (.place a :: s) = a :: places s := rfl

/-- The blocks placed, in the order of the steps. -/
@[simp]
theorem places_append (s t : List Step) : places (s ++ t) = places s ++ places t := by
  simp [places]

@[simp]
theorem lines_nil : lines [] = [] := rfl

@[simp]
theorem lines_line (l : Line) (s : List Step) : lines (.line l :: s) = l :: lines s := rfl

@[simp]
theorem lines_place (a : Int) (s : List Step) : lines (.place a :: s) = lines s := rfl

/-- The lines written, in the order of the steps. -/
@[simp]
theorem lines_append (s t : List Step) : lines (s ++ t) = lines s ++ lines t := by
  simp [lines]

/-- A label places no block. -/
@[simp]
theorem places_labelLine (a j : Int) : places (labelLine labels a j) = [] := by
  unfold labelLine
  split <;> rfl

theorem lay_nil : lay g labels v [] = [] := by
  rw [lay]

/-- A line that is a task is written. -/
theorem lay_line (l : Line) : lay g labels v (.line l :: ts) = .line l :: lay g labels v ts := by
  rw [lay]

theorem lay_statements_nil :
    lay g labels v (.statements [] i stop :: ts) = lay g labels v ts := by
  rw [lay]

/-- A statement that neither branches nor jumps is a line of its own. -/
theorem lay_simple {s : Stmt} {ss : List Stmt} (hb : ∀ c n join other, s ≠ .branch c n join other)
    (hg : ∀ a, s ≠ .goto a) :
    lay g labels v (.statements (s :: ss) i stop :: ts)
      = .line (.simple i s) :: lay g labels v (.statements ss i stop :: ts) := by
  rw [lay.eq_def]
  cases s with
  | branch c n join other => exact absurd rfl (hb c n join other)
  | goto a => exact absurd rfl (hg a)
  | assign | call | ret | declare | comment => rfl

/-- A branch is its first line, and then its parts before the statements behind it. -/
theorem lay_branch (c : Expr) (n : Int) (join other : Option Int) (ss : List Stmt) :
    lay g labels v (.statements (.branch c n join other :: ss) i stop :: ts)
      = .line (.opening i c) :: lay g labels v
          (branchTasks n join other i ++ .statements ss i stop :: ts) := by
  rw [lay.eq_def]

/-- A region that starts nowhere is over. -/
theorem lay_region_none : lay g labels v (.region none i stop :: ts) = lay g labels v ts := by
  rw [lay]

/-- A region is over where it is to stop. -/
theorem lay_region_stop {a : Int} :
    lay g labels v (.region (some a) i (some a) :: ts) = lay g labels v ts := by
  rw [lay.eq_def]
  simp

/-- A block that is placed already, or does not exist, is jumped to. -/
theorem lay_region_jump {a : Int} (hs : stop ≠ some a) (h : g.block? a = none ∨ a ∈ v) :
    lay g labels v (.region (some a) i stop :: ts) = .line (.goto i a) :: lay g labels v ts := by
  rw [lay.eq_def]
  simp only [hs, if_false]
  split
  · rfl
  · rename_i b hb
    have ha : a ∈ v := h.resolve_left (by simp [hb])
    simp [ha]

/-- Any other block is placed here, its label in front, and the region goes on behind its
statements. -/
theorem lay_region_place {a : Int} {b : Block} (hs : stop ≠ some a) (hb : g.block? a = some b)
    (ha : a ∉ v) :
    lay g labels v (.region (some a) i stop :: ts)
      = .place a :: labelLine labels a i ++ lay g labels (v ++ [a])
          (.statements b.statements i stop :: .region b.continuation i stop :: ts) := by
  rw [lay.eq_def]
  simp only [hs, if_false]
  split
  · rename_i hno
    simp [hb] at hno
  · rename_i b' hb'
    obtain rfl : b' = b := Option.some.inj (hb'.symm.trans hb)
    simp [ha]

/-- A `goto` among the statements is laid out as the region it goes to. -/
theorem lay_goto (a : Int) (ss : List Stmt) :
    lay g labels v (.statements (.goto a :: ss) i stop :: ts)
      = lay g labels v (.region (some a) i stop :: .statements ss i stop :: ts) := by
  by_cases hs : stop = some a
  · rw [hs, lay_region_stop, lay.eq_def]
    simp
  by_cases ha : a ∈ v
  · rw [lay_region_jump hs (Or.inr ha), lay.eq_def]
    simp [hs, ha]
  · rw [lay.eq_def]
    simp [hs, ha]

/-- **Tasks are laid out one after the other.** -/
theorem lay_append (ts us : List Task) :
    lay g labels v (ts ++ us)
      = lay g labels v ts ++ lay g labels (v ++ places (lay g labels v ts)) us := by
  fun_induction lay g labels v ts with
  | case1 v => simp
  | case2 v l ts ih => simp [lay_line, ih]
  | case3 v i stop ts ih => rw [List.cons_append, lay_statements_nil, ih]
  | case4 v ss i stop ts c n join other ih =>
      rw [List.cons_append, lay_branch]
      simp_all
  | case5 v ss i ts a ih =>
      rw [List.cons_append, lay_goto, lay_region_stop, ← List.cons_append, ih]
  | case6 v ss i stop ts a hs ha ih =>
      rw [List.cons_append, lay_goto, lay_region_jump hs (Or.inr ha), ← List.cons_append, ih]
      simp
  | case7 v ss i stop ts a hs ha ih =>
      rw [List.cons_append, lay_goto, ← List.cons_append, ← List.cons_append, ih]
  | case8 v ss i stop ts s hb hg ih =>
      rw [List.cons_append, lay_simple hb hg, ← List.cons_append, ih]
      simp
  | case9 v i stop ts ih => rw [List.cons_append, lay_region_none, ih]
  | case10 v a i ts ih => rw [List.cons_append, lay_region_stop, ih]
  | case11 v a i stop ts hs hb ih =>
      rw [List.cons_append, lay_region_jump hs (Or.inl hb), ih]
      simp
  | case12 v a i stop ts hs b hb ha ih =>
      rw [List.cons_append, lay_region_jump hs (Or.inr ha), ih]
      simp
  | case13 v a i stop ts hs b hb ha ih =>
      rw [List.cons_append, lay_region_place hs hb ha, ← List.cons_append, ← List.cons_append, ih]
      simp [List.append_assoc]

/-! ### Regions -/

/-- A block is placed: its label if it needs one, and its plain statements. -/
def head (labels : List Int) (a i : Int) (plain : List Stmt) : List Step :=
  .place a :: (labelLine labels a i ++ plain.map fun s => .line (.simple i s))

/-- The front of a block places that block and no other. -/
@[simp]
theorem places_head (labels : List Int) (a i : Int) (plain : List Stmt) :
    places (head labels a i plain) = [a] := by
  have : places (plain.map fun s => .line (.simple i s)) = [] := by
    induction plain with
    | nil => rfl
    | cons s plain ih => rw [List.map_cons, places_line, ih]
  simp [head, this]

/-- **How a region is laid out.**  `Laid g labels v a i stop s` says that `s` are the steps that lay
out the region from `a` up to `stop` when the blocks in `v` have been placed before. -/
inductive Laid (g : Graph) (labels : List Int) :
    List Int → Option Int → Int → Option Int → List Step → Prop where
  /-- There is nothing to lay out. -/
  | nothing {v : List Int} {i : Int} {stop : Option Int} : Laid g labels v none i stop []
  /-- The region ends where it starts. -/
  | stop {v : List Int} {a i : Int} : Laid g labels v (some a) i (some a) []
  /-- The block stands elsewhere, or there is none. -/
  | jump {v : List Int} {a i : Int} {stop : Option Int} : stop ≠ some a →
      (g.block? a = none ∨ a ∈ v) → Laid g labels v (some a) i stop [.line (.goto i a)]
  | ret {v : List Int} {a i : Int} {stop : Option Int} {b : Block} {plain : List Stmt}
      {values : List Expr} : stop ≠ some a → g.block? a = some b → a ∉ v →
      b.Formed plain (.stop values) →
      Laid g labels v (some a) i stop
        (head labels a i plain ++ [.line (.simple i (.ret values))])
  /-- The block goes on to another, by a jump or without. -/
  | go {v : List Int} {a i : Int} {stop : Option Int} {b : Block} {plain : List Stmt} {e : Ending}
      {next : Option Int} {s : List Step} : stop ≠ some a → g.block? a = some b → a ∉ v →
      b.Formed plain e → e.onward? = some next → Laid g labels (v ++ [a]) next i stop s →
      Laid g labels v (some a) i stop (head labels a i plain ++ s)
  /-- A branch with one part. -/
  | fork {v : List Int} {a i : Int} {stop : Option Int} {b : Block} {plain : List Stmt} {c : Expr}
      {n join : Int} {s₁ s₂ : List Step} : stop ≠ some a → g.block? a = some b → a ∉ v →
      b.Formed plain (.fork c n join none) →
      Laid g labels (v ++ [a]) (some n) (i + 1) (some join) s₁ →
      Laid g labels (v ++ [a] ++ places s₁) (some join) i stop s₂ →
      Laid g labels v (some a) i stop
        (head labels a i plain ++ .line (.opening i c) :: (s₁ ++ .line (.closing i) :: s₂))
  /-- A branch with two parts. -/
  | forkElse {v : List Int} {a i : Int} {stop : Option Int} {b : Block} {plain : List Stmt}
      {c : Expr} {n join t : Int} {s₁ s₂ s₃ : List Step} : stop ≠ some a → g.block? a = some b →
      a ∉ v → b.Formed plain (.fork c n join (some t)) →
      Laid g labels (v ++ [a]) (some n) (i + 1) (some join) s₁ →
      Laid g labels (v ++ [a] ++ places s₁) (some t) (i + 1) (some join) s₂ →
      Laid g labels (v ++ [a] ++ places s₁ ++ places s₂) (some join) i stop s₃ →
      Laid g labels v (some a) i stop
        (head labels a i plain ++ .line (.opening i c) ::
          (s₁ ++ .line (.otherwise i) :: (s₂ ++ .line (.closing i) :: s₃)))

/-- Plain statements are written one by one. -/
theorem lay_plains {plain : List Stmt} (h : ∀ s ∈ plain, s.IsPlain) (ss : List Stmt) :
    lay g labels v (.statements (plain ++ ss) i stop :: ts)
      = (plain.map fun s => .line (.simple i s))
        ++ lay g labels v (.statements ss i stop :: ts) := by
  induction plain with
  | nil => rfl
  | cons s plain ih =>
      have hs : s.IsPlain := h s (by simp)
      rw [List.cons_append, lay_simple (by rintro c n join other rfl; exact hs)
        (by rintro a rfl; exact hs), ih fun s hs => h s (by simp [hs])]
      rfl

/-- A block that is placed: its head, and what becomes of its ending and its continuation. -/
theorem lay_formed {a : Int} {b : Block} {plain : List Stmt} {e : Ending} (hs : stop ≠ some a)
    (hb : g.block? a = some b) (ha : a ∉ v) (hf : b.Formed plain e) :
    lay g labels v [.region (some a) i stop]
      = head labels a i plain
        ++ lay g labels (v ++ [a])
          [.statements e.statements i stop, .region e.continuation i stop] := by
  rw [lay_region_place hs hb ha, hf.statements, hf.continuation, lay_plains hf.allPlain]
  simp [head]

/-- Behind a return the region is over. -/
theorem lay_stop (values : List Expr) :
    lay g labels v [.statements (Ending.stop values).statements i stop,
        .region (Ending.stop values).continuation i stop]
      = [.line (.simple i (.ret values))] := by
  change lay g labels v [.statements [.ret values] i stop, .region none i stop] = _
  rw [lay_simple (by simp) (by simp), lay_statements_nil, lay_region_none, lay_nil]

/-- An ending without a choice is laid out as the region it goes on to. -/
theorem lay_onward {e : Ending} {next : Option Int} (h : e.onward? = some next) :
    lay g labels v [.statements e.statements i stop, .region e.continuation i stop]
      = lay g labels v [.region next i stop] := by
  cases e with
  | goto t =>
      cases h
      change lay g labels v [.statements [.goto t] i stop, .region none i stop] = _
      rw [lay_goto]
      change lay g labels v ([.region (some t) i stop] ++
        [.statements [] i stop, .region none i stop]) = _
      rw [lay_append, lay_statements_nil, lay_region_none, lay_nil, List.append_nil]
  | pass n =>
      cases h
      exact lay_statements_nil
  | stop | fork => cases h

/-- A branch without an `else`: its part up to the join, and then the join. -/
theorem lay_fork (c : Expr) (n join : Int) :
    lay g labels v [.statements (Ending.fork c n join none).statements i stop,
        .region (Ending.fork c n join none).continuation i stop]
      = let s₁ := lay g labels v [.region (some n) (i + 1) (some join)]
        .line (.opening i c) ::
          (s₁ ++ .line (.closing i) ::
            lay g labels (v ++ places s₁) [.region (some join) i stop]) := by
  change lay g labels v [.statements [.branch c n (some join) none] i stop,
    .region (some join) i stop] = _
  rw [lay_branch]
  change _ :: lay g labels v ([.region (some n) (i + 1) (some join)] ++
    [.line (.closing i), .statements [] i stop, .region (some join) i stop]) = _
  rw [lay_append, lay_line, lay_statements_nil]

/-- A branch with an `else`: the second part starts with the blocks placed in the first. -/
theorem lay_forkElse (c : Expr) (n join t : Int) :
    lay g labels v [.statements (Ending.fork c n join (some t)).statements i stop,
        .region (Ending.fork c n join (some t)).continuation i stop]
      = let s₁ := lay g labels v [.region (some n) (i + 1) (some join)]
        let s₂ := lay g labels (v ++ places s₁) [.region (some t) (i + 1) (some join)]
        .line (.opening i c) ::
          (s₁ ++ .line (.otherwise i) ::
            (s₂ ++ .line (.closing i) ::
              lay g labels (v ++ places s₁ ++ places s₂) [.region (some join) i stop])) := by
  change lay g labels v [.statements [.branch c n (some join) (some t)] i stop,
    .region (some join) i stop] = _
  rw [lay_branch]
  change _ :: lay g labels v ([.region (some n) (i + 1) (some join)] ++
    .line (.otherwise i) :: ([.region (some t) (i + 1) (some join)] ++
      [.line (.closing i), .statements [] i stop, .region (some join) i stop])) = _
  rw [lay_append, lay_line, lay_append, lay_line, lay_statements_nil]

/-- Placing blocks leaves no more of them to place. -/
theorem unvisited_append_le (keys v w : List Int) : unvisited keys (v ++ w) ≤ unvisited keys v := by
  unfold unvisited
  rw [← List.countP_eq_length_filter, ← List.countP_eq_length_filter]
  refine List.countP_mono_left fun k _ hk => ?_
  simp only [List.mem_append, not_or, decide_eq_true_eq] at hk ⊢
  exact hk.1

/-- **Every region is laid out so**, in a graph of lifted blocks. -/
theorem laid_lay (hg : ∀ a b, g.block? a = some b → ∃ plain e, b.Formed plain e) (v : List Int)
    (a : Option Int) (i : Int) (stop : Option Int) :
    Laid g labels v a i stop (lay g labels v [.region a i stop]) := by
  -- the regions inside a block are laid out when the block itself has been placed
  induction hn : unvisited g.starts v using Nat.strongRecOn generalizing v a i stop with
  | ind n ih =>
    cases a with
    | none =>
        rw [lay_region_none, lay_nil]
        exact .nothing
    | some a =>
        by_cases hs : stop = some a
        · rw [hs, lay_region_stop, lay_nil]
          exact .stop
        by_cases hj : g.block? a = none ∨ a ∈ v
        · rw [lay_region_jump hs hj, lay_nil]
          exact .jump hs hj
        rw [not_or] at hj
        obtain ⟨b, hb⟩ := Option.ne_none_iff_exists'.mp hj.1
        obtain ⟨plain, e, hf⟩ := hg a b hb
        have inside : ∀ (w : List Int) (a' : Option Int) (i' : Int) (stop' : Option Int),
            Laid g labels (v ++ [a] ++ w) a' i' stop'
              (lay g labels (v ++ [a] ++ w) [.region a' i' stop']) := fun w a' i' stop' =>
          ih _ (hn ▸ Nat.lt_of_le_of_lt (unvisited_append_le _ _ w)
            (unvisited_append_lt (Graph.mem_starts_of_block? hb) hj.2)) _ _ _ _ rfl
        have first : ∀ (a' : Option Int) (i' : Int) (stop' : Option Int),
            Laid g labels (v ++ [a]) a' i' stop' (lay g labels (v ++ [a]) [.region a' i' stop']) :=
          fun a' i' stop' => by simpa using inside [] a' i' stop'
        rw [lay_formed hs hb hj.2 hf]
        cases e with
        | stop values =>
            rw [lay_stop]
            exact .ret hs hb hj.2 hf
        | goto t =>
            rw [lay_onward rfl]
            exact .go hs hb hj.2 hf rfl (first _ _ _)
        | pass n =>
            rw [lay_onward rfl]
            exact .go hs hb hj.2 hf rfl (first _ _ _)
        | fork c n join other =>
            cases other with
            | none =>
                rw [lay_fork]
                exact .fork hs hb hj.2 hf (first _ _ _) (inside _ _ _ _)
            | some t =>
                rw [lay_forkElse]
                refine .forkElse hs hb hj.2 hf (first _ _ _) (inside _ _ _ _) ?_
                simpa [List.append_assoc] using inside (_ ++ _) (some join) i stop

end ScriptLift.Layout
