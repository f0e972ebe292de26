import Mathlib
import ScriptLift.Proofs.Lift.Visit

/-!
# Where ways meet

A block is carried out once, with the stack of one of the blocks before it.  What is known of the
others is that their stacks were compared with this one by depth.  The invariant of the walk
(`Stage.Joined`) keeps what follows: the stack that a block visited leaves behind is deeper than its
entry stack by the effect of its instructions, and as deep as the entry stack of every successor,
unless a report says otherwise.

So a lift without reports of missing values and of different depths is well-stacked: on every path
from the entry, the effects add up to the depth of the entry stack (`Program.lift_wellStacked`).
The stacks at a join agree in depth only; the one that comes in is that of the block visited first
(`Stage.Sown`, `Program.lift_joins_agree`).
-/

namespace ScriptLift

/-- How much deeper the block leaves the stack. -/
def Block.effect (p : Program) (b : Block) : Int :=
  p.totalEffect b.tape.instructions

theorem Block.SameFlow.effect {b b' : Block} (h : b.SameFlow b') (p : Program) :
    b'.effect p = b.effect p := by
  rw [Block.effect, Block.effect, h.instructions]

theorem Block.exitStack_of_getLast? {b : Block} {c : Cell} (h : c ∈ b.tape.cells.getLast?) :
    b.exitStack = c.stack := by
  rw [Block.exitStack, Option.mem_def.mp h]
  rfl

theorem Block.Holds.exitStack {Q : Expr → Prop} {b : Block} (h : b.Holds Q) :
    ∀ e ∈ b.exitStack, Q e := by
  unfold Block.exitStack
  cases hl : b.tape.cells.getLast? with
  | none => exact h.entryStack
  | some c => exact h.tape c (List.mem_of_getLast? hl)

theorem Program.SameTables.totalEffect {p p' : Program} (h : p.SameTables p')
    (is : List Instruction) : p'.totalEffect is = p.totalEffect is := by
  have heffect : ∀ i, p'.effect i = p.effect i := by
    intro i
    unfold Program.effect Program.operationEffect
    simp only [h.handled, h.callee?]
  induction is with
  | nil => rfl
  | cons i is ih => rw [Program.totalEffect, Program.totalEffect, heffect, ih]

namespace Stage

variable {s s' : Stage} {a c t entry : Int} {b b' d' : Block} {p : Program}
  {visited queue : List Int}

/-! ### One visit -/

/-- What has become of the block at `c` by a visit to `a`, where `b` became `b'`. -/
inductive Visited.Fate (s : Stage) (a : Int) (b b' : Block) (c : Int) : Block → Prop where
  | ran : c = a → Fate s a b b' c b'
  | kept {d : Block} : c ≠ a → s.routine.graph.block? c = some d →
      d.seeded = true ∨ c ∉ b.successors → Fate s a b b' c d
  | settled {d : Block} : c ≠ a → s.routine.graph.block? c = some d → d.seeded = false →
      c ∈ b.successors → Fate s a b b' c { d with entryStack := b'.exitStack, seeded := true }

theorem Visited.fate (h : s.Visited a b b' s') (hb : b.seeded = true)
    (hd : s'.routine.graph.block? c = some d') : Fate s a b b' c d' := by
  rw [h.blocks] at hd
  obtain ⟨d, hdc, rfl⟩ := Option.map_eq_some_iff.mp hd
  by_cases hc : c = a
  · rw [if_pos hc, Option.some.injEq] at hdc
    subst hdc
    have hkeep : (if c ∈ b.successors then b'.settle b'.exitStack else b') = b' := by
      rw [Block.settle_of_seeded (h.ran.seeded.trans hb), ite_self]
    rw [hkeep]
    exact .ran hc
  · rw [if_neg hc] at hdc
    by_cases ht : c ∈ b.successors
    · rw [if_pos ht]
      cases hs : d.seeded with
      | true =>
          rw [Block.settle_of_seeded hs]
          exact .kept hc hdc (Or.inl hs)
      | false =>
          rw [Block.settle_of_not_seeded hs]
          exact .settled hc hdc hs ht
    · rw [if_neg ht]
      exact .kept hc hdc (Or.inr ht)

/-- The block visited is there as it was carried out. -/
theorem Visited.block?_self (h : s.Visited a b b' s') (hb : b.seeded = true) :
    s'.routine.graph.block? a = some b' := by
  rw [h.blocks, if_pos rfl, Option.map_some, Block.settle_of_seeded (h.ran.seeded.trans hb),
    ite_self]

/-- Another block that has its entry stack stays as it is. -/
theorem Visited.block?_of_seeded (h : s.Visited a b b' s') (hc : c ≠ a)
    (hd : s.routine.graph.block? c = some d') (hs : d'.seeded = true) :
    s'.routine.graph.block? c = some d' := by
  rw [h.blocks, if_neg hc, hd, Option.map_some, Block.settle_of_seeded hs, ite_self]

/-- Without a report, the successors start with a stack of the depth that was left behind. -/
theorem Visited.length_entryStack (h : s.Visited a b b' s')
    (hm : ∀ j n x e, Event.joinMismatch j n x e ∉ s'.events) (ht : t ∈ b.successors)
    (hd : s'.routine.graph.block? t = some d') : d'.entryStack.length = b'.exitStack.length := by
  obtain ⟨events, -, heq⟩ := h.events
  refine Classical.byContradiction fun hne =>
    hm d'.start b'.exitStack.length a d'.entryStack.length ?_
  rw [heq]
  refine List.mem_append_right _ (List.mem_filterMap.mpr ⟨t, ht, ?_⟩)
  simp [hd, Block.mismatch?, hne]

/-! ### The invariant -/

/-- What holds when the blocks in `visited` have been carried out and those in `queue` are
waiting. -/
structure Joined (p : Program) (entry : Int) (s : Stage) (visited queue : List Int) : Prop where
  tables : p.SameTables s.program
  origin : entry ∈ visited ∨ entry ∈ queue
  entryStack : ∀ b, s.routine.graph.block? entry = some b → b.entryStack = []
  seeded : ∀ a b, s.routine.graph.block? a = some b → a ∈ visited ∨ a ∈ queue → b.seeded = true
  closed : ∀ a b, s.routine.graph.block? a = some b → a ∈ visited →
    ∀ t ∈ b.successors, t ∈ visited ∨ t ∈ queue
  depth : Event.underflow ∉ s.events → ∀ a b, s.routine.graph.block? a = some b → a ∈ visited →
    (b.exitStack.length : Int) = b.entryStack.length + b.effect p
  join : (∀ j n x e, Event.joinMismatch j n x e ∉ s.events) →
    ∀ a b, s.routine.graph.block? a = some b → a ∈ visited → ∀ t ∈ b.successors,
      ∀ c, s.routine.graph.block? t = some c → c.entryStack.length = b.exitStack.length

/-- A block visited before is passed over. -/
theorem Joined.skip (ha : a ∈ visited) (h : Joined p entry s visited (a :: queue)) :
    Joined p entry s visited queue :=
  { h with
    origin := Worklist.mem_of_skip ha h.origin
    seeded := fun c b hb hc => h.seeded c b hb (hc.imp_right (List.mem_cons_of_mem a))
    closed := fun c b hb hc t ht => Worklist.mem_of_skip ha (h.closed c b hb hc t ht) }

/-- What a walk leaves to tell where it has been does not matter. -/
theorem Joined.done (h : Joined p entry s visited queue) :
    Joined p entry { s with routine := { s.routine with visited := [] } } visited queue :=
  ⟨h.tables, h.origin, h.entryStack, h.seeded, h.closed, h.depth, h.join⟩

/-- The block to be visited next has its entry stack. -/
theorem Joined.seeded_head (h : Joined p entry s visited (a :: queue)) (hv : s.Visited a b b' s') :
    b.seeded = true :=
  h.seeded a b hv.found (Or.inr (List.mem_cons_self ..))

/-- A visit leaves alone the entry stack of a block that has one. -/
theorem Joined.entryStack_visit (h : Joined p entry s visited (a :: queue))
    (hv : s.Visited a b b' s') (hc : c ∈ visited ∨ c ∈ a :: queue)
    (hd : s'.routine.graph.block? c = some d') :
    ∃ d, s.routine.graph.block? c = some d ∧ d'.entryStack = d.entryStack := by
  cases hv.fate (h.seeded_head hv) hd with
  | ran hca => exact ⟨b, hca ▸ hv.found, hv.ran.entryStack⟩
  | kept _ hd _ => exact ⟨d', hd, rfl⟩
  | settled _ hold hs _ =>
      rw [h.seeded c _ hold hc] at hs
      cases hs

/-- A block visited is the one carried out just now, or it is what it was. -/
theorem Joined.visited_cases (h : Joined p entry s visited (a :: queue)) (hv : s.Visited a b b' s')
    (hd : s'.routine.graph.block? c = some d') (hc : c ∈ visited ++ [a]) :
    d' = b' ∨ (c ∈ visited ∧ s.routine.graph.block? c = some d') := by
  cases hv.fate (h.seeded_head hv) hd with
  | ran _ => exact Or.inl rfl
  | kept hca hd _ => exact Or.inr ⟨by simpa [hca] using hc, hd⟩
  | settled hca hold hs _ =>
      rw [h.seeded c _ hold (Or.inl (by simpa [hca] using hc))] at hs
      cases hs

theorem Joined.seeded_visit (h : Joined p entry s visited (a :: queue)) (hv : s.Visited a b b' s')
    (hd : s'.routine.graph.block? c = some d')
    (hc : c ∈ visited ++ [a] ∨ c ∈ queue ++ b.successors.filter fun t => t ∉ visited ++ [a]) :
    d'.seeded = true := by
  cases hv.fate (h.seeded_head hv) hd with
  | ran _ => exact hv.ran.seeded.trans (h.seeded_head hv)
  | settled _ _ _ _ => rfl
  | kept hca hd hs =>
      rcases hs with hs | hs
      · exact hs
      · refine h.seeded c d' hd ?_
        rcases hc with hc | hc
        · exact Or.inl (by simpa [hca] using hc)
        · rcases List.mem_append.mp hc with hc | hc
          · exact Or.inr (List.mem_cons_of_mem a hc)
          · exact absurd (List.mem_filter.mp hc).1 hs

/-- **Visiting a block keeps the invariant.** -/
theorem Joined.visit (h : Joined p entry s visited (a :: queue)) (hv : s.Visited a b b' s') :
    Joined p entry s' (visited ++ [a])
      (queue ++ b.successors.filter fun t => t ∉ visited ++ [a]) := by
  refine ⟨h.tables.trans hv.tables, Worklist.mem_of_visit h.origin, fun d hd => ?_,
    fun c d hd hc => h.seeded_visit hv hd hc, fun c d hd hc t ht => ?_, fun hu c d hd hc => ?_,
    fun hm c d hd hc t ht e he => ?_⟩
  · obtain ⟨d₀, hd₀, hstack⟩ := h.entryStack_visit hv h.origin hd
    rw [hstack]
    exact h.entryStack d₀ hd₀
  · rcases h.visited_cases hv hd hc with rfl | ⟨hcv, hd⟩
    · rw [hv.ran.successors] at ht
      exact Worklist.mem_of_found ht
    · exact Worklist.mem_of_visit (h.closed c d hd hcv t ht)
  · rcases h.visited_cases hv hd hc with rfl | ⟨hcv, hd⟩
    · rw [hv.ran.effect, hv.ran.entryStack, Block.effect, ← h.tables.totalEffect]
      exact hv.ran.depth hu
    · exact h.depth (fun hm => hu (hv.prefix_events.mem hm)) c d hd hcv
  · rcases h.visited_cases hv hd hc with rfl | ⟨hcv, hd⟩
    · rw [hv.ran.successors] at ht
      exact hv.length_entryStack hm ht he
    · -- the successor had its entry stack before, which was compared then
      have hm' : ∀ j n x e, Event.joinMismatch j n x e ∉ s.events :=
        fun j n x e hmem => hm j n x e (hv.prefix_events.mem hmem)
      obtain ⟨e₀, he₀, hstack⟩ := h.entryStack_visit hv (h.closed c d hd hcv t ht) he
      rw [hstack]
      exact h.join hm' c d hd hcv t ht e₀ he₀

/-- The stack that the entry starts with is empty. -/
theorem block?_settled {d : Block} (h : s.settled.routine.graph.block? c = some d) :
    ∃ d₀, s.routine.graph.block? c = some d₀ ∧
      d = if c = s.routine.address then { d₀ with entryStack := [], seeded := true } else d₀ := by
  dsimp only [settled] at h
  rw [Graph.block?_update (fun b => { b with entryStack := [], seeded := true }) fun _ h => h] at h
  by_cases hc : c = s.routine.address
  · rw [if_pos hc] at h
    obtain ⟨d₀, hd₀, rfl⟩ := Option.map_eq_some_iff.mp h
    exact ⟨d₀, hc ▸ hd₀, by simp [hc]⟩
  · rw [if_neg hc] at h
    exact ⟨d, h, by simp [hc]⟩

/-- What is true of a block whatever stack it starts with is true of it at the start of a walk. -/
theorem map_block?_settled {α : Type} {g : Block → α}
    (hg : ∀ b : Block, g { b with entryStack := [], seeded := true } = g b) (s : Stage) (c : Int) :
    (s.settled.routine.graph.block? c).map g = (s.routine.graph.block? c).map g := by
  dsimp only [settled]
  rw [Graph.block?_update (fun b => { b with entryStack := [], seeded := true }) fun _ h => h]
  split
  · rename_i hc
    rw [hc, Option.map_map]
    exact congrArg (Option.map · _) (funext hg)
  · rfl

theorem successors_settled (s : Stage) (c : Int) :
    s.settled.routine.graph.successors c = s.routine.graph.successors c := by
  rw [Graph.successors, Graph.successors, map_block?_settled fun _ => rfl]

theorem starts_settled (s : Stage) : s.settled.routine.graph.starts = s.routine.graph.starts :=
  Graph.starts_update _ fun _ h => h

/-- The walk starts with nothing visited and nothing on the stack. -/
theorem joined_start {r : Routine} (events : List Event) (p : Program) :
    Joined p r.address (settled ⟨p, r, events⟩) [] [r.address] := by
  refine ⟨.refl p, by simp, fun b hb => ?_, fun a b hb ha => ?_, by simp, by simp, by simp⟩
  · obtain ⟨b₀, -, rfl⟩ := block?_settled hb
    simp
  · obtain ⟨b₀, -, rfl⟩ := block?_settled hb
    have ha : a = r.address := by simpa using ha
    simp [ha]

/-! ### Expressions in blocks -/

/-- The expressions in the blocks have the property, as far as no value was missing or what stands
for one has the property. -/
def AllHold (Q : Expr → Prop) (s : Stage) : Prop :=
  Event.underflow ∉ s.events ∨ Q .underflow →
    ∀ a b, s.routine.graph.block? a = some b → b.Holds Q

theorem AllHold.visit {Q : Expr → Prop} (hQ : Expr.Hereditary Q) (hb : b.seeded = true)
    (h : AllHold Q s) (hv : s.Visited a b b' s') : AllHold Q s' := by
  intro hu c d hd
  have hold := h (hu.imp_left fun hu hm => hu (hv.prefix_events.mem hm))
  have hb' := hv.ran.holds Q hQ hu (hold a b hv.found)
  cases hv.fate hb hd with
  | ran _ => exact hb'
  | kept _ hc _ => exact hold c d hc
  | settled _ hc _ _ =>
      have hc' := hold c _ hc
      exact ⟨hc'.statements, hc'.tape, hb'.exitStack⟩

theorem AllHold.settled {Q : Expr → Prop} (h : AllHold Q s) : AllHold Q s.settled := by
  intro hu c d hd
  obtain ⟨d₀, hd₀, rfl⟩ := block?_settled hd
  have hold := h hu c d₀ hd₀
  split
  · exact ⟨hold.statements, hold.tape, by simp⟩
  · exact hold

/-! ### Who came first -/

/-- A block other than the entry that has its entry stack has it from the first of the blocks before
it that was visited. -/
def Sown (entry : Int) (s : Stage) (visited : List Int) : Prop :=
  ∀ t c, s.routine.graph.block? t = some c → t ≠ entry → c.seeded = true →
    ∃ a b, visited.find? (fun q => t ∈ s.routine.graph.successors q) = some a ∧
      s.routine.graph.block? a = some b ∧ c.entryStack = b.exitStack

theorem Sown.visit (ha : a ∉ visited) (hj : Joined p entry s visited (a :: queue))
    (h : Sown entry s visited) (hv : s.Visited a b b' s') : Sown entry s' (visited ++ [a]) := by
  have hb : b.seeded = true := hj.seeded_head hv
  -- the first one stays the first, and its block stays as it is
  have first : ∀ {t c}, s.routine.graph.block? t = some c → t ≠ entry → c.seeded = true →
      ∃ q d, (visited ++ [a]).find? (fun q => t ∈ s.routine.graph.successors q) = some q ∧
        s'.routine.graph.block? q = some d ∧ c.entryStack = d.exitStack := by
    intro t c hc ht hs
    obtain ⟨q, d, hq, hd, hst⟩ := h t c hc ht hs
    have hqv : q ∈ visited := List.mem_of_find?_eq_some hq
    have hqa : q ≠ a := fun e => ha (e ▸ hqv)
    exact ⟨q, d, by rw [List.find?_append, hq]; rfl,
      hv.block?_of_seeded hqa hd (hj.seeded q d hd (Or.inl hqv)), hst⟩
  intro t c hc ht hs
  simp only [hv.successors]
  cases hv.fate hb hc with
  | ran hta =>
      rw [hv.ran.entryStack]
      exact first (hta ▸ hv.found) ht hb
  | kept _ hc _ => exact first hc ht hs
  | @settled d _ hd hds hmem =>
      refine ⟨a, b', ?_, hv.block?_self hb, rfl⟩
      have hnone : visited.find? (fun q => t ∈ s.routine.graph.successors q) = none := by
        refine List.find?_eq_none.mpr fun q hq hqt => ?_
        have hqt : t ∈ s.routine.graph.successors q := by simpa using hqt
        cases hqb : s.routine.graph.block? q with
        | none => simp [Graph.successors, hqb] at hqt
        | some e =>
            rw [Graph.successors_of_block? hqb] at hqt
            rw [hj.seeded t d hd (hj.closed q e hqb hq t hqt)] at hds
            cases hds
      rw [List.find?_append, hnone]
      simp [Graph.successors_of_block? hv.found, hmem]

/-! ### Whole routines -/

/-- Interpretation is a walk from the entry, if there is a block. -/
theorem interpret_cases (h : s.interpret = (.ok (), s')) :
    (s.routine.graph.block? s.routine.address = none ∧ s' = s) ∨
      walk s.routine.graph.starts s.settled [] [s.routine.address] = (.ok (), s') := by
  unfold interpret at h
  split at h
  · rename_i hb
    cases h
    exact Or.inl ⟨hb, rfl⟩
  · rename_i b hb
    have hstart := Graph.start_of_block? hb
    dsimp only at h
    rw [Graph.starts_update (fun b => { b with entryStack := [], seeded := true }) fun _ h => h,
      hstart] at h
    exact Or.inr h

end Stage

/-- The depths at which the paths from the entry arrive at the blocks: nothing at the entry, and the
effect of a block more at each of its successors. -/
inductive Graph.Arrives (p : Program) (g : Graph) (entry : Int) : Int → Int → Prop where
  | entry : Arrives p g entry entry 0
  | step {a depth t : Int} {b : Block} : Arrives p g entry a depth → g.block? a = some b →
      t ∈ b.successors → Arrives p g entry t (depth + b.effect p)

/-- When nothing waits, every path arrives with the depth of the entry stack. -/
theorem Stage.Joined.arrives {p : Program} {entry a depth : Int} {s : Stage} {visited : List Int}
    (h : Joined p entry s visited []) (hu : Event.underflow ∉ s.events)
    (hm : ∀ j n x e, Event.joinMismatch j n x e ∉ s.events)
    (ha : s.routine.graph.Arrives p entry a depth) :
    a ∈ visited ∧ ∀ b, s.routine.graph.block? a = some b → depth = b.entryStack.length := by
  induction ha with
  | entry =>
      refine ⟨by simpa using h.origin, fun b hb => ?_⟩
      rw [h.entryStack b hb]
      rfl
  | @step a depth t b _ hb ht ih =>
      obtain ⟨hav, hdepth⟩ := ih
      refine ⟨by simpa using h.closed a b hb hav t ht, fun c hc => ?_⟩
      rw [hdepth b hb, h.join hm a b hb hav t ht c hc, h.depth hu a b hb hav]

/-- Without a block at the entry there is no path to any block. -/
theorem Graph.Arrives.eq_entry {p : Program} {g : Graph} {entry a depth : Int}
    (h : g.Arrives p entry a depth) (he : g.block? entry = none) : a = entry := by
  induction h with
  | entry => rfl
  | step _ hb _ ih =>
      rw [ih, he] at hb
      cases hb

namespace Expr

/-- `x` is the expression or somewhere inside it. -/
inductive Within (x : Expr) : Expr → Prop where
  | self : Within x x
  | left {l r : Expr} {op : String} {t : DataType} : Within x l → Within x (.binary l op r t)
  | right {l r : Expr} {op : String} {t : DataType} : Within x r → Within x (.binary l op r t)
  | operand {e : Expr} {op : String} {t : DataType} : Within x e → Within x (.unary op e t)
  | arg {e : Expr} {es : List Expr} {name : String} {t : DataType} : e ∈ es → Within x e →
      Within x (.call name es t)

/-- Nothing that stands for a missing value is built into an expression. -/
theorem hereditary_not_within : Hereditary fun e => ¬ underflow.Within e where
  literal v h := by cases h
  var ref h := by cases h
  binary hl hr op t h := by
    cases h with
    | left h => exact hl h
    | right h => exact hr h
  unary he op t h := by
    cases h with
    | operand h => exact he h
  call hes name t h := by
    cases h with
    | arg he h => exact hes _ he h

end Expr

namespace Program

variable {p : Program} {r : Routine}

/-- A lift that succeeds is a discovery and then an interpretation that succeed. -/
theorem interpret_of_lift (h : (p.lift r).value = .ok ()) :
    ∃ order r₀ events, r.discover = ⟨.ok order, r₀, events⟩ ∧ Stage.interpret ⟨p, r₀, events⟩
      = (.ok (), ⟨(p.lift r).state.1, (p.lift r).state.2, (p.lift r).events⟩) := by
  unfold lift at h ⊢
  cases hd : r.discover with
  | mk value r₀ events =>
    cases value with
    | error f => simp [hd] at h
    | ok order =>
        simp only [hd] at h ⊢
        exact ⟨order, r₀, events, rfl, Prod.ext h rfl⟩

end Program

/-- Discovery leaves blocks that nothing has been lifted from. -/
theorem Survey.Shape.holds {s : Survey} {g : Graph} {visited : List Int} {a : Int} {b : Block}
    (h : s.Shape g visited []) (hb : g.block? a = some b) (Q : Expr → Prop) : b.Holds Q := by
  obtain ⟨run, last, next, -, hin⟩ := h.filled_of_block? hb
  have hs : b.statements = [] := congrArg (·.statements) hin
  have he : b.entryStack = [] := congrArg (·.entryStack) hin
  have ht : b.tape = .ofList run := congrArg (·.tape) hin
  exact ⟨by simp [hs], by simp [ht, Tape.Holds, Tape.cells_ofList], by simp [he]⟩

theorem Survey.Shape.not_seeded {s : Survey} {g : Graph} {visited : List Int} {a : Int} {b : Block}
    (h : s.Shape g visited []) (hb : g.block? a = some b) : b.seeded = false := by
  obtain ⟨run, last, next, -, hin⟩ := h.filled_of_block? hb
  exact congrArg (·.seeded) hin

namespace Program

variable {p : Program} {r : Routine}

/-- **What discovery establishes and every visit preserves holds at the end of a lift.** -/
theorem lift_induct {P : Stage → Prop}
    (start : ∀ {order r₀ events}, r.discover = ⟨.ok order, r₀, events⟩ → P ⟨p, r₀, events⟩)
    (settle : ∀ {s : Stage}, P s → P s.settled)
    (visit : ∀ {s a b b' s'}, b.seeded = true → P s → s.Visited a b b' s' → P s')
    (done : ∀ {s : Stage}, P s → P { s with routine := { s.routine with visited := [] } })
    (h : (p.lift r).value = .ok ()) :
    P ⟨(p.lift r).state.1, (p.lift r).state.2, (p.lift r).events⟩ := by
  obtain ⟨order, r₀, events, hdisc, hint⟩ := interpret_of_lift h
  rcases Stage.interpret_cases hint with ⟨-, hs⟩ | hwalk
  · rw [hs]
    exact start hdisc
  · obtain ⟨visited, -, -, hP⟩ := Stage.walk_induct
      (P := fun s visited queue => s.Joined p r₀.address visited queue ∧ P s)
      (fun ha h => ⟨h.1.skip ha, h.2⟩)
      (fun _ h hv => ⟨h.1.visit hv, visit (h.1.seeded_head hv) h.2 hv⟩)
      (fun h => ⟨h.1.done, done h.2⟩) ⟨Stage.joined_start events p, settle (start hdisc)⟩ hwalk
    exact hP

/-- Lifting leaves the tables of the program alone. -/
theorem sameTables_lift (h : (p.lift r).value = .ok ()) : p.SameTables (p.lift r).state.1 :=
  lift_induct (P := fun s => p.SameTables s.program) (fun _ => .refl p) id
    (fun _ h hv => h.trans hv.tables) id h

/-- **What lifting builds has every property that is passed on**, if what stands for a missing value
has it or no value was missing. -/
theorem holds_lift {Q : Expr → Prop} (hQ : Expr.Hereditary Q)
    (hc : r.code = [] → ∀ a b, r.graph.block? a = some b → b.Holds Q)
    (h : (p.lift r).value = .ok ()) (hu : Event.underflow ∉ (p.lift r).events ∨ Q .underflow)
    {a : Int} {b : Block} (hb : (p.lift r).state.2.graph.block? a = some b) : b.Holds Q := by
  refine lift_induct (P := Stage.AllHold Q) (fun {order r₀ events} hdisc _ a b hb => ?_)
    (fun h => h.settled) (fun hb h hv => h.visit hQ hb hv) id h hu a b hb
  by_cases hcode : r.code = []
  · rw [Routine.discover_of_nil hcode] at hdisc
    cases hdisc
    exact hc hcode a b hb
  · obtain ⟨-, hshape, -⟩ := Routine.discover_visits hcode hdisc
    exact hshape.holds hb Q

/-- **A lift without reports is well-stacked.**  If lifting reports neither a missing value nor
different depths, every path from the entry arrives at a block with the depth of its entry stack,
and nothing stands for a missing value anywhere in a block. -/
theorem lift_wellStacked (p : Program) (r : Routine)
    (hc : r.code = [] → ∀ a b, r.graph.block? a = some b →
      b.Holds fun e => ¬ Expr.underflow.Within e)
    (h : (p.lift r).value = .ok ()) (hu : Event.underflow ∉ (p.lift r).events)
    (hm : ∀ j n x e, Event.joinMismatch j n x e ∉ (p.lift r).events) :
    (∀ a depth b, (p.lift r).state.2.graph.Arrives p r.address a depth →
      (p.lift r).state.2.graph.block? a = some b → depth = b.entryStack.length) ∧
    ∀ a b, (p.lift r).state.2.graph.block? a = some b →
      b.Holds fun e => ¬ Expr.underflow.Within e := by
  refine ⟨fun a depth b ha hb => ?_, fun a b hb =>
    holds_lift Expr.hereditary_not_within hc h (Or.inl hu) hb⟩
  obtain ⟨order, r₀, events, hdisc, hint⟩ := interpret_of_lift h
  have haddr : r₀.address = r.address := by
    by_cases hcode : r.code = []
    · rw [Routine.discover_of_nil hcode] at hdisc
      cases hdisc
      rfl
    · exact (Routine.discover_visits hcode hdisc).1
  rcases Stage.interpret_cases hint with ⟨hnone, hs⟩ | hwalk
  · -- without a block at the entry no path arrives anywhere
    obtain ⟨-, hr, -⟩ := Stage.mk.inj hs
    rw [hr] at ha hb
    rw [← haddr] at ha
    rw [ha.eq_entry hnone, hnone] at hb
    cases hb
  · obtain ⟨visited, -, hjoin⟩ := Stage.walk_induct
      (P := fun s visited queue => s.Joined p r₀.address visited queue)
      (fun ha h => h.skip ha) (fun _ h hv => h.visit hv) (fun h => h.done)
      (Stage.joined_start events p) hwalk
    exact (hjoin.arrives hu hm (haddr ▸ ha)).2 b hb

/-- A value that stays on the stack through a loop. -/
theorem lift_wellStacked_loop :
    let p : Program := { name := "carry", code := [] }
    let r : Routine := {
      name := "carry"
      address := 0
      code := [⟨0, .op .push, .push [.int 1]⟩, ⟨1, .op (.load .static), .slot 0⟩,
        ⟨2, .op .jumpIfZero, .branch 4⟩, ⟨3, .op .jump, .branch 1⟩,
        ⟨4, .op (.store .static), .slot 1⟩, ⟨5, .op .leave, .ret 0 0⟩] }
    (∀ a depth b, (p.lift r).state.2.graph.Arrives p 0 a depth →
      (p.lift r).state.2.graph.block? a = some b → depth = b.entryStack.length) ∧
    ∀ a b, (p.lift r).state.2.graph.block? a = some b →
      b.Holds fun e => ¬ Expr.underflow.Within e := by
  intro p r
  have hlift : ((p.lift r).value, (p.lift r).events) = (.ok (), [.discovered "carry" 4]) := by cbv
  obtain ⟨hok, hevents⟩ := Prod.mk.inj hlift
  exact lift_wellStacked p r (by simp [r]) hok (by rw [hevents]; decide) (by rw [hevents]; simp)

/-- A block made by hand in a routine without code keeps what stands for a missing value. -/
theorem lift_keeps_missing_value :
    let p : Program := { name := "bare", code := [] }
    let r : Routine := {
      name := "bare"
      address := 0
      code := []
      graph := ⟨[{ start := 5, statements := [.assign (.loose "x") .underflow] }]⟩ }
    (p.lift r).value = .ok () ∧ (p.lift r).events = [] ∧
      ∃ b, (p.lift r).state.2.graph.block? 5 = some b ∧
        ¬ b.Holds fun e => ¬ Expr.underflow.Within e := by
  intro p r
  have hlift : p.lift r = ⟨.ok (), (p, r), []⟩ := by
    simp [p, r, lift, Routine.discover, Stage.interpret, Graph.block?]
  rw [hlift]
  refine ⟨rfl, rfl, _, rfl, fun h => ?_⟩
  exact h.statements (.assign (.loose "x") .underflow) (by simp) .underflow (by simp [Stmt.exprs])
    .self

/-- A lift that succeeds where there is code is a discovery and then a walk from the entry. -/
theorem walk_of_lift (hcode : r.code ≠ []) (h : (p.lift r).value = .ok ()) :
    ∃ order r₀ events, r.discover = ⟨.ok order, r₀, events⟩ ∧
      Stage.walk r₀.graph.starts (Stage.settled ⟨p, r₀, events⟩) [] [r.address]
        = (.ok (), ⟨(p.lift r).state.1, (p.lift r).state.2, (p.lift r).events⟩) := by
  obtain ⟨order, r₀, events, hdisc, hint⟩ := interpret_of_lift h
  obtain ⟨haddr, hshape, hvisits⟩ := Routine.discover_visits hcode hdisc
  refine ⟨order, r₀, events, hdisc, ?_⟩
  rcases Stage.interpret_cases hint with ⟨hnone, -⟩ | hwalk
  · obtain ⟨run, last, next, -, hin⟩ := hshape.done r.address (hvisits.queue_subset (by simp))
    dsimp only at hnone
    rw [Graph.inner?, ← haddr, hnone] at hin
    cases hin
  · exact haddr ▸ hwalk

/-- **At the end of a lift that succeeds**, all blocks have been visited in the order of
discovery. -/
theorem joined_lift (hcode : r.code ≠ []) (h : (p.lift r).value = .ok ()) :
    ∃ order, r.discover.value = .ok order ∧
      let s : Stage := ⟨(p.lift r).state.1, (p.lift r).state.2, (p.lift r).events⟩
      s.Joined p r.address order [] ∧ s.Sown r.address order ∧
        ∀ a ∈ s.routine.graph.starts, a ∈ order := by
  obtain ⟨order, r₀, events, hdisc, hwalk⟩ := walk_of_lift hcode h
  obtain ⟨haddr, hshape, hvisits⟩ := Routine.discover_visits hcode hdisc
  refine ⟨order, by rw [hdisc], ?_⟩
  have hsown : Stage.Sown r.address (Stage.settled ⟨p, r₀, events⟩) [] := by
    intro t c hc ht hs
    obtain ⟨c₀, hc₀, rfl⟩ := Stage.block?_settled hc
    rw [if_neg (haddr ▸ ht), hshape.not_seeded hc₀] at hs
    cases hs
  obtain ⟨visited, hv, hjoin, hsown, hstarts⟩ := Stage.walk_induct
    (P := fun s visited queue => s.Joined p r.address visited queue ∧
      s.Sown r.address visited ∧ s.routine.graph.starts = r₀.graph.starts)
    (fun ha h => ⟨h.1.skip ha, h.2⟩)
    (fun ha h hv => ⟨h.1.visit hv, h.2.1.visit ha h.1 hv, hv.starts.trans h.2.2⟩)
    (fun h => ⟨h.1.done, h.2⟩)
    ⟨haddr ▸ Stage.joined_start events p, hsown, Stage.starts_settled _⟩ hwalk
  obtain rfl : visited = order :=
    (hv.congr fun a _ => (Stage.successors_settled _ a).symm).unique hvisits
  exact ⟨hjoin, hsown, fun a ha => by simpa using hshape.starts a (hstarts ▸ ha)⟩

/-- Lifting leaves the instructions of the blocks alone, if there is nothing to discover. -/
theorem instructions_lift_of_nil (hcode : r.code = []) (h : (p.lift r).value = .ok ())
    (hc : ∀ a b, r.graph.block? a = some b → b.tape.instructions = []) {a : Int} {b : Block}
    (hb : (p.lift r).state.2.graph.block? a = some b) : b.tape.instructions = [] := by
  refine lift_induct
    (P := fun s => ∀ a b, s.routine.graph.block? a = some b → b.tape.instructions = [])
    (fun hdisc => ?_) (fun {s} h a b hb => ?_) (fun {s a b b' s'} hb h hv c d hd => ?_) id h a b hb
  · rw [Routine.discover_of_nil hcode] at hdisc
    cases hdisc
    exact hc
  · obtain ⟨b₀, hb₀, rfl⟩ := Stage.block?_settled hb
    have := h a b₀ hb₀
    split <;> exact this
  · cases hv.fate hb hd with
    | ran _ => exact hv.ran.instructions.trans (h _ _ hv.found)
    | kept _ hc _ => exact h c d hc
    | @settled d₀ _ hc _ _ => exact h c d₀ hc

/-- **Where ways meet, the depths agree**, if lifting gives no warning: along every edge the stack
that the one block leaves behind is as deep as the other's entry stack.  It is the entry stack
itself if the edge comes from the first block, in the order of discovery, that leads there. -/
theorem lift_joins_agree (p : Program) (r : Routine)
    (hc : r.code = [] → ∀ a b, r.graph.block? a = some b → b.tape.instructions = [])
    (h : (p.lift r).value = .ok ()) (hw : ∀ e ∈ (p.lift r).events, e.level ≠ .warning) :
    ∃ order, r.discover.value = .ok order ∧
      ∀ a b t c, (p.lift r).state.2.graph.block? a = some b → t ∈ b.successors →
        (p.lift r).state.2.graph.block? t = some c → ∀ cell ∈ b.tape.cells.getLast?,
          cell.stack.length = c.entryStack.length ∧
          (order.find? (fun q => t ∈ (p.lift r).state.2.graph.successors q) = some a →
            cell.stack = c.entryStack) := by
  by_cases hcode : r.code = []
  · -- no block has an instruction, so there is no snapshot
    refine ⟨[], by rw [Routine.discover_of_nil hcode], fun a b t c hb _ _ cell hcell => ?_⟩
    have hnil := instructions_lift_of_nil hcode h (hc hcode) hb
    rw [Tape.instructions, List.map_eq_nil_iff] at hnil
    simp [hnil] at hcell
  · obtain ⟨order, hdisc, hjoin, hsown, hall⟩ := joined_lift hcode h
    refine ⟨order, hdisc, fun a b t c hb ht hc cell hcell => ?_⟩
    have hav := hall a (Graph.exists_block?_iff.mp ⟨b, hb⟩)
    have hlen := hjoin.join (fun j n x e hmem => hw _ hmem rfl) a b hb hav t ht c hc
    rw [Block.exitStack_of_getLast? hcell] at hlen
    refine ⟨hlen.symm, fun hfirst => ?_⟩
    by_cases hte : t = r.address
    · subst hte
      rw [hjoin.entryStack c hc] at hlen ⊢
      exact List.eq_nil_of_length_eq_zero hlen.symm
    · obtain ⟨q, d, hq, hd, hst⟩ :=
        hsown t c hc hte (hjoin.seeded t c hc (hjoin.closed a b hb hav t ht))
      obtain rfl : q = a := Option.some.inj (hq.symm.trans hfirst)
      obtain rfl : d = b := Option.some.inj (hd.symm.trans hb)
      rw [hst, Block.exitStack_of_getLast? hcell]

/-- Two ways that leave one value each, 10 and 20, and meet where it is stored. -/
def pick : Routine where
  name := "pick"
  address := 0
  code := [⟨0, .op (.load .local), .slot 0⟩, ⟨1, .op .jumpIfZero, .branch 4⟩,
    ⟨2, .op .push, .push [.int 10]⟩, ⟨3, .op .jump, .branch 5⟩, ⟨4, .op .push, .push [.int 20]⟩,
    ⟨5, .op (.store .local), .slot 1⟩, ⟨6, .op .leave, .ret 0 0⟩]

/-- What lifting comes to: no warning, and at the join the value of the first way. -/
theorem lift_pick :
    let out := lift { name := "pick", code := [] } pick
    (out.value, out.events,
      (out.state.2.graph.block? 4).map fun b => (b.successors, b.tape.cells.getLast?),
      (out.state.2.graph.block? 5).map (·.entryStack))
    = (.ok (), [.discovered "pick" 4],
      some ([5], some ⟨⟨4, .op .push, .push [.int 20]⟩, [.ofLiteral (.int 20)]⟩),
      some [.ofLiteral (.int 10)]) := by
  cbv

theorem lift_joins_agree_pick :
    let p : Program := { name := "pick", code := [] }
    ∃ order, pick.discover.value = .ok order ∧
      ∀ a b t c, (p.lift pick).state.2.graph.block? a = some b → t ∈ b.successors →
        (p.lift pick).state.2.graph.block? t = some c → ∀ cell ∈ b.tape.cells.getLast?,
          cell.stack.length = c.entryStack.length ∧
          (order.find? (fun q => t ∈ (p.lift pick).state.2.graph.successors q) = some a →
            cell.stack = c.entryStack) := by
  intro p
  obtain ⟨hok, hrest⟩ := Prod.mk.inj lift_pick
  have hevents := (Prod.mk.inj hrest).1
  exact lift_joins_agree p pick (by simp [pick]) hok (by rw [hevents]; decide)

/-- There is no warning, and the stack of the second way is not the one at the join. -/
theorem lift_join_differs :
    let p : Program := { name := "pick", code := [] }
    (p.lift pick).value = .ok () ∧ (∀ e ∈ (p.lift pick).events, e.level ≠ .warning) ∧
      ∃ b c cell, (p.lift pick).state.2.graph.block? 4 = some b ∧ 5 ∈ b.successors ∧
        (p.lift pick).state.2.graph.block? 5 = some c ∧ cell ∈ b.tape.cells.getLast? ∧
        cell.stack ≠ c.entryStack := by
  intro p
  obtain ⟨hok, hrest⟩ := Prod.mk.inj lift_pick
  obtain ⟨hevents, hblocks⟩ := Prod.mk.inj hrest
  obtain ⟨hsource, hjoin⟩ := Prod.mk.inj hblocks
  obtain ⟨b, hb, hsource⟩ := Option.map_eq_some_iff.mp hsource
  obtain ⟨c, hc, hjoin⟩ := Option.map_eq_some_iff.mp hjoin
  obtain ⟨hsucc, hlast⟩ := Prod.mk.inj hsource
  refine ⟨hok, by rw [hevents]; decide, b, c, _, hb, by simp [hsucc], hc, hlast, ?_⟩
  rw [hjoin]
  simp [Expr.ofLiteral]

end Program

end ScriptLift
