import ScriptLift.Proofs.Lift.StackEffect
import ScriptLift.Proofs.Lift.Walk
import ScriptLift.Proofs.Traversal

/-!
# What visiting a block does

Visiting a block carries it out (`Block.Ran`) and hands the stack it leaves behind on to its
successors (`Stage.HandsOn`): a block that has no entry stack yet gets this one, and any other keeps
its own, with a report if the depths differ.  `Stage.Visited` says what has become of every block.

A walk through the blocks goes along the edges of the graph, and what every visit preserves holds at
its end (`Stage.walk_induct`).  Nothing is assumed of the graph or of the code.
-/

namespace ScriptLift

/-! ### Handing a stack on -/

namespace Block

variable {b : Block} {stack : OperandStack}

/-- The block with a stack handed on to it. -/
def settle (stack : OperandStack) (b : Block) : Block :=
  if b.seeded then b else { b with entryStack := stack, seeded := true }

/-- A block keeps the stack that it was given first. -/
theorem settle_of_seeded (h : b.seeded = true) : b.settle stack = b := by
  simp [settle, h]

theorem settle_of_not_seeded (h : b.seeded = false) :
    b.settle stack = { b with entryStack := stack, seeded := true } := by
  simp [settle, h]

@[simp]
theorem seeded_settle (stack : OperandStack) (b : Block) : (b.settle stack).seeded = true := by
  unfold settle
  split
  · assumption
  · rfl

theorem sameFlow_settle (stack : OperandStack) (b : Block) : b.SameFlow (b.settle stack) := by
  unfold settle
  split <;> exact ⟨rfl, rfl, rfl, rfl⟩

/-- What is reported when a stack is handed on to a block that starts with one of another depth. -/
def mismatch? (source : Int) (stack : OperandStack) (b : Block) : Option Event :=
  if b.entryStack.length = stack.length then none
  else some (.joinMismatch b.start stack.length source b.entryStack.length)

end Block

namespace Stage

variable {s s' s'' : Stage} {a source : Int} {b : Block} {stack : OperandStack} {ts us : List Int}

/-- Between the stages, `stack` was handed on from `source` to the blocks at `ts`. -/
structure HandsOn (source : Int) (stack : OperandStack) (ts : List Int) (s s' : Stage) : Prop where
  program : s'.program = s.program
  address : s'.routine.address = s.routine.address
  code : s'.routine.code = s.routine.code
  starts : s'.routine.graph.starts = s.routine.graph.starts
  targets : ∀ t ∈ ts, t ∈ s.routine.graph.starts
  blocks : ∀ c, s'.routine.graph.block? c
    = (s.routine.graph.block? c).map fun b => if c ∈ ts then b.settle stack else b
  events : s'.events = s.events ++ ts.filterMap fun t =>
    (s'.routine.graph.block? t).bind (Block.mismatch? source stack)

theorem handsOn_nil (source : Int) (stack : OperandStack) (s : Stage) :
    s.HandsOn source stack [] s where
  program := rfl
  address := rfl
  code := rfl
  starts := rfl
  targets := by simp
  blocks := by simp
  events := by simp

/-- Handing a stack on to one block. -/
theorem handsOn_seed (source : Int) (stack : OperandStack) (h : s.routine.graph.block? a = some b) :
    s.HandsOn source stack [a] (s.seed source stack b) := by
  obtain rfl := Graph.start_of_block? h
  have hmem : b.start ∈ s.routine.graph.starts := Graph.exists_block?_iff.mp ⟨b, h⟩
  cases hs : b.seeded with
  | true =>
      -- no block changes; the depths are compared
      have hblocks : ∀ c, s.routine.graph.block? c
          = (s.routine.graph.block? c).map
              fun d => if c ∈ [b.start] then d.settle stack else d := by
        intro c
        by_cases hc : c = b.start
        · simp [hc, h, Block.settle_of_seeded hs]
        · simp [hc]
      by_cases hd : b.entryStack.length = stack.length
      · have hseed : s.seed source stack b = s := by simp [seed, hs, hd]
        rw [hseed]
        refine ⟨rfl, rfl, rfl, rfl, by simpa using hmem, hblocks, ?_⟩
        simp [h, Block.mismatch?, hd]
      · have hseed : s.seed source stack b = { s with events := s.events
            ++ [.joinMismatch b.start stack.length source b.entryStack.length] } := by
          simp [seed, hs, hd]
        rw [hseed]
        refine ⟨rfl, rfl, rfl, rfl, by simpa using hmem, hblocks, ?_⟩
        simp [h, Block.mismatch?, hd]
  | false =>
      have hseed : s.seed source stack b = { s with
          routine := { s.routine with
            graph := s.routine.graph.update b.start fun b =>
              { b with entryStack := stack, seeded := true } } } := by
        simp [seed, hs]
      have hupd := fun c => Graph.block?_update (g := s.routine.graph) (a := b.start) (c := c)
        (fun b => { b with entryStack := stack, seeded := true }) fun _ h => h
      rw [hseed]
      refine ⟨rfl, rfl, rfl, Graph.starts_update _ fun _ h => h, by simpa using hmem, fun c => ?_,
        ?_⟩
      · dsimp only
        rw [hupd]
        by_cases hc : c = b.start
        · simp [hc, h, Block.settle_of_not_seeded hs]
        · simp [hc]
      · simp [hupd, h, Block.mismatch?]

/-- A block that a stack was handed on to keeps the one it has. -/
theorem HandsOn.trans (h : s.HandsOn source stack ts s') (h' : s'.HandsOn source stack us s'') :
    s.HandsOn source stack (ts ++ us) s'' := by
  have keep : ∀ t ∈ ts, s''.routine.graph.block? t = s'.routine.graph.block? t := by
    intro t ht
    rw [h'.blocks, h.blocks]
    cases s.routine.graph.block? t with
    | none => rfl
    | some b => simp [ht, Block.settle_of_seeded]
  refine ⟨h'.program.trans h.program, h'.address.trans h.address, h'.code.trans h.code,
    h'.starts.trans h.starts, fun t ht => ?_, fun c => ?_, ?_⟩
  · rcases List.mem_append.mp ht with ht | ht
    · exact h.targets t ht
    · exact h.starts ▸ h'.targets t ht
  · by_cases hc : c ∈ ts
    · rw [keep c hc, h.blocks]
      simp [hc]
    · rw [h'.blocks, h.blocks]
      simp [hc]
  · rw [h'.events, h.events, List.append_assoc, List.filterMap_append]
    congr 2
    exact List.filterMap_congr fun t ht => by rw [keep t ht]

/-- **Handing a stack on to several blocks.** -/
theorem handsOn_seedAll (h : seedAll source stack ts s = (.ok (), s')) :
    s.HandsOn source stack ts s' := by
  induction ts generalizing s with
  | nil =>
      cases h
      exact handsOn_nil source stack _
  | cons t ts ih =>
      rw [seedAll] at h
      split at h
      · rename_i b hb
        exact (handsOn_seed source stack hb).trans (ih h)
      · cases h

end Stage

/-! ### Carrying a block out -/

/-- The block `b` has become `b'` by being carried out in a program with the tables of `p`, and
`events` have been reported by then. -/
structure Block.Ran (p : Program) (events : List Event) (b b' : Block) : Prop
    extends b.SameFlow b' where
  entryStack : b'.entryStack = b.entryStack
  seeded : b'.seeded = b.seeded
  ins : b'.ins = b.ins
  depth : Event.underflow ∉ events →
    (b'.exitStack.length : Int) = b.entryStack.length + p.totalEffect b.tape.instructions
  holds : ∀ Q, Expr.Hereditary Q → Event.underflow ∉ events ∨ Q .underflow → b.Holds Q → b'.Holds Q

theorem Block.Ran.mono {p : Program} {events events' : List Event} {b b' : Block}
    (h : b.Ran p events b') (he : events <+: events') : b.Ran p events' b' where
  toSameFlow := h.toSameFlow
  entryStack := h.entryStack
  seeded := h.seeded
  ins := h.ins
  depth hu := h.depth fun hm => hu (he.mem hm)
  holds Q hQ hu := h.holds Q hQ (hu.imp_left fun hu hm => hu (he.mem hm))

namespace Stage

variable {s s' : Stage} {a : Int} {b : Block} {stack : OperandStack} {found : List Int}

/-- **Carrying out a block changes this block only**, and its stack is the one it keeps. -/
theorem runBlock_ran (h : s.runBlock b = (.ok stack, s')) :
    ∃ b', b.Ran s.program s'.events b' ∧ stack = b'.exitStack ∧
      s.program.SameTables s'.program ∧ s'.routine.address = s.routine.address ∧
      s'.routine.code = s.routine.code ∧ Event.Adds s.events s'.events ∧
      s'.routine.graph = s.routine.graph.update b.start fun _ => b' := by
  have heff := fun Q hQ => Lift.runBlock_effect (Q := Q)
    (f := ⟨s.program, s.routine, b, b.entryStack, s.events⟩) hQ rfl
  unfold runBlock at h
  cases hrun : Lift.runBlock.exec ⟨s.program, s.routine, b, b.entryStack, s.events⟩ with
  | mk v f =>
    rw [hrun] at h heff
    cases v with
    | error e => cases h
    | ok u =>
        cases h
        obtain ⟨hg, hall⟩ := heff _ Expr.hereditary_true
        obtain ⟨hexit, hdepth, -⟩ := hall f rfl
        have hflow : b.SameFlow f.block :=
          ⟨by rw [hg.block], hg.instructions, by rw [hg.block], by rw [hg.block]⟩
        refine ⟨f.block, ⟨hflow, by rw [hg.block], by rw [hg.block], by rw [hg.block], ?_,
          fun Q hQ => ?_⟩, hexit.symm, hg.tables, hg.address, hg.code, hg.events, ?_⟩
        · rw [hexit]
          exact hdepth
        · exact ((heff Q hQ).2 f rfl).2.2
        · rw [← hg.graph]

/-- **What a visit to the block at `a` does**: the block `b` found there becomes `b'`, and the stack
it leaves behind is handed on to its successors. -/
structure Visited (s : Stage) (a : Int) (b b' : Block) (s' : Stage) : Prop where
  found : s.routine.graph.block? a = some b
  ran : b.Ran s.program s'.events b'
  tables : s.program.SameTables s'.program
  address : s'.routine.address = s.routine.address
  code : s'.routine.code = s.routine.code
  starts : s'.routine.graph.starts = s.routine.graph.starts
  targets : ∀ t ∈ b.successors, t ∈ s.routine.graph.starts
  blocks : ∀ c, s'.routine.graph.block? c
    = (if c = a then some b' else s.routine.graph.block? c).map
        fun d => if c ∈ b.successors then d.settle b'.exitStack else d
  events : ∃ events, Event.Adds s.events events ∧
    s'.events = events ++ b.successors.filterMap fun t =>
      (s'.routine.graph.block? t).bind (Block.mismatch? a b'.exitStack)

/-- A visit that comes to an end did all that `Visited` says. -/
theorem visited_visit (h : s.visit a = (.ok found, s')) :
    ∃ b b', s.Visited a b b' s' ∧ found = b.successors := by
  unfold visit at h
  split at h
  · cases h
  rename_i b hb
  split at h
  · cases h
  rename_i stack s₁ hrun
  split at h
  · cases h
  rename_i s₂ hseed
  cases h
  obtain ⟨b', hran, rfl, htables, haddress, hcode, hevents, hgraph⟩ := runBlock_ran hrun
  have hon := handsOn_seedAll hseed
  have hstart := Graph.start_of_block? hb
  have hupd : ∀ d : Block, d.start = b.start → b'.start = b.start := fun _ _ => hran.start
  have hstarts : s₁.routine.graph.starts = s.routine.graph.starts := by
    rw [hgraph, Graph.starts_update _ hupd]
  refine ⟨b, b', ⟨hb, hran.mono ?_, ?_, hon.address.trans haddress, hon.code.trans hcode,
    hon.starts.trans hstarts, fun t ht => hstarts ▸ hon.targets t ht, fun c => ?_,
    s₁.events, hevents, hon.events⟩, rfl⟩
  · rw [hon.events]
    exact List.prefix_append _ _
  · rw [hon.program]
    exact htables
  · rw [hon.blocks, hgraph, Graph.block?_update _ hupd, hstart, hb]
    rfl

theorem Visited.prefix_events {b' : Block} (h : s.Visited a b b' s') : s.events <+: s'.events := by
  obtain ⟨events, hadds, heq⟩ := h.events
  rw [heq]
  exact hadds.isPrefix.trans (List.prefix_append _ _)

/-- What is true of a block whatever stack it starts with, and is not changed by carrying it out, is
left as it is by a visit. -/
theorem Visited.map_block? {α : Type} {g : Block → α} {b' : Block} (h : s.Visited a b b' s')
    (hsettle : ∀ (stack : OperandStack) (d : Block), g (d.settle stack) = g d) (hran : g b' = g b)
    (c : Int) : (s'.routine.graph.block? c).map g = (s.routine.graph.block? c).map g := by
  have hsettle' : ∀ d : Block, g (if c ∈ b.successors then d.settle b'.exitStack else d) = g d := by
    intro d
    split
    · exact hsettle _ d
    · rfl
  rw [h.blocks, Option.map_map]
  by_cases hc : c = a
  · subst hc
    rw [if_pos rfl, h.found, Option.map_some, Option.map_some, Function.comp_apply, hsettle', hran]
  · simp [hc, hsettle', Function.comp_def]

/-- A visit leaves the edges as they are. -/
theorem Visited.successors {b' : Block} (h : s.Visited a b b' s') (c : Int) :
    s'.routine.graph.successors c = s.routine.graph.successors c := by
  rw [Graph.successors, Graph.successors,
    h.map_block? (fun stack d => (d.sameFlow_settle stack).successors) h.ran.successors]

/-- **What every visit preserves holds at the end of a walk**, and the walk goes along the edges. -/
theorem walk_induct {P : Stage → List Int → List Int → Prop} {keys visited queue : List Int}
    (skip : ∀ {s visited queue a}, a ∈ visited → P s visited (a :: queue) → P s visited queue)
    (visit : ∀ {s visited queue a b b' s'}, a ∉ visited → P s visited (a :: queue) →
      s.Visited a b b' s' →
      P s' (visited ++ [a]) (queue ++ b.successors.filter fun t => t ∉ visited ++ [a]))
    (done : ∀ {s visited}, P s visited [] →
      P { s with routine := { s.routine with visited := [] } } visited [])
    (h : P s visited queue) (hw : walk keys s visited queue = (.ok (), s')) :
    ∃ out, Visits s.routine.graph.successors visited queue out ∧ P s' out [] := by
  fun_induction walk keys s visited queue with
  | case1 s visited =>
      cases hw
      exact ⟨visited, .done, done h⟩
  | case2 s visited a queue ha ih =>
      obtain ⟨out, hv, hP⟩ := ih (skip ha h) hw
      exact ⟨out, .skip ha hv, hP⟩
  | case3 s visited a queue ha hk f s₁ hv => cases hw
  | case4 s visited a queue ha hk found s₁ hv ih =>
      obtain ⟨b, b', hvis, rfl⟩ := visited_visit hv
      obtain ⟨out, hrest, hP⟩ := ih (visit ha h hvis) hw
      refine ⟨out, .visit ha ?_, hP⟩
      rw [Graph.successors_of_block? hvis.found]
      exact hrest.congr fun c _ => (hvis.successors c).symm
  | case5 => cases hw

end Stage

end ScriptLift
