import ScriptLift.Lift.Interpret
import ScriptLift.Proofs.Discovery
import ScriptLift.Proofs.Lift.Ending

/-!
# What a lifted routine looks like

Lifting carries out every block of the graph once and leaves its flow alone.  Its invariant
(`Stage.Inv`) compares the graph at hand with the one discovered: the blocks visited are lifted, the
others as discovery left them.  Because the edges lead from the entry to every block, a lift that
comes to its end has lifted them all (`Program.isLifted_lift`).
-/

namespace ScriptLift

namespace Block

/-- The blocks have the same instructions and the same ways out. -/
structure SameFlow (b b' : Block) : Prop where
  start : b'.start = b.start
  instructions : b'.tape.instructions = b.tape.instructions
  successors : b'.successors = b.successors
  fallthrough : b'.fallthrough = b.fallthrough

theorem SameFlow.refl (b : Block) : b.SameFlow b :=
  ⟨rfl, rfl, rfl, rfl⟩

theorem SameFlow.trans {b b' b'' : Block} (h : b.SameFlow b') (h' : b'.SameFlow b'') :
    b.SameFlow b'' where
  start := h'.start.trans h.start
  instructions := h'.instructions.trans h.instructions
  successors := h'.successors.trans h.successors
  fallthrough := h'.fallthrough.trans h.fallthrough

/-- The block without the stack it starts with. -/
def unseeded (b : Block) : Block :=
  { b with entryStack := [], seeded := false }

theorem SameFlow.of_unseeded {b b' : Block} (h : b'.unseeded = b.unseeded) : b.SameFlow b' where
  start := congrArg (·.start) h
  instructions := congrArg (·.tape.instructions) h
  successors := congrArg (·.successors) h
  fallthrough := congrArg (·.fallthrough) h

/-- The block stands in the code of `r` and ends with `last`. -/
structure EndsWith (b : Block) (r : Routine) (last : Instruction) : Prop where
  ends : ∃ rest, b.tape.instructions = rest ++ [last] ∧ ∀ i ∈ rest, i.isTransfer = false
  mem : last ∈ r.code
  fallthrough : b.fallthrough = last.fallThrough? r.code
  successors : b.successors = last.goesTo r.code

theorem EndsWith.sameFlow {b b' : Block} {r : Routine} {last : Instruction} (h : b.EndsWith r last)
    (hf : b.SameFlow b') : b'.EndsWith r last where
  ends := by rw [hf.instructions]; exact h.ends
  mem := h.mem
  fallthrough := by rw [hf.fallthrough]; exact h.fallthrough
  successors := by rw [hf.successors]; exact h.successors

theorem EndsWith.congr {b : Block} {r r' : Routine} {last : Instruction} (h : b.EndsWith r last)
    (hc : r'.code = r.code) : b.EndsWith r' last where
  ends := h.ends
  mem := by rw [hc]; exact h.mem
  fallthrough := by rw [hc]; exact h.fallthrough
  successors := by rw [hc]; exact h.successors

/-- Nothing has been lifted from the block yet. -/
structure IsFresh (b : Block) (last : Instruction) : Prop where
  statements : b.statements = []
  continuation : b.continuation = if last.isTransfer then none else b.fallthrough

/-- The block has been lifted: it ends the way its last instruction ends it. -/
structure Lifted (b : Block) (r : Routine) (last : Instruction) (plain : List Stmt) (e : Ending) :
    Prop extends b.Formed plain e where
  fits : e.Fits r last b.fallthrough

theorem Lifted.congr {b : Block} {r r' : Routine} {last : Instruction} {plain : List Stmt}
    {e : Ending} (h : b.Lifted r' last plain e) (hc : r'.code = r.code) : b.Lifted r last plain e :=
  ⟨h.toFormed, h.fits.congr hc⟩

/-- `b` is what has become of the block `b₀`, lifted or not. -/
structure Became (b₀ b : Block) (r : Routine) (lifted : Prop) : Prop where
  flow : b₀.SameFlow b
  todo : ¬ lifted → b.statements = b₀.statements ∧ b.continuation = b₀.continuation
  done : lifted → ∀ last, b₀.EndsWith r last → ∃ plain e, b.Lifted r last plain e

theorem Became.of_unseeded {b₀ b b' : Block} {r : Routine} {lifted : Prop}
    (h : b₀.Became b r lifted) (hb : b'.unseeded = b.unseeded) : b₀.Became b' r lifted := by
  have hs : b'.statements = b.statements := congrArg (·.statements) hb
  have hc : b'.continuation = b.continuation := congrArg (·.continuation) hb
  have hf := SameFlow.of_unseeded hb
  refine ⟨h.flow.trans hf, fun hn => by rw [hs, hc]; exact h.todo hn, fun hd last hl => ?_⟩
  obtain ⟨plain, e, he⟩ := h.done hd last hl
  exact ⟨plain, e, ⟨he.allPlain, by rw [hs]; exact he.statements,
    by rw [hc]; exact he.continuation⟩, by rw [hf.fallthrough]; exact he.fits⟩

end Block

/-- What an ending that fits leaves of the continuation of a fresh block. -/
theorem Ending.Fits.close_eq {r : Routine} {last : Instruction} {ft : Option Int} {e : Ending}
    (h : e.Fits r last ft) : e.close (if last.isTransfer then none else ft) = e.continuation := by
  cases h with
  | stop h => simp [close, continuation, isTransfer_iff, h]
  | goto h _ => simp [close, continuation, isTransfer_iff, h]
  | dangling h _ _ => simp [close, continuation, isTransfer_iff, h]
  | fork _ _ _ => rfl
  | pass h => simp [close, continuation, h]

namespace Stage

variable {s s' : Stage} {a c : Int} {b b' : Block} {visited queue found : List Int}
  {stack : OperandStack} {r₀ : Routine}

/-! ### Carrying out one block -/

/-- **Carrying out a fresh block lifts it** and touches no other. -/
theorem runBlock_ok {last : Instruction} (hp : s.program.handled = Opcode.all)
    (hb : b.EndsWith s.routine last) (hf : b.IsFresh last)
    (h : s.runBlock b = (.ok stack, s')) :
    s'.program.handled = Opcode.all ∧ s'.routine.address = s.routine.address ∧
      s'.routine.code = s.routine.code ∧
      ∃ f, Lift.runBlock.exec ⟨s.program, s.routine, b, b.entryStack, s.events⟩ = (.ok (), f) ∧
        b.SameFlow f.block ∧ (∃ plain e, f.block.Lifted s.routine last plain e) ∧
        s'.routine.graph = s.routine.graph.update b.start fun _ => f.block := by
  obtain ⟨rest, hi, hrest⟩ := hb.ends
  unfold runBlock at h
  cases hrun : Lift.runBlock.exec ⟨s.program, s.routine, b, b.entryStack, s.events⟩ with
  | mk v f =>
    rw [hrun] at h
    cases v with
    | error e => cases h
    | ok u =>
        cases h
        obtain ⟨⟨plain, e, hplain, hfits, hends⟩, hinstr⟩ :=
          Lift.runBlock_ends (f := ⟨s.program, s.routine, b, b.entryStack, s.events⟩)
            hp hi hrest hrun
        have hblock : f.block = { b with
            statements := b.statements ++ (plain ++ e.statements)
            continuation := e.close b.continuation
            tape := f.block.tape } :=
          congrArg (fun b' : Block => { b' with tape := f.block.tape }) hends.block
        have hflow : b.SameFlow f.block :=
          ⟨by rw [hblock], hinstr, by rw [hblock], by rw [hblock]⟩
        refine ⟨hends.handled.trans hp, hends.address, hends.code, f, rfl, hflow,
          ⟨plain, e, ⟨hplain, ?_, ?_⟩, by rwa [hflow.fallthrough]⟩, ?_⟩
        · rw [hblock, hf.statements, List.nil_append]
        · rw [hblock, hf.continuation]
          exact hfits.close_eq
        · rw [← hends.graph]
          rfl

/-! ### Handing a stack on -/

/-- The stages differ in the stacks that blocks start with and in what was reported, if at all. -/
structure Agrees (s s' : Stage) : Prop where
  handled : s'.program.handled = s.program.handled
  address : s'.routine.address = s.routine.address
  code : s'.routine.code = s.routine.code
  starts : s'.routine.graph.starts = s.routine.graph.starts
  blocks : ∀ c, (s'.routine.graph.block? c).map Block.unseeded
    = (s.routine.graph.block? c).map Block.unseeded

theorem Agrees.refl (s : Stage) : s.Agrees s :=
  ⟨rfl, rfl, rfl, rfl, fun _ => rfl⟩

theorem Agrees.trans {s'' : Stage} (h : s.Agrees s') (h' : s'.Agrees s'') : s.Agrees s'' where
  handled := h'.handled.trans h.handled
  address := h'.address.trans h.address
  code := h'.code.trans h.code
  starts := h'.starts.trans h.starts
  blocks c := (h'.blocks c).trans (h.blocks c)

/-- Settling the stack that one block starts with. -/
theorem agrees_settle (s : Stage) (a : Int) (stack : OperandStack) :
    s.Agrees { s with
      routine := { s.routine with
        graph := s.routine.graph.update a fun b =>
          { b with entryStack := stack, seeded := true } } } where
  handled := rfl
  address := rfl
  code := rfl
  starts := Graph.starts_update _ fun _ h => h
  blocks c := by
    simp only [Graph.block?_update (fun b => { b with entryStack := stack, seeded := true })
      fun _ h => h]
    split
    · rename_i hc
      rw [hc, Option.map_map]
      rfl
    · rfl

theorem agrees_seed (s : Stage) (source : Int) (stack : OperandStack) (b : Block) :
    s.Agrees (s.seed source stack b) := by
  unfold seed
  split
  · split
    · exact .refl s
    · exact ⟨rfl, rfl, rfl, rfl, fun _ => rfl⟩
  · exact s.agrees_settle b.start stack

theorem agrees_seedAll (source : Int) (stack : OperandStack) (ts : List Int) (s : Stage) :
    s.Agrees (seedAll source stack ts s).2 := by
  induction ts generalizing s with
  | nil => exact .refl s
  | cons t ts ih =>
      unfold seedAll
      split
      · exact (s.agrees_seed source stack _).trans (ih _)
      · exact .refl s

/-! ### The invariant of the walk -/

/-- What holds when the blocks in `visited` have been carried out and those in `queue` are waiting;
`r₀` is the routine as discovery left it. -/
structure Inv (r₀ : Routine) (s : Stage) (visited queue : List Int) : Prop where
  handled : s.program.handled = Opcode.all
  address : s.routine.address = r₀.address
  code : s.routine.code = r₀.code
  starts : s.routine.graph.starts = r₀.graph.starts
  origin : r₀.address ∈ visited ∨ r₀.address ∈ queue
  blocks : ∀ a b₀, r₀.graph.block? a = some b₀ →
    ∃ b, s.routine.graph.block? a = some b ∧ b₀.Became b r₀ (a ∈ visited)
  closed : ∀ a b₀, r₀.graph.block? a = some b₀ → a ∈ visited →
    ∀ t ∈ b₀.successors, t ∈ visited ∨ t ∈ queue

theorem Agrees.block? (h : s.Agrees s') (hb : s.routine.graph.block? c = some b) :
    ∃ b', s'.routine.graph.block? c = some b' ∧ b'.unseeded = b.unseeded := by
  have := h.blocks c
  rw [hb] at this
  exact Option.map_eq_some_iff.mp this

/-- A block visited before is passed over. -/
theorem Inv.skip (h : Inv r₀ s visited (a :: queue)) (ha : a ∈ visited) : Inv r₀ s visited queue :=
  ⟨h.handled, h.address, h.code, h.starts, Worklist.mem_of_skip ha h.origin, h.blocks,
    fun c b₀ hb hc t ht => Worklist.mem_of_skip ha (h.closed c b₀ hb hc t ht)⟩

/-- What visiting a block comes to. -/
theorem visit_ok (h : s.visit a = (.ok found, s')) :
    ∃ b stack s₁, s.routine.graph.block? a = some b ∧ s.runBlock b = (.ok stack, s₁) ∧
      found = b.successors ∧ s₁.Agrees s' := by
  unfold visit at h
  split at h
  · cases h
  rename_i b hb
  split at h
  · cases h
  rename_i stack s₁ hrun
  have hseed := agrees_seedAll a stack b.successors s₁
  split at h
  · cases h
  rename_i s₂ hs₂
  rw [hs₂] at hseed
  cases h
  exact ⟨b, stack, s₁, hb, hrun, rfl, hseed⟩

/-- **Visiting a block keeps the invariant.** -/
theorem Inv.visit (hr : ∀ b₀ ∈ r₀.graph.blocks, ∃ last, b₀.EndsWith r₀ last ∧ b₀.IsFresh last)
    (h : Inv r₀ s visited (a :: queue)) (ha : a ∉ visited) (hv : s.visit a = (.ok found, s')) :
    Inv r₀ s' (visited ++ [a]) (queue ++ found.filter fun c => c ∉ visited ++ [a]) := by
  -- `s₁` is the stage behind the run of the block, before its stack is handed on
  obtain ⟨b, stack, s₁, hb, hrun, rfl, hagree⟩ := visit_ok hv
  have hstart : a ∈ r₀.graph.starts := h.starts ▸ Graph.exists_block?_iff.mp ⟨b, hb⟩
  obtain ⟨b₀, hb₀⟩ := Graph.exists_block?_iff.mpr hstart
  obtain ⟨last, hends, hfresh⟩ := hr b₀ (Graph.mem_of_block? hb₀)
  obtain ⟨b', hb', hbec⟩ := h.blocks a b₀ hb₀
  obtain rfl : b' = b := Option.some.inj (hb'.symm.trans hb)
  obtain ⟨hstmts, hcont⟩ := hbec.todo ha
  have hfresh' : b'.IsFresh last :=
    ⟨hstmts.trans hfresh.statements, by rw [hcont, hfresh.continuation, hbec.flow.fallthrough]⟩
  obtain ⟨hp, hadr, hcode, f, -, hflow, ⟨plain, e, hlift⟩, hgraph⟩ :=
    runBlock_ok h.handled ((hends.sameFlow hbec.flow).congr h.code) hfresh' hrun
  obtain rfl : b'.start = a := Graph.start_of_block? hb
  have hupd : ∀ d : Block, d.start = b'.start → f.block.start = b'.start := fun _ _ => hflow.start
  refine ⟨hagree.handled.trans hp, hagree.address.trans (hadr.trans h.address),
    hagree.code.trans (hcode.trans h.code), ?_, Worklist.mem_of_visit h.origin, fun c c₀ hc₀ => ?_,
    fun c c₀ hc₀ hc t ht => ?_⟩
  · rw [hagree.starts, hgraph, Graph.starts_update _ hupd, h.starts]
  · by_cases hc : c = b'.start
    · obtain rfl : c₀ = b₀ := by
        rw [hc, hb₀] at hc₀
        exact (Option.some.inj hc₀).symm
      have hb₁ : s₁.routine.graph.block? c = some f.block := by
        rw [hgraph, Graph.block?_update _ hupd, if_pos hc, hb]
        rfl
      obtain ⟨b₂, hb₂, hun⟩ := hagree.block? hb₁
      refine ⟨b₂, hb₂, Block.Became.of_unseeded ⟨hbec.flow.trans hflow, ?_, ?_⟩ hun⟩
      · intro hn
        exact absurd (by simp [hc]) hn
      · intro _ last' hends'
        have hlast : last' = last := by
          obtain ⟨rest, hrest, -⟩ := hends.ends
          obtain ⟨rest', hrest', -⟩ := hends'.ends
          have := congrArg List.getLast? (hrest'.symm.trans hrest)
          simpa using this
        exact ⟨plain, e, hlast ▸ hlift.congr h.code⟩
    · obtain ⟨d, hd, hdbec⟩ := h.blocks c c₀ hc₀
      have hd₁ : s₁.routine.graph.block? c = some d := by
        rw [hgraph, Graph.block?_update _ hupd, if_neg hc, hd]
      obtain ⟨d₂, hd₂, hun⟩ := hagree.block? hd₁
      have hmem : (c ∈ visited ++ [b'.start]) = (c ∈ visited) := by simp [hc]
      exact ⟨d₂, hd₂, hmem ▸ hdbec.of_unseeded hun⟩
  · by_cases hca : c = b'.start
    · have hsucc : c₀.successors = b'.successors := by
        rw [hca, hb₀] at hc₀
        rw [← Option.some.inj hc₀, hbec.flow.successors]
      rw [hsucc] at ht
      exact Worklist.mem_of_found ht
    · exact Worklist.mem_of_visit (h.closed c c₀ hc₀ (by simpa [hca] using hc) t ht)

/-- **A walk that succeeds ends with the invariant and nothing waiting.** -/
theorem inv_walk (hr : ∀ b₀ ∈ r₀.graph.blocks, ∃ last, b₀.EndsWith r₀ last ∧ b₀.IsFresh last)
    {keys : List Int} (h : Inv r₀ s visited queue)
    (hw : walk keys s visited queue = (.ok (), s')) : ∃ visited', Inv r₀ s' visited' [] := by
  fun_induction walk keys s visited queue with
  | case1 s visited =>
      cases hw
      exact ⟨visited, h.handled, h.address, h.code, h.starts, h.origin, h.blocks, h.closed⟩
  | case2 s visited a queue ha ih => exact ih (h.skip ha) hw
  | case3 s visited a queue ha hk f s₁ hv => cases hw
  | case4 s visited a queue ha hk found s₁ hv ih => exact ih (h.visit hr ha hv) hw
  | case5 => cases hw

end Stage

/-- **What lifting makes of a routine**: its blocks are those that the entry leads to, and each has
been lifted from its instructions. -/
structure Routine.IsLifted (r : Routine) : Prop where
  distinct : (r.code.map (·.address)).Nodup
  nodup : r.graph.starts.Nodup
  origin : r.address ∈ r.graph.starts
  reached : ∀ a ∈ r.graph.starts, r.graph.Reached r.address a
  blocks : ∀ a b, r.graph.block? a = some b →
    ∃ last plain e, b.EndsWith r last ∧ b.Lifted r last plain e

/-- What holds of a routine whose blocks have just been discovered. -/
structure Routine.IsDiscovered (r₀ : Routine) : Prop where
  distinct : (r₀.code.map (·.address)).Nodup
  nodup : r₀.graph.starts.Nodup
  origin : r₀.address ∈ r₀.graph.starts
  reached : ∀ a ∈ r₀.graph.starts, r₀.graph.Reached r₀.address a
  closed : ∀ b₀ ∈ r₀.graph.blocks, ∀ t ∈ b₀.successors, t ∈ r₀.graph.starts
  entryStack : ∀ b₀ ∈ r₀.graph.blocks, b₀.entryStack = []
  fresh : ∀ b₀ ∈ r₀.graph.blocks, ∃ last, b₀.EndsWith r₀ last ∧ b₀.IsFresh last

/-- Discovery leaves fresh blocks. -/
theorem Survey.Inv.isFresh {r : Routine} {g : Graph} {visited : List Int}
    (h : r.survey.Inv r.address g visited []) (hd : (r.code.map (·.address)).Nodup) {b : Block}
    (hb : b ∈ g.blocks) : ∃ last, b.EndsWith r last ∧ b.IsFresh last := by
  obtain ⟨run, last, next, hcut, hin, -⟩ := h.filled_of_mem hb
  have hnext : addressBehind? r.code last = next := hcut.behind hd
  have hft : b.fallthrough
      = if last.kind = .op .leave || last.kind = .op .jump then none else next :=
    congrArg (·.fallthrough) hin
  have hcont : b.continuation = if last.isTransfer then none else next :=
    congrArg (·.continuation) hin
  refine ⟨last, ⟨?_, hcut.sublist_mem hcut.last_mem_run, ?_, ?_⟩, congrArg (·.statements) hin, ?_⟩
  · obtain ⟨rest, hrun, hrest⟩ := hcut.ends
    exact ⟨rest, by rw [Block.instructions_of_filled hin, hrun], hrest⟩
  · rw [hft, Instruction.fallThrough?, hnext]
    simp
  · rw [Block.successors_of_filled hin, hcut.found_eq hd]
    rfl
  · rw [hcont, hft]
    by_cases ht : last.isTransfer = true
    · simp [ht]
    · have hn := ht
      rw [isTransfer_iff, not_or, not_or] at hn
      simp [ht, hn.1, hn.2.1]

/-- Blocks with the same edges lead to the same addresses. -/
theorem Graph.Reached.mono {g g' : Graph} {entry a : Int}
    (hg : ∀ b ∈ g.blocks, ∃ b' ∈ g'.blocks, b.SameFlow b') (h : g.Reached entry a) :
    g'.Reached entry a := by
  induction h with
  | entry => exact .entry
  | step hb _ ht ih =>
      obtain ⟨b', hb', hflow⟩ := hg _ hb
      exact .step hb' (by rwa [hflow.start]) (by rwa [hflow.successors])

namespace Stage

variable {s : Stage} {r₀ : Routine} {visited : List Int}

/-- When nothing waits, every block that the entry leads to has been visited. -/
theorem Inv.mem_visited (h : Inv r₀ s visited []) (hn : r₀.graph.starts.Nodup) {a : Int}
    (ha : r₀.graph.Reached r₀.address a) : a ∈ visited := by
  induction ha with
  | entry => simpa using h.origin
  | step hb _ ht ih => simpa using h.closed _ _ (Graph.block?_start hn hb) ih _ ht

/-- **When nothing waits, the routine is lifted.** -/
theorem Inv.isLifted (h : Inv r₀ s visited []) (hr : r₀.IsDiscovered) : s.routine.IsLifted where
  distinct := by rw [h.code]; exact hr.distinct
  nodup := by rw [h.starts]; exact hr.nodup
  origin := by rw [h.starts, h.address]; exact hr.origin
  reached a ha := by
    rw [h.starts] at ha
    rw [h.address]
    refine (hr.reached a ha).mono fun b₀ hb₀ => ?_
    obtain ⟨b, hb, hbec⟩ := h.blocks _ b₀ (Graph.block?_start hr.nodup hb₀)
    exact ⟨b, Graph.mem_of_block? hb, hbec.flow⟩
  blocks a b hb := by
    have ha : a ∈ r₀.graph.starts := h.starts ▸ Graph.exists_block?_iff.mp ⟨b, hb⟩
    obtain ⟨b₀, hb₀⟩ := Graph.exists_block?_iff.mpr ha
    obtain ⟨last, hends, -⟩ := hr.fresh b₀ (Graph.mem_of_block? hb₀)
    obtain ⟨b', hb', hbec⟩ := h.blocks a b₀ hb₀
    obtain rfl : b' = b := Option.some.inj (hb'.symm.trans hb)
    obtain ⟨plain, e, he⟩ := hbec.done (h.mem_visited hr.nodup (hr.reached a ha)) last hends
    exact ⟨last, plain, e, (hends.sameFlow hbec.flow).congr h.code, he.congr h.code.symm⟩

end Stage

/-- The stage with nothing on the stack that the entry starts with. -/
def Stage.settled (s : Stage) : Stage :=
  { s with
    routine := { s.routine with
      graph := s.routine.graph.update s.routine.address fun b =>
        { b with entryStack := [], seeded := true } } }

/-- The walk starts with nothing visited. -/
theorem Stage.inv_start {p : Program} {r₀ : Routine} {events : List Event}
    (hp : p.handled = Opcode.all) : Inv r₀ (settled ⟨p, r₀, events⟩) [] [r₀.address] := by
  have hinit := agrees_settle ⟨p, r₀, events⟩ r₀.address []
  refine ⟨hp, rfl, rfl, hinit.starts, Or.inr (by simp), fun a b₀ hb₀ => ?_, by simp⟩
  obtain ⟨b', hb', hun⟩ := hinit.block? hb₀
  exact ⟨b', hb', Block.Became.of_unseeded ⟨.refl b₀, fun _ => ⟨rfl, rfl⟩, by simp⟩ hun⟩

theorem Survey.Inv.isDiscovered {r : Routine} {g : Graph} {order : List Int}
    (h : r.survey.Inv r.address g order []) (hd : (r.code.map (·.address)).Nodup) :
    Routine.IsDiscovered { r with graph := g, visited := [] } where
  distinct := hd
  nodup := h.nodup
  origin := h.mem_starts (by simpa using h.origin)
  reached a ha := by
    obtain ⟨b, hb⟩ := Graph.exists_block?_iff.mpr ha
    rw [← Graph.start_of_block? hb]
    exact h.reached hd rfl (Graph.mem_of_block? hb)
  closed b₀ hb₀ t ht := by
    obtain ⟨-, -, -, -, -, hn⟩ := h.filled_of_mem hb₀
    exact h.mem_starts (hn t ht)
  entryStack b₀ hb₀ := by
    obtain ⟨run, last, next, -, hin, -⟩ := h.filled_of_mem hb₀
    exact congrArg (·.entryStack) hin
  fresh b₀ hb₀ := by
    obtain ⟨last, hends, hf⟩ := h.isFresh hd hb₀
    exact ⟨last, hends.congr rfl, hf⟩

namespace Program

/-- **Lifting is discovery and then a walk** through the blocks that were found. -/
theorem lift_eq_walk (p : Program) {r : Routine} (hd : (r.code.map (·.address)).Nodup)
    (he : r.address ∈ r.code.map (·.address)) :
    ∃ g order events, r.survey.Inv r.address g order [] ∧
      let walked := Stage.walk g.starts
        (Stage.settled ⟨p, { r with graph := g, visited := [] }, events⟩) [] [r.address]
      p.lift r = ⟨walked.1, (walked.2.program, walked.2.routine), walked.2.events⟩ := by
  obtain ⟨order, g, events, hdisc, hinv⟩ := r.exists_inv_discover hd he
  obtain ⟨b, hb⟩ := Graph.exists_block?_iff.mpr (hinv.mem_starts (by simpa using hinv.origin))
  refine ⟨g, order, events, hinv, ?_⟩
  simp only [lift, hdisc, Stage.interpret, hb, Graph.start_of_block? hb, Stage.settled]
  rw [Graph.starts_update (fun b => { b with entryStack := [], seeded := true }) fun _ h => h]

/-- Only where the entry is in the code does lifting come to an end. -/
theorem entry_mem_of_lift {p : Program} {r : Routine} (hcode : r.code ≠ [])
    (h : (p.lift r).value = .ok ()) : r.address ∈ r.code.map (·.address) := by
  refine Classical.byContradiction fun hno => ?_
  have hhas : r.hasAddress r.address = false := by simpa [Routine.hasAddress] using hno
  have hempty : r.code.isEmpty = false := by simpa using hcode
  simp [lift, Routine.discover, hempty, hhas] at h

/-- A lift that succeeds ends with the invariant of the walk, over the blocks that were found. -/
theorem inv_lift {p : Program} {r : Routine} (hp : p.handled = Opcode.all)
    (hd : (r.code.map (·.address)).Nodup) (hcode : r.code ≠ [])
    (h : (p.lift r).value = .ok ()) :
    ∃ g order visited, r.survey.Inv r.address g order [] ∧
      Stage.Inv { r with graph := g, visited := [] }
        ⟨(p.lift r).state.1, (p.lift r).state.2, (p.lift r).events⟩ visited [] := by
  obtain ⟨g, order, events, hinv, hlift⟩ := p.lift_eq_walk hd (entry_mem_of_lift hcode h)
  rw [hlift] at h ⊢
  obtain ⟨visited, hend⟩ :=
    Stage.inv_walk (hinv.isDiscovered hd).fresh (Stage.inv_start hp) (Prod.ext h rfl)
  exact ⟨g, order, visited, hinv, hend⟩

/-- **A lift that succeeds lifts every block**: code and entry stay what they were, and the routine
is lifted. -/
theorem isLifted_lift {p : Program} {r : Routine} (hp : p.handled = Opcode.all)
    (hd : (r.code.map (·.address)).Nodup) (hcode : r.code ≠ [])
    (h : (p.lift r).value = .ok ()) :
    (p.lift r).state.2.code = r.code ∧ (p.lift r).state.2.address = r.address ∧
      (p.lift r).state.2.IsLifted := by
  obtain ⟨g, order, visited, hinv, hend⟩ := inv_lift hp hd hcode h
  exact ⟨hend.code, hend.address, hend.isLifted (hinv.isDiscovered hd)⟩

end Program

end ScriptLift
