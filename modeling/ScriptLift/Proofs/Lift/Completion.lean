import ScriptLift.Proofs.Lift.Success
import ScriptLift.Proofs.Lift.Walk

/-!
# Lifts that come to their end

If every block, started on an empty stack, comes to its end with an empty stack again
(`Block.Yields`), then lifting succeeds, and each block holds the statements that it yields
(`Program.lift_yields`).  On top of the walk's own invariant this keeps one more (`Stage.Clean`):
the blocks that wait start on an empty stack, and no variable has changed its name.
-/

namespace ScriptLift

/-- Started on an empty stack, the block comes to its end with an empty stack and has emitted
`ss`. -/
def Block.Yields (b : Block) (r : Routine) (ss : List Stmt) : Prop :=
  ∀ f : Frame, f.Ready r b.fallthrough [] → f.block.tape.instructions = b.tape.instructions →
    ∃ f', Lift.runBlock.exec f = (.ok (), f') ∧ f'.Ready r b.fallthrough [] ∧
      f'.block.statements = f.block.statements ++ ss

/-- Only the code and the names of a routine matter. -/
theorem Block.Yields.congr {b : Block} {r r' : Routine} {ss : List Stmt} (h : b.Yields r ss)
    (hc : r'.code = r.code) (hn : r'.SameNames r) (hn' : r.SameNames r') : b.Yields r' ss := by
  intro f hf hi
  obtain ⟨f', hrun, hf', hout⟩ :=
    h f ⟨hf.handled, hf.code.trans hc, hn'.trans hf.names, hf.fallthrough, hf.stack⟩ hi
  exact ⟨f', hrun, ⟨hf'.handled, hf'.code.trans hc.symm, hn.trans hf'.names, hf'.fallthrough,
    hf'.stack⟩, hout⟩

namespace Stage

variable {s s' s'' : Stage} {a : Int} {b : Block} {r₀ : Routine} {visited queue : List Int}
  {P : Int → List Stmt → Prop}

/-! ### Handing on an empty stack -/

/-- The stages differ in the stacks that blocks start with, and a block that started on an empty
stack still does. -/
structure Clears (s s' : Stage) : Prop extends s.Agrees s' where
  names : s.routine.SameNames s'.routine
  entryStack : ∀ c b', s'.routine.graph.block? c = some b' →
    ∃ b, s.routine.graph.block? c = some b ∧ b'.unseeded = b.unseeded ∧
      (b.entryStack = [] → b'.entryStack = [])

theorem Clears.refl (s : Stage) : s.Clears s :=
  ⟨.refl s, .refl _, fun _ b hb => ⟨b, hb, rfl, id⟩⟩

theorem Clears.trans (h : s.Clears s') (h' : s'.Clears s'') : s.Clears s'' := by
  refine ⟨h.toAgrees.trans h'.toAgrees, h.names.trans h'.names, fun c b'' hb'' => ?_⟩
  obtain ⟨b', hb', hu', hs'⟩ := h'.entryStack c b'' hb''
  obtain ⟨b, hb, hu, hs⟩ := h.entryStack c b' hb'
  exact ⟨b, hb, hu'.trans hu, fun h => hs' (hs h)⟩

theorem clears_settle (s : Stage) (a : Int) :
    s.Clears { s with
      routine := { s.routine with
        graph := s.routine.graph.update a fun b =>
          { b with entryStack := [], seeded := true } } } := by
  refine ⟨s.agrees_settle a [], .of_map rfl rfl, fun c b' hb' => ?_⟩
  dsimp only at hb'
  rw [Graph.block?_update (fun b => { b with entryStack := [], seeded := true }) fun _ h => h]
    at hb'
  split at hb'
  · rename_i hc
    obtain ⟨b, hb, rfl⟩ := Option.map_eq_some_iff.mp hb'
    exact ⟨b, hc ▸ hb, rfl, fun _ => rfl⟩
  · exact ⟨b', hb', rfl, id⟩

theorem clears_seed (s : Stage) (source : Int) (b : Block) : s.Clears (s.seed source [] b) := by
  rw [seed]
  split
  · split
    · exact .refl s
    · exact ⟨⟨rfl, rfl, rfl, rfl, fun _ => rfl⟩, .refl _, fun _ b hb => ⟨b, hb, rfl, id⟩⟩
  · exact s.clears_settle b.start

/-- Handing a stack on succeeds where there are blocks. -/
theorem seedAll_ok (source : Int) (ts : List Int) (h : ∀ t ∈ ts, t ∈ s.routine.graph.starts) :
    ∃ s', seedAll source [] ts s = (.ok (), s') ∧ s.Clears s' := by
  induction ts generalizing s with
  | nil => exact ⟨s, rfl, .refl s⟩
  | cons t ts ih =>
      obtain ⟨b, hb⟩ := Graph.exists_block?_iff.mpr (h t (by simp))
      have hseed := s.clears_seed source b
      obtain ⟨s', hs', hc⟩ := ih (s := s.seed source [] b)
        fun t ht => hseed.starts ▸ h t (by simp [ht])
      exact ⟨s', by rw [seedAll, hb]; exact hs', hseed.trans hc⟩

/-! ### The walk -/

/-- What holds besides the invariant of the walk: the blocks that wait start on an empty stack, the
statements of those carried out satisfy `P`, and every address waiting has a block. -/
structure Clean (r₀ : Routine) (P : Int → List Stmt → Prop) (s : Stage)
    (visited queue : List Int) : Prop where
  names : r₀.SameNames s.routine
  entryStack : ∀ c b, s.routine.graph.block? c = some b → c ∉ visited → b.entryStack = []
  done : ∀ c b, s.routine.graph.block? c = some b → c ∈ visited → P c b.statements
  waiting : ∀ c ∈ queue, c ∈ r₀.graph.starts

/-- **A block that waits comes to its end** and is put back with what it yields. -/
theorem Clean.runBlock (hr : r₀.IsDiscovered)
    (hy : ∀ c b₀, r₀.graph.block? c = some b₀ → ∃ ss, b₀.Yields r₀ ss ∧ P c ss)
    (hi : Inv r₀ s visited queue) (h : Clean r₀ P s visited queue) (hq : a ∈ queue)
    (ha : a ∉ visited) :
    ∃ b b₁ s₁, s.routine.graph.block? a = some b ∧ (∀ t ∈ b.successors, t ∈ r₀.graph.starts) ∧
      s.runBlock b = (.ok [], s₁) ∧ r₀.SameNames s₁.routine ∧
      s₁.routine.graph = s.routine.graph.update a (fun _ => b₁) ∧ b₁.start = a ∧
      P a b₁.statements := by
  obtain ⟨b₀, hb₀⟩ := Graph.exists_block?_iff.mpr (h.waiting a hq)
  obtain ⟨b, hb, hbec⟩ := hi.blocks a b₀ hb₀
  obtain ⟨last, hends, hfresh⟩ := hr.fresh b₀ (Graph.mem_of_block? hb₀)
  obtain ⟨hstmts, hcont⟩ := hbec.todo ha
  have hfresh' : b.IsFresh last :=
    ⟨hstmts.trans hfresh.statements, by rw [hcont, hfresh.continuation, hbec.flow.fallthrough]⟩
  obtain ⟨ss, hyields, hP⟩ := hy a b₀ hb₀
  obtain ⟨f, hf, hready, hout⟩ := hyields ⟨s.program, s.routine, b, b.entryStack, s.events⟩
    ⟨hi.handled, hi.code, h.names, hbec.flow.fallthrough, h.entryStack a b hb ha⟩
      hbec.flow.instructions
  have hrun : s.runBlock b = (.ok [], ⟨f.program,
      { f.routine with graph := f.routine.graph.update b.start fun _ => f.block }, f.events⟩) := by
    rw [Stage.runBlock, hf, ← hready.stack]
    rfl
  -- what else there is to know of the block is what holds of every block carried out
  obtain ⟨-, -, -, f', hf', hflow, -, hgraph⟩ :=
    runBlock_ok hi.handled ((hends.sameFlow hbec.flow).congr hi.code) hfresh' hrun
  obtain rfl : f' = f := by
    rw [hf] at hf'
    exact (Prod.mk.inj hf').2.symm
  have hstart : b.start = a := Graph.start_of_block? hb
  refine ⟨b, f'.block, _, hb, fun t ht => ?_, hrun, hready.names.trans (.of_map rfl rfl), ?_,
    hflow.start.trans hstart, ?_⟩
  · exact hr.closed b₀ (Graph.mem_of_block? hb₀) t (hbec.flow.successors ▸ ht)
  · rw [← hstart]
    exact hgraph
  · rw [hout, hfresh'.statements, List.nil_append]
    exact hP

/-- The walk starts clean. -/
theorem clean_start (hr : r₀.IsDiscovered) (p : Program) (events : List Event) :
    Clean r₀ P (settled ⟨p, r₀, events⟩) [] [r₀.address] := by
  have hclear := clears_settle ⟨p, r₀, events⟩ r₀.address
  refine ⟨hclear.names, fun c b hb _ => ?_, by simp, by simpa using hr.origin⟩
  obtain ⟨b₀, hb₀, -, hstack⟩ := hclear.entryStack c b hb
  exact hstack (hr.entryStack b₀ (Graph.mem_of_block? hb₀))

/-- **Visiting a block succeeds** and keeps this. -/
theorem Clean.visit (hr : r₀.IsDiscovered)
    (hy : ∀ c b₀, r₀.graph.block? c = some b₀ → ∃ ss, b₀.Yields r₀ ss ∧ P c ss)
    (hi : Inv r₀ s visited (a :: queue)) (h : Clean r₀ P s visited (a :: queue))
    (ha : a ∉ visited) :
    ∃ found s', s.visit a = (.ok found, s') ∧
      Clean r₀ P s' (visited ++ [a]) (queue ++ found.filter fun c => c ∉ visited ++ [a]) := by
  obtain ⟨b, b₁, s₁, hb, hsucc, hrun, hnames, hgraph, hstart, hyield⟩ :=
    h.runBlock hr hy hi (List.mem_cons_self ..) ha
  have hupd : ∀ d : Block, d.start = a → b₁.start = a := fun _ _ => hstart
  obtain ⟨s₂, hseed, hclear⟩ := seedAll_ok (s := s₁) a b.successors fun t ht => by
    rw [hgraph, Graph.starts_update _ hupd, hi.starts]
    exact hsucc t ht
  refine ⟨b.successors, s₂, ?_, hnames.trans hclear.names, fun c d hd hc => ?_, fun c d hd hc => ?_,
    fun c hc => ?_⟩
  · simp only [Stage.visit, hb, hrun, hseed]
  · obtain ⟨d₁, hd₁, -, hstack⟩ := hclear.entryStack c d hd
    have hne : c ∉ visited ∧ c ≠ a := by simpa using hc
    rw [hgraph, Graph.block?_update _ hupd, if_neg hne.2] at hd₁
    exact hstack (h.entryStack c d₁ hd₁ hne.1)
  · obtain ⟨d₁, hd₁, hun, -⟩ := hclear.entryStack c d hd
    have hds : d.statements = d₁.statements := congrArg (·.statements) hun
    rw [hgraph, Graph.block?_update _ hupd] at hd₁
    by_cases hca : c = a
    · rw [if_pos hca, hb, Option.map_some, Option.some.injEq] at hd₁
      rw [hds, ← hd₁, hca]
      exact hyield
    · rw [if_neg hca] at hd₁
      rw [hds]
      exact h.done c d₁ hd₁ (by simpa [hca] using hc)
  · rcases List.mem_append.mp hc with hc | hc
    · exact h.waiting c (List.mem_cons_of_mem _ hc)
    · exact hsucc c (List.mem_filter.mp hc).1

/-- **The walk comes to its end.** -/
theorem walk_clean (hr : r₀.IsDiscovered)
    (hy : ∀ c b₀, r₀.graph.block? c = some b₀ → ∃ ss, b₀.Yields r₀ ss ∧ P c ss)
    (hi : Inv r₀ s visited queue) (h : Clean r₀ P s visited queue) :
    ∃ s' visited', walk r₀.graph.starts s visited queue = (.ok (), s') ∧ Inv r₀ s' visited' [] ∧
      Clean r₀ P s' visited' [] := by
  generalize hk : r₀.graph.starts = keys
  fun_induction walk keys s visited queue with
  | case1 s visited =>
      refine ⟨_, visited, rfl, ⟨hi.handled, hi.address, hi.code, hi.starts, hi.origin, hi.blocks,
        hi.closed⟩, ⟨h.names.trans (.of_map rfl rfl), h.entryStack, h.done, h.waiting⟩⟩
  | case2 s visited a queue ha ih =>
      exact ih (hi.skip ha) ⟨h.names, h.entryStack, h.done, fun c hc => h.waiting c (by simp [hc])⟩
  | case3 s visited a queue ha hmem e s' hv =>
      obtain ⟨found, s'', hv', -⟩ := h.visit hr hy hi ha
      rw [hv] at hv'
      cases hv'
  | case4 s visited a queue ha hmem found s' hv ih =>
      obtain ⟨found', s'', hv', hclean⟩ := h.visit hr hy hi ha
      obtain ⟨rfl, rfl⟩ : found' = found ∧ s'' = s' := by
        rw [hv] at hv'
        cases hv'
        exact ⟨rfl, rfl⟩
      exact ih (hi.visit hr.fresh ha hv) hclean
  | case5 s visited a queue ha hmem =>
      exact absurd (hk ▸ h.waiting a (by simp)) hmem

end Stage

namespace Program

/-- **If every block yields statements from an empty stack, lifting succeeds**, and each block holds
what it yields. -/
theorem lift_yields {p : Program} {r : Routine} {P : Int → List Stmt → Prop}
    (hp : p.handled = Opcode.all) (hd : (r.code.map (·.address)).Nodup)
    (he : r.address ∈ r.code.map (·.address))
    (hy : ∀ g order, r.survey.Inv r.address g order [] → ∀ c b₀, g.block? c = some b₀ →
      ∃ ss, b₀.Yields r ss ∧ P c ss) :
    (p.lift r).value = .ok () ∧ ∃ g order, r.survey.Inv r.address g order [] ∧
      ∀ c b₀, g.block? c = some b₀ → ∃ b, (p.lift r).state.2.graph.block? c = some b ∧
        b₀.SameFlow b ∧ P c b.statements := by
  obtain ⟨g, order, events, hinv, hlift⟩ := p.lift_eq_walk hd he
  have hdisc := hinv.isDiscovered hd
  obtain ⟨s', visited, hwalk, hend, hclean⟩ := Stage.walk_clean hdisc
    (fun c b₀ hb₀ => by
      obtain ⟨ss, hyields, hP⟩ := hy g order hinv c b₀ hb₀
      exact ⟨ss, hyields.congr rfl (.of_map rfl rfl) (.of_map rfl rfl), hP⟩)
    (Stage.inv_start hp) (Stage.clean_start hdisc p events)
  rw [hlift, hwalk]
  refine ⟨rfl, g, order, hinv, fun c b₀ hb₀ => ?_⟩
  obtain ⟨b, hb, hbec⟩ := hend.blocks c b₀ hb₀
  have hv := hend.mem_visited hdisc.nodup
    (hdisc.reached c (Graph.exists_block?_iff.mp ⟨b₀, hb₀⟩))
  exact ⟨b, hb, hbec.flow, hclean.done c b hb hv⟩

end Program

end ScriptLift
