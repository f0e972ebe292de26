import Mathlib.Data.List.Basic
import ScriptLift.Proofs.Lift.Visit

/-!
# The blocks are a multigraph

An edge is written down four times: among the successors and in the set of ways out of its source,
and in the set and the number of ways into its target.  `Graph.IsMultigraph` says that the four
agree, for edges from a block to itself and for several edges between the same two blocks as well.

Making a block adds no edge, and linking two blocks adds one to all four
(`Graph.IsMultigraph.link`).  Whatever else is done to a block leaves its edges alone
(`Block.links`), and so does a lift, even one that is broken off.  So the blocks of a routine are a
multigraph whatever was done to it (`Routine.isMultigraph_edits`).
-/

namespace ScriptLift

/-- The records of the edges between the blocks agree. -/
structure Graph.IsMultigraph (g : Graph) : Prop where
  nodup : g.starts.Nodup
  /-- A block is found at its start and nowhere else. -/
  keys : ∀ a b, g.block? a = some b ↔ b ∈ g.blocks ∧ b.start = a
  /-- A way out of one block is a way into the other, -/
  outs : ∀ b ∈ g.blocks, ∀ c ∈ g.blocks, c.start ∈ b.outs ↔ b.start ∈ c.ins
  /-- and the one is a way into the other if it has it among its successors. -/
  ins : ∀ b ∈ g.blocks, ∀ c ∈ g.blocks, b.start ∈ c.ins ↔ c.start ∈ b.successors
  /-- Edges lead from blocks to blocks. -/
  closed : ∀ b ∈ g.blocks, ∀ a, a ∈ b.ins ∨ a ∈ b.outs ∨ a ∈ b.successors → a ∈ g.starts
  /-- Every edge is counted at its target. -/
  inEdges : ∀ b ∈ g.blocks, b.inEdges = (g.blocks.flatMap (·.successors)).count b.start

/-! ### Blocks with the same edges -/

namespace Block

/-- The block with nothing but its edges. -/
def links (b : Block) : Block where
  start := b.start
  ins := b.ins
  outs := b.outs
  successors := b.successors
  inEdges := b.inEdges

theorem links_eq_iff {b c : Block} :
    b.links = c.links ↔ b.start = c.start ∧ b.ins = c.ins ∧ b.outs = c.outs ∧
      b.successors = c.successors ∧ b.inEdges = c.inEdges := by
  simp [links]

end Block

namespace Graph

variable {g g' : Graph} {a s t : Int} {b : Block}

/-- One block for each start makes the graph a map. -/
theorem block?_eq_some_iff (hn : g.starts.Nodup) :
    g.block? a = some b ↔ b ∈ g.blocks ∧ b.start = a := by
  constructor
  · intro h
    exact ⟨mem_of_block? h, start_of_block? h⟩
  · rintro ⟨hb, rfl⟩
    exact block?_start hn hb

/-- The blocks have the same edges, one by one. -/
def SameLinks (g g' : Graph) : Prop :=
  g'.blocks.map Block.links = g.blocks.map Block.links

theorem SameLinks.refl (g : Graph) : g.SameLinks g :=
  rfl

theorem SameLinks.trans {g'' : Graph} (h : g.SameLinks g') (h' : g'.SameLinks g'') :
    g.SameLinks g'' :=
  Eq.trans h' h

/-- The same blocks, in the same order. -/
theorem SameLinks.starts (h : g.SameLinks g') : g'.starts = g.starts := by
  have := congrArg (List.map Block.start) h
  simpa [Graph.starts, Function.comp_def, Block.links] using this

/-- The same edges, in the same order. -/
theorem SameLinks.successors (h : g.SameLinks g') :
    g'.blocks.flatMap (·.successors) = g.blocks.flatMap (·.successors) := by
  have := congrArg (List.flatMap Block.successors) h
  simpa [List.flatMap_map, Block.links] using this

/-- A block has a counterpart with the same edges. -/
theorem SameLinks.exists_of_mem (h : g.SameLinks g') (hb : b ∈ g'.blocks) :
    ∃ c ∈ g.blocks, c.links = b.links :=
  List.mem_map.mp (h ▸ List.mem_map_of_mem hb)

/-- Only the edges of the blocks matter. -/
theorem IsMultigraph.congr (h : g.IsMultigraph) (hl : g.SameLinks g') : g'.IsMultigraph := by
  have hn : g'.starts.Nodup := hl.starts ▸ h.nodup
  refine ⟨hn, fun a b => block?_eq_some_iff hn, fun b hb c hc => ?_, fun b hb c hc => ?_,
    fun b hb a ha => ?_, fun b hb => ?_⟩
  all_goals
    obtain ⟨b₀, hb₀, heq⟩ := hl.exists_of_mem hb
    obtain ⟨hstart, hins, houts, hsucc, hin⟩ := Block.links_eq_iff.mp heq
  · obtain ⟨c₀, hc₀, heq'⟩ := hl.exists_of_mem hc
    obtain ⟨hstart', hins', -⟩ := Block.links_eq_iff.mp heq'
    rw [← hstart, ← hstart', ← houts, ← hins']
    exact h.outs b₀ hb₀ c₀ hc₀
  · obtain ⟨c₀, hc₀, heq'⟩ := hl.exists_of_mem hc
    obtain ⟨hstart', hins', -⟩ := Block.links_eq_iff.mp heq'
    rw [← hstart, ← hstart', ← hsucc, ← hins']
    exact h.ins b₀ hb₀ c₀ hc₀
  · rw [hl.starts]
    rw [← hins, ← houts, ← hsucc] at ha
    exact h.closed b₀ hb₀ a ha
  · rw [hl.successors, ← hstart, ← hin]
    exact h.inEdges b₀ hb₀

/-- Changing a block in other respects than its edges. -/
theorem sameLinks_update (g : Graph) (a : Int) {f : Block → Block}
    (hf : ∀ b ∈ g.blocks, b.start = a → (f b).links = b.links) : g.SameLinks (g.update a f) := by
  rw [SameLinks, update, List.map_map]
  refine List.map_congr_left fun b hb => ?_
  rw [Function.comp_apply]
  split
  · rename_i ha
    exact hf b hb ha
  · rfl

/-! ### Making a block -/

theorem IsMultigraph.empty : IsMultigraph {} where
  nodup := List.nodup_nil
  keys a b := by simp [block?]
  outs := by simp
  ins := by simp
  closed := by simp
  inEdges := by simp

/-- A new block has no edges. -/
theorem IsMultigraph.ensure (h : g.IsMultigraph) (a : Int) : (g.ensure a).IsMultigraph := by
  by_cases ha : a ∈ g.starts
  · rwa [Graph.ensure, if_pos ha]
  have hblocks : (g.ensure a).blocks = g.blocks ++ [{ start := a }] := by
    rw [Graph.ensure, if_neg ha]
  have hn : (g.ensure a).starts.Nodup := by
    rw [starts_ensure]
    exact nodup_insertNew h.nodup
  -- no edge leads to the address yet
  have hnone : ∀ b ∈ g.blocks, a ∉ b.ins ∧ a ∉ b.outs ∧ a ∉ b.successors := by
    intro b hb
    have hc := h.closed b hb a
    exact ⟨fun hm => ha (hc (Or.inl hm)), fun hm => ha (hc (Or.inr (Or.inl hm))),
      fun hm => ha (hc (Or.inr (Or.inr hm)))⟩
  have hcount : (g.blocks.flatMap (·.successors)).count a = 0 := by
    rw [List.count_eq_zero, List.mem_flatMap]
    rintro ⟨b, hb, hm⟩
    exact (hnone b hb).2.2 hm
  refine ⟨hn, fun a b => block?_eq_some_iff hn, ?_, ?_, ?_, ?_⟩
  · rw [hblocks]
    intro b hb c hc
    rcases List.mem_append.mp hb with hb | hb <;> rcases List.mem_append.mp hc with hc | hc
    · exact h.outs b hb c hc
    · obtain rfl := List.mem_singleton.mp hc
      simp [(hnone b hb).2.1]
    · obtain rfl := List.mem_singleton.mp hb
      simp [(hnone c hc).1]
    · obtain rfl := List.mem_singleton.mp hb
      obtain rfl := List.mem_singleton.mp hc
      simp
  · rw [hblocks]
    intro b hb c hc
    rcases List.mem_append.mp hb with hb | hb <;> rcases List.mem_append.mp hc with hc | hc
    · exact h.ins b hb c hc
    · obtain rfl := List.mem_singleton.mp hc
      simp [(hnone b hb).2.2]
    · obtain rfl := List.mem_singleton.mp hb
      simp [(hnone c hc).1]
    · obtain rfl := List.mem_singleton.mp hb
      obtain rfl := List.mem_singleton.mp hc
      simp
  · rw [hblocks, starts_ensure]
    intro b hb c hc
    rcases List.mem_append.mp hb with hb | hb
    · exact mem_insertNew.mpr (Or.inl (h.closed b hb c hc))
    · obtain rfl := List.mem_singleton.mp hb
      simp at hc
  · rw [hblocks]
    intro b hb
    rw [List.flatMap_append, List.count_append, List.flatMap_singleton, List.count_nil,
      Nat.add_zero]
    rcases List.mem_append.mp hb with hb | hb
    · exact h.inEdges b hb
    · obtain rfl := List.mem_singleton.mp hb
      exact hcount.symm

end Graph

/-! ### Linking two blocks -/

namespace Block

variable {b : Block} {s t a : Int}

/-- What becomes of a block when the one at `s` is linked to the one at `t`. -/
def linked (s t : Int) (b : Block) : Block :=
  { b with
    ins := if b.start = t then insertNew s b.ins else b.ins
    outs := if b.start = s then insertNew t b.outs else b.outs
    successors := if b.start = s then b.successors ++ [t] else b.successors
    inEdges := if b.start = t then b.inEdges + 1 else b.inEdges }

theorem start_linked : (b.linked s t).start = b.start :=
  rfl

/-- The target has the source among its ways in. -/
theorem mem_ins_linked : a ∈ (b.linked s t).ins ↔ a ∈ b.ins ∨ (b.start = t ∧ a = s) := by
  by_cases ht : b.start = t <;> simp [linked, ht, mem_insertNew]

/-- The source has the target among its ways out. -/
theorem mem_outs_linked : a ∈ (b.linked s t).outs ↔ a ∈ b.outs ∨ (b.start = s ∧ a = t) := by
  by_cases hs : b.start = s <;> simp [linked, hs, mem_insertNew]

theorem mem_successors_linked :
    a ∈ (b.linked s t).successors ↔ a ∈ b.successors ∨ (b.start = s ∧ a = t) := by
  by_cases hs : b.start = s <;> simp [linked, hs]

end Block

namespace Graph

variable {g : Graph} {s t : Int}

/-- A link is made in both its blocks; if they are one, in that one. -/
theorem blocks_link : (g.link s t).blocks = g.blocks.map (Block.linked s t) := by
  rw [link, update, update, List.map_map]
  refine List.map_congr_left fun b _ => ?_
  have hstart : (b.addOut t).start = b.start := rfl
  rw [Function.comp_apply]
  by_cases hs : b.start = s
  · by_cases ht : b.start = t
    · simp only [Block.linked, hstart, if_pos hs, if_pos ht]
      rfl
    · simp only [Block.linked, hstart, if_pos hs, if_neg ht]
      rfl
  · by_cases ht : b.start = t
    · simp only [Block.linked, if_neg hs, if_pos ht]
      rfl
    · simp only [Block.linked, if_neg hs, if_neg ht]

/-- A link is one more edge to its target, if it has one source. -/
theorem count_successors_linked (bs : List Block) (a : Int) :
    ((bs.map (Block.linked s t)).flatMap (·.successors)).count a
      = (bs.flatMap (·.successors)).count a
        + (bs.map (·.start)).count s * if a = t then 1 else 0 := by
  induction bs with
  | nil => simp
  | cons b bs ih =>
      simp only [List.map_cons, List.flatMap_cons, List.count_append, ih]
      by_cases hs : b.start = s
      · by_cases ha : a = t
        · simp [Block.linked, hs, ha]
          omega
        · simp [Block.linked, hs, ha, Ne.symm ha]
      · simp [Block.linked, hs]
        omega

/-- **A link between blocks keeps the records of the edges in agreement.** -/
theorem IsMultigraph.link (h : g.IsMultigraph) (hs : s ∈ g.starts) (ht : t ∈ g.starts) :
    (g.link s t).IsMultigraph := by
  have hn : (g.link s t).starts.Nodup := by
    rw [starts_link]
    exact h.nodup
  refine ⟨hn, fun a b => block?_eq_some_iff hn, ?_, ?_, ?_, ?_⟩
  · rw [blocks_link, List.forall_mem_map]
    intro b hb
    rw [List.forall_mem_map]
    intro c hc
    rw [Block.start_linked, Block.start_linked, Block.mem_outs_linked, Block.mem_ins_linked,
      h.outs b hb c hc, and_comm]
  · rw [blocks_link, List.forall_mem_map]
    intro b hb
    rw [List.forall_mem_map]
    intro c hc
    rw [Block.start_linked, Block.start_linked, Block.mem_successors_linked, Block.mem_ins_linked,
      h.ins b hb c hc, and_comm]
  · rw [starts_link, blocks_link, List.forall_mem_map]
    intro b hb a ha
    rw [Block.mem_ins_linked, Block.mem_outs_linked, Block.mem_successors_linked] at ha
    rcases ha with (ha | ⟨-, rfl⟩) | (ha | ⟨-, rfl⟩) | (ha | ⟨-, rfl⟩)
    · exact h.closed b hb a (Or.inl ha)
    · exact hs
    · exact h.closed b hb a (Or.inr (Or.inl ha))
    · exact ht
    · exact h.closed b hb a (Or.inr (Or.inr ha))
    · exact ht
  · rw [blocks_link, List.forall_mem_map]
    intro b hb
    have hone : (g.blocks.map (·.start)).count s = 1 := (h.nodup.count (a := s)).trans (if_pos hs)
    rw [count_successors_linked, hone, Block.start_linked, ← h.inEdges b hb]
    by_cases hbt : b.start = t <;> simp [Block.linked, hbt]

/-- An edge between two addresses. -/
theorem IsMultigraph.connect (h : g.IsMultigraph) (s t : Int) : (g.connect s t).IsMultigraph := by
  refine ((h.ensure s).ensure t).link ?_ ?_
  · rw [starts_ensure, starts_ensure]
    exact mem_insertNew.mpr (Or.inl (mem_insertNew.mpr (Or.inr rfl)))
  · rw [starts_ensure]
    exact mem_insertNew.mpr (Or.inr rfl)

end Graph

/-! ### Discovery -/

namespace Survey

variable {s : Survey} {g : Graph} {a : Int}

/-- By induction on the targets, each made before it is linked. -/
theorem isMultigraph_linkAll {ts : List Int} (h : g.IsMultigraph) (ha : a ∈ g.starts) :
    (linkAll a ts g).IsMultigraph := by
  induction ts generalizing g with
  | nil => exact h
  | cons t ts ih =>
      have hmade : a ∈ (g.ensure t).starts ∧ t ∈ (g.ensure t).starts := by
        rw [Graph.starts_ensure]
        exact ⟨mem_insertNew.mpr (Or.inl ha), mem_insertNew.mpr (Or.inr rfl)⟩
      refine ih ((h.ensure t).link hmade.1 hmade.2) ?_
      rw [Graph.starts_link]
      exact hmade.1

/-- Exploring a block fills it and links it to where it leads. -/
theorem isMultigraph_explore (h : g.IsMultigraph) : (s.explore a g).1.IsMultigraph := by
  unfold explore
  split
  · exact h
  · refine isMultigraph_linkAll ((h.ensure a).congr ?_) ?_
    · exact Graph.sameLinks_update _ _ fun _ _ _ => rfl
    · rw [starts_fill]
      exact mem_insertNew.mpr (Or.inr rfl)

/-- Discovery, by induction on its steps. -/
theorem isMultigraph_walk {visited queue : List Int} (events : List Event) (h : g.IsMultigraph) :
    (s.walk g visited events queue).1.IsMultigraph := by
  fun_induction Survey.walk s g visited events queue with
  | case1 => exact h
  | case2 g visited events a queue ha ih => exact ih h
  | case3 g visited events a queue ha hhas g' found reports hexp ih =>
      refine ih ?_
      have := s.isMultigraph_explore (a := a) h
      rwa [hexp] at this
  | case4 g visited events a queue ha hhas ih => exact ih h

end Survey

/-- Discovery starts over, or leaves a routine without code as it is. -/
theorem Routine.isMultigraph_discover {r : Routine} (h : r.graph.IsMultigraph) :
    r.discover.state.graph.IsMultigraph := by
  unfold Routine.discover
  split
  · exact h
  · split
    · exact Survey.isMultigraph_walk [] .empty
    · exact Graph.IsMultigraph.empty.ensure _

/-! ### Lifting -/

namespace Stage

variable {s s' : Stage} {b : Block}

/-- Carrying out a block leaves its edges alone, even if it is broken off. -/
theorem sameLinks_runBlock (hn : s.routine.graph.starts.Nodup) (hb : b ∈ s.routine.graph.blocks) :
    s.routine.graph.SameLinks (s.runBlock b).2.routine.graph := by
  have hgrows := (Lift.runBlock_effect (f := ⟨s.program, s.routine, b, b.entryStack, s.events⟩)
    Expr.hereditary_true rfl).1
  have hput : (s.runBlock b).2.routine.graph
      = (Lift.runBlock.exec
          ⟨s.program, s.routine, b, b.entryStack, s.events⟩).2.routine.graph.update b.start
        fun _ => (Lift.runBlock.exec ⟨s.program, s.routine, b, b.entryStack, s.events⟩).2.block :=
    rfl
  rw [hput, hgrows.graph]
  refine Graph.sameLinks_update _ b.start fun c hc hstart => ?_
  -- there is one block with this start only
  obtain rfl : c = b := by
    have hfound := Graph.block?_start hn hc
    rw [hstart, Graph.block?_start hn hb] at hfound
    exact (Option.some.inj hfound).symm
  rw [hgrows.block]
  rfl

/-- To hand a stack on makes no edge. -/
theorem sameLinks_seed (source : Int) (stack : OperandStack) (b : Block) :
    s.routine.graph.SameLinks (s.seed source stack b).routine.graph := by
  unfold seed
  split
  · split <;> exact .refl _
  · exact Graph.sameLinks_update _ _ fun _ _ _ => rfl

theorem sameLinks_seedAll (source : Int) (stack : OperandStack) (ts : List Int) (s : Stage) :
    s.routine.graph.SameLinks (seedAll source stack ts s).2.routine.graph := by
  fun_induction seedAll source stack ts s with
  | case1 => exact .refl _
  | case2 a rest s b hb ih => exact (sameLinks_seed source stack b).trans ih
  | case3 => exact .refl _

/-- A visit replaces a block by one with the same edges. -/
theorem sameLinks_visit (hn : s.routine.graph.starts.Nodup) (a : Int) :
    s.routine.graph.SameLinks (s.visit a).2.routine.graph := by
  unfold visit
  split
  · exact .refl _
  · rename_i b hb
    have hrun := sameLinks_runBlock hn (Graph.mem_of_block? hb)
    split
    · rename_i hs
      rwa [hs] at hrun
    · rename_i stack s₁ hs
      rw [hs] at hrun
      have hseed := sameLinks_seedAll a stack b.successors s₁
      split <;> rename_i hs' <;> rw [hs'] at hseed <;> exact hrun.trans hseed

/-- **A walk through the blocks leaves the edges alone**, also one that is broken off. -/
theorem sameLinks_walk {keys visited queue : List Int} (hn : s.routine.graph.starts.Nodup) :
    s.routine.graph.SameLinks (walk keys s visited queue).2.routine.graph := by
  fun_induction walk keys s visited queue with
  | case1 => exact .refl _
  | case2 s visited a queue ha ih => exact ih hn
  | case3 s visited a queue ha hk f s₁ hv =>
      have hvisit := sameLinks_visit hn a
      rwa [hv] at hvisit
  | case4 s visited a queue ha hk found s₁ hv ih =>
      have hvisit := sameLinks_visit hn a
      rw [hv] at hvisit
      exact hvisit.trans (ih (hvisit.starts ▸ hn))
  | case5 => exact .refl _

/-- Lifting changes what is in blocks, and no edge. -/
theorem sameLinks_interpret (hn : s.routine.graph.starts.Nodup) :
    s.routine.graph.SameLinks s.interpret.2.routine.graph := by
  unfold interpret
  split
  · exact .refl _
  · rename_i b hb
    have hsettle : s.routine.graph.SameLinks (s.routine.graph.update b.start fun b =>
        { b with entryStack := [], seeded := true }) :=
      Graph.sameLinks_update _ _ fun _ _ _ => rfl
    exact hsettle.trans (sameLinks_walk (hsettle.starts ▸ hn))

end Stage

/-- So the edges of a lifted routine are those of discovery. -/
theorem Program.isMultigraph_lift (p : Program) {r : Routine} (h : r.graph.IsMultigraph) :
    (p.lift r).state.2.graph.IsMultigraph := by
  have hd := Routine.isMultigraph_discover h
  unfold Program.lift
  split
  · rename_i hr
    rwa [hr] at hd
  · rename_i hr
    rw [hr] at hd
    exact hd.congr (Stage.sameLinks_interpret hd.nodup)

/-! ### Whatever is done to a routine -/

/-- What can be done to the blocks of a routine. -/
inductive Edit where
  /-- Make a block. -/
  | block (a : Int)
  /-- Link two blocks, made where they are missing. -/
  | link (source target : Int)
  | discover
  | lift (p : Program)

/-- The routine after an edit, which may have been broken off. -/
def Routine.edit (r : Routine) : Edit → Routine
  | .block a => { r with graph := r.graph.ensure a }
  | .link source target => { r with graph := r.graph.connect source target }
  | .discover => r.discover.state
  | .lift p => (p.lift r).state.2

/-- One edit, whichever it is. -/
theorem Routine.isMultigraph_edit {r : Routine} (h : r.graph.IsMultigraph) (e : Edit) :
    (r.edit e).graph.IsMultigraph := by
  cases e with
  | block a => exact h.ensure a
  | link source target => exact h.connect source target
  | discover => exact isMultigraph_discover h
  | lift p => exact p.isMultigraph_lift h

/-- **The blocks of a routine are a multigraph**: whatever was done to it since it was made, and
whether or not it came to an end, every block stands at its start, a block is among the ways out of
another exactly if the other is among its ways in, and every edge is counted where it leads to. -/
theorem Routine.isMultigraph_edits (r : Routine) (edits : List Edit) :
    (edits.foldl edit { r with graph := {} }).graph.IsMultigraph := by
  -- there are no edges without blocks, and every edit keeps the records in agreement
  have hrun : ∀ r : Routine, r.graph.IsMultigraph → (edits.foldl edit r).graph.IsMultigraph := by
    induction edits with
    | nil => exact fun _ h => h
    | cons e edits ih => exact fun r h => ih (r.edit e) (isMultigraph_edit h e)
  exact hrun _ .empty

end ScriptLift
