import Mathlib
import ScriptLift.Proofs.Drawing.Reading
import ScriptLift.Proofs.Multigraph

/-!
# A drawing determines the graph

The ways out of a block are kept as a set, whatever is done to its routine
(`Routine.graph_discovered`), so a drawing has one line for each of them.  Its lines show every
block once, in the order of addresses, and every edge once (`Sketch.shows_read`), and a sketch shows
one graph only (`Sketch.Shows.unique`).

So two drawings with the same text are drawings of the same graph (`Routine.dot_shows`).
-/

namespace ScriptLift

/-! ### Ways out are a set -/

namespace Graph

variable {g g' : Graph} {a s t : Int}

/-- No way out of a block is recorded twice. -/
def HasSets (g : Graph) : Prop :=
  ∀ b ∈ g.blocks, b.outs.Nodup

/-- Only the ways out matter. -/
theorem HasSets.congr (h : g.HasSets) (hl : g.SameLinks g') : g'.HasSets := by
  intro b hb
  obtain ⟨c, hc, heq⟩ := hl.exists_of_mem hb
  obtain ⟨-, -, houts, -⟩ := Block.links_eq_iff.mp heq
  exact houts ▸ h c hc

theorem hasSets_empty : HasSets {} :=
  fun _ hb => absurd hb List.not_mem_nil

/-- A new block has no ways out. -/
theorem HasSets.ensure (h : g.HasSets) (a : Int) : (g.ensure a).HasSets := by
  unfold Graph.ensure
  split
  · exact h
  · intro b hb
    rcases List.mem_append.mp hb with hb | hb
    · exact h b hb
    · rw [List.mem_singleton.mp hb]
      exact List.nodup_nil

/-- A way out that is there already is not recorded again. -/
theorem HasSets.link (h : g.HasSets) (s t : Int) : (g.link s t).HasSets := by
  rw [HasSets, blocks_link, List.forall_mem_map]
  intro b hb
  change (if b.start = s then insertNew t b.outs else b.outs).Nodup
  split
  · exact nodup_insertNew (h b hb)
  · exact h b hb

/-- By induction on the targets. -/
theorem HasSets.linkAll (h : g.HasSets) (s : Int) (ts : List Int) :
    (Survey.linkAll s ts g).HasSets := by
  induction ts generalizing g with
  | nil => exact h
  | cons t ts ih => exact ih ((h.ensure t).link s t)

end Graph

/-- One step of the walk: a block is made and linked. -/
theorem Survey.hasSets_explore {s : Survey} {g : Graph} {a : Int} (h : g.HasSets) :
    (s.explore a g).1.HasSets := by
  unfold explore
  split
  · exact h
  · refine Graph.HasSets.linkAll ((h.ensure a).congr ?_) _ _
    exact Graph.sameLinks_update _ _ fun _ _ _ => rfl

/-- The whole walk, by induction on its steps. -/
theorem Survey.hasSets_walk {s : Survey} {g : Graph} {visited queue : List Int}
    (events : List Event) (h : g.HasSets) : (s.walk g visited events queue).1.HasSets := by
  fun_induction Survey.walk s g visited events queue with
  | case1 => exact h
  | case2 g visited events a queue ha ih => exact ih h
  | case3 g visited events a queue ha hhas g' found reports hexp ih =>
      refine ih ?_
      have := s.hasSets_explore (a := a) h
      rwa [hexp] at this
  | case4 g visited events a queue ha hhas ih => exact ih h

namespace Routine

variable {r : Routine}

theorem hasSets_discover (h : r.graph.HasSets) : r.discover.state.graph.HasSets := by
  unfold discover
  split
  · exact h
  · split
    · exact Survey.hasSets_walk [] Graph.hasSets_empty
    · exact Graph.hasSets_empty.ensure _

/-- Lifting keeps the ways out that discovery made. -/
theorem hasSets_lift (p : Program) (hg : r.graph.IsMultigraph) (h : r.graph.HasSets) :
    (p.lift r).state.2.graph.HasSets := by
  have hn := (isMultigraph_discover hg).nodup
  have hd := hasSets_discover h
  unfold Program.lift
  split
  · rename_i hr
    rwa [hr] at hd
  · rename_i hr
    rw [hr] at hd hn
    exact hd.congr (Stage.sameLinks_interpret hn)

/-- The same for edits of a graph by hand. -/
theorem hasSets_edit (hg : r.graph.IsMultigraph) (h : r.graph.HasSets) (e : Edit) :
    (r.edit e).graph.HasSets := by
  cases e with
  | block a => exact h.ensure a
  | link source target => exact ((h.ensure source).ensure target).link source target
  | discover => exact hasSets_discover h
  | lift p => exact hasSets_lift p hg h

/-- The routine discovered after all that was done to it since it was made. -/
def discovered (r : Routine) (edits : List Edit) : Routine :=
  (edits.foldl edit { r with graph := {} }).discover.state

/-- **The blocks found are a multigraph, and their ways out are sets.** -/
theorem graph_discovered (r : Routine) (edits : List Edit) :
    (r.discovered edits).graph.IsMultigraph ∧ (r.discovered edits).graph.HasSets := by
  have hrun : ∀ r : Routine, r.graph.IsMultigraph → r.graph.HasSets →
      (edits.foldl edit r).graph.IsMultigraph ∧ (edits.foldl edit r).graph.HasSets := by
    induction edits with
    | nil => exact fun _ hg h => ⟨hg, h⟩
    | cons e edits ih =>
        exact fun r hg h => ih (r.edit e) (isMultigraph_edit hg e) (hasSets_edit hg h e)
  obtain ⟨hg, h⟩ := hrun { r with graph := {} } .empty Graph.hasSets_empty
  exact ⟨isMultigraph_discover hg, hasSets_discover h⟩

end Routine

/-! ### Order -/

theorem sorted_perm (xs : List Int) : (sorted xs).Perm xs :=
  List.mergeSort_perm xs _

namespace Dot

theorem ordered_perm (g : Graph) : (ordered g).Perm g.blocks :=
  List.mergeSort_perm g.blocks _

/-- Blocks with different starts are drawn in increasing order. -/
theorem ordered_increasing {g : Graph} (hn : g.starts.Nodup) :
    ((ordered g).map (·.start)).Pairwise (· < ·) := by
  have hle : (ordered g).Pairwise fun b c => b.start ≤ c.start := by
    refine (List.pairwise_mergeSort ?_ ?_ g.blocks).imp fun h => of_decide_eq_true h
    · exact fun a b c hab hbc =>
        decide_eq_true (le_trans (of_decide_eq_true hab) (of_decide_eq_true hbc))
    · intro a b
      simpa using le_total a.start b.start
  have hne : (ordered g).Pairwise fun b c => b.start ≠ c.start :=
    List.pairwise_map.mp (((ordered_perm g).map _).nodup_iff.mpr hn)
  rw [List.pairwise_map]
  exact (hle.and hne).imp fun h => lt_of_le_of_ne h.1 h.2

end Dot

/-! ### What a sketch shows -/

/-- There is an edge between two addresses. -/
def Graph.HasEdge (g : Graph) (a b : Int) : Prop :=
  ∃ c ∈ g.blocks, c.start = a ∧ b ∈ c.outs

namespace Dot.Sketch

/-- The sketch shows every block of the graph by one node, in the order of addresses, with a heading
and the instructions in it, and every edge by one edge, between blocks that it shows. -/
structure Shows (s : Sketch) (g : Graph) : Prop where
  increasing : (s.nodes.map (·.1)).Pairwise (· < ·)
  starts : ∀ a, a ∈ s.nodes.map (·.1) ↔ a ∈ g.starts
  lines : ∀ b ∈ g.blocks,
    (b.start, ("block_" ++ Text.hex 0 b.start) :: b.tape.instructions.map (·.text)) ∈ s.nodes
  once : s.edges.Nodup
  edges : ∀ a b, (a, b) ∈ s.edges ↔ g.HasEdge a b
  ends : ∀ e ∈ s.edges, e.1 ∈ s.nodes.map (·.1) ∧ e.2 ∈ s.nodes.map (·.1)

/-- **The lines of a drawing show the graph.** -/
theorem shows_read {r : Routine} (hg : r.graph.IsMultigraph) (hs : r.graph.HasSets)
    (title : Option String) : (read (r.dot title)).Shows r.graph := by
  have hstarts : ((ordered r.graph).map fun b => (b.start, nodeLines b)).map (·.1)
      = (ordered r.graph).map (·.start) := by
    rw [List.map_map]
    rfl
  have hmem : ∀ a, a ∈ (ordered r.graph).map (·.start) ↔ a ∈ r.graph.starts := fun a =>
    ((ordered_perm r.graph).map _).mem_iff
  have hedges : ∀ a b,
      ((a, b) ∈ (ordered r.graph).flatMap fun c => (sorted c.outs).map fun d => (c.start, d)) ↔
        r.graph.HasEdge a b := by
    intro a b
    simp only [List.mem_flatMap, List.mem_map, Prod.mk.injEq, Graph.HasEdge,
      (ordered_perm r.graph).mem_iff, (sorted_perm _).mem_iff]
    constructor
    · rintro ⟨c, hc, d, hd, rfl, rfl⟩
      exact ⟨c, hc, rfl, hd⟩
    · rintro ⟨c, hc, rfl, hd⟩
      exact ⟨c, hc, b, hd, rfl, rfl⟩
  rw [read_dot]
  refine ⟨?_, ?_, ?_, ?_, hedges, ?_⟩
  · rw [hstarts]
    exact ordered_increasing hg.nodup
  · rw [hstarts]
    exact hmem
  · intro b hb
    exact List.mem_map_of_mem ((ordered_perm r.graph).mem_iff.mpr hb)
  · -- the edges of one block are different, and edges of two blocks differ in their sources
    rw [List.nodup_flatMap]
    constructor
    · intro b hb
      refine List.Nodup.map (fun c d h => (Prod.mk.inj h).2) ?_
      rw [(sorted_perm b.outs).nodup_iff]
      exact hs b ((ordered_perm r.graph).mem_iff.mp hb)
    · refine (List.pairwise_map.mp (ordered_increasing hg.nodup)).imp fun {b c} hlt e hb hc => ?_
      obtain ⟨x, -, rfl⟩ := List.mem_map.mp hb
      obtain ⟨y, -, heq⟩ := List.mem_map.mp hc
      exact absurd (Prod.mk.inj heq).1 (ne_of_gt hlt)
  · rintro ⟨a, b⟩ he
    obtain ⟨c, hc, rfl, hb⟩ := (hedges a b).mp he
    rw [hstarts, hmem, hmem]
    exact ⟨List.mem_map_of_mem hc, hg.closed c hc b (.inr (.inl hb))⟩

/-- The node of a block has one set of lines. -/
theorem Shows.lines_unique {s : Sketch} {g g' : Graph} (h : s.Shows g) (h' : s.Shows g')
    {b c : Block} (hb : b ∈ g.blocks) (hc : c ∈ g'.blocks) (hstart : b.start = c.start) :
    b.tape.instructions.map (·.text) = c.tape.instructions.map (·.text) := by
  have hkeys : (s.nodes.map (·.1)).Nodup := h.increasing.imp fun hlt => ne_of_lt hlt
  have hline := h'.lines c hc
  rw [← hstart] at hline
  have heq := List.inj_on_of_nodup_map hkeys (h.lines b hb) hline rfl
  exact (List.cons.inj (Prod.mk.inj heq).2).2

/-- **A sketch shows one graph only**: the same addresses, the same instructions in each block and
the same edges. -/
theorem Shows.unique {s : Sketch} {g g' : Graph} (h : s.Shows g) (h' : s.Shows g') :
    (∀ a, a ∈ g.starts ↔ a ∈ g'.starts) ∧
    (∀ b ∈ g.blocks, ∀ c ∈ g'.blocks, b.start = c.start →
      b.tape.instructions.map (·.text) = c.tape.instructions.map (·.text)) ∧
    ∀ a b, g.HasEdge a b ↔ g'.HasEdge a b :=
  ⟨fun a => (h.starts a).symm.trans (h'.starts a), fun _ hb _ hc => h.lines_unique h' hb hc,
    fun a b => (h.edges a b).symm.trans (h'.edges a b)⟩

end Dot.Sketch

/-! ### Drawings -/

namespace Routine

open Dot (Sketch)

/-- **A drawing determines the graph.**  Whatever was done to a routine before its blocks were
discovered, and whatever its texts hold, the lines of its drawing give one title, the one to be
shown, every block once in the order of addresses, and every edge once, between blocks that are
shown.  If two drawings have the same text, then the titles are the same, the blocks have the same
addresses and the same instructions in them, and the edges are the same. -/
theorem dot_shows :
    (∀ (r : Routine) (edits : List Edit) (title : Option String),
      let d := r.discovered edits
      (Sketch.read (d.dot title)).titles = [(givenName? title).getD d.name] ∧
        (Sketch.read (d.dot title)).Shows d.graph) ∧
    ∀ (r₁ r₂ : Routine) (edits₁ edits₂ : List Edit) (title₁ title₂ : Option String),
      let d₁ := r₁.discovered edits₁
      let d₂ := r₂.discovered edits₂
      d₁.dot title₁ = d₂.dot title₂ →
        (givenName? title₁).getD d₁.name = (givenName? title₂).getD d₂.name ∧
        (∀ a, a ∈ d₁.graph.starts ↔ a ∈ d₂.graph.starts) ∧
        (∀ b ∈ d₁.graph.blocks, ∀ c ∈ d₂.graph.blocks, b.start = c.start →
          b.tape.instructions.map (·.text) = c.tape.instructions.map (·.text)) ∧
        ∀ a b, d₁.graph.HasEdge a b ↔ d₂.graph.HasEdge a b := by
  have hshows : ∀ (r : Routine) (edits : List Edit) (title : Option String),
      (Sketch.read ((r.discovered edits).dot title)).Shows (r.discovered edits).graph :=
    fun r edits title =>
      Sketch.shows_read (r.graph_discovered edits).1 (r.graph_discovered edits).2 title
  refine ⟨fun r edits title => ⟨by rw [Sketch.read_dot], hshows r edits title⟩, ?_⟩
  intro r₁ r₂ edits₁ edits₂ title₁ title₂ d₁ d₂ h
  constructor
  · have htitles := congrArg (fun text => (Sketch.read text).titles) h
    rw [Sketch.read_dot, Sketch.read_dot] at htitles
    exact (List.cons.inj htitles).1
  · have hfirst := hshows r₁ edits₁ title₁
    change (Sketch.read (d₁.dot title₁)).Shows d₁.graph at hfirst
    rw [h] at hfirst
    exact hfirst.unique (hshows r₂ edits₂ title₂)

/-- A title that closes its string and draws an edge, if nobody escapes it, on a routine with a loop
whose first instruction breaks the line; with this title in place of its name, another routine is
drawn alike. -/
theorem dot_shows_forged :
    let forged := "a\";\n  \"b0\" -> \"b9\";\\l"
    let r₁ : Routine :=
      .ofCode forged [⟨0, .other "X\\l\n\"Y", .none⟩, ⟨1, .op .jump, .branch 0⟩] []
    let r₂ : Routine := { r₁ with name := "b" }
    (r₁.discovered []).dot none = (r₂.discovered [.block 7]).dot (some forged) ∧
      (Sketch.read ((r₁.discovered []).dot none)).titles = [forged] ∧
      (Sketch.read ((r₁.discovered []).dot none)).Shows (r₁.discovered []).graph ∧
      ∀ a b, (r₁.discovered []).graph.HasEdge a b ↔
        (r₂.discovered [.block 7]).graph.HasEdge a b := by
  intro forged r₁ r₂
  have hname : (r₁.discovered []).name = forged := by
    dsimp only [r₁, forged]
    cbv
  have htext : (r₁.discovered []).dot none = (r₂.discovered [.block 7]).dot (some forged) := by
    dsimp only [r₂, r₁, forged]
    cbv
  obtain ⟨hshown, hsame⟩ := dot_shows
  obtain ⟨htitles, hshows⟩ := hshown r₁ [] none
  refine ⟨htext, ?_, hshows, (hsame r₁ r₂ [] [.block 7] none (some forged) htext).2.2.2⟩
  rw [htitles, hname]
  rfl

end Routine

end ScriptLift
