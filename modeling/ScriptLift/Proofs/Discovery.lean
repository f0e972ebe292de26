import Mathlib.Logic.ExistsUnique
import ScriptLift.Proofs.ControlFlow
import ScriptLift.Proofs.Graph

/-!
# Discovery finds exactly the blocks there are

The walk of discovery keeps an invariant (`Survey.Inv`): the blocks visited are filled with the run
of the code at their start and with their successors, the others are blank, and every address
visited or waiting is a leader that the entry leads to.  When nothing waits any more the graph is
exact (`Graph.IsExact`): its blocks are disjoint runs of the code, they hold what the entry leads to
and nothing else, and their successors are where their last instructions go.
-/

namespace ScriptLift

/-! ### Worklists -/

namespace Worklist

variable {visited queue found : List Int} {a c : Int}

/-- An address visited before can be passed over. -/
theorem mem_of_skip (ha : a ∈ visited) (h : c ∈ visited ∨ c ∈ a :: queue) :
    c ∈ visited ∨ c ∈ queue := by
  rcases h with hc | hc
  · exact Or.inl hc
  · rcases List.mem_cons.mp hc with rfl | hc
    · exact Or.inl ha
    · exact Or.inr hc

/-- What was visited or waiting is so still, when the first of those waiting has been visited. -/
theorem mem_of_visit (h : c ∈ visited ∨ c ∈ a :: queue) :
    c ∈ visited ++ [a] ∨ c ∈ queue ++ found.filter fun t => t ∉ visited ++ [a] := by
  rcases h with hc | hc
  · exact Or.inl (by simp [hc])
  · rcases List.mem_cons.mp hc with rfl | hc
    · exact Or.inl (by simp)
    · exact Or.inr (by simp [hc])

/-- What was found has been visited or is waiting. -/
theorem mem_of_found (h : c ∈ found) :
    c ∈ visited ++ [a] ∨ c ∈ queue ++ found.filter fun t => t ∉ visited ++ [a] := by
  by_cases hv : c ∈ visited ++ [a]
  · exact Or.inl hv
  · exact Or.inr (List.mem_append_right _ (List.mem_filter.mpr ⟨h, by simpa using hv⟩))

end Worklist

namespace Survey

variable {s : Survey} {g : Graph} {a c entry : Int} {visited queue : List Int}

/-! ### What exploring a block does to the graph -/

/-- The inner part of the block at `a` once it has been explored. -/
def filled (s : Survey) (a : Int) (run : List Instruction) (last : Instruction)
    (next : Option Int) : Block :=
  (Block.fill { start := a } run last next).withSuccessors
    ((exits last next).filter fun t => s.has t)

theorem mem_starts_linkAll {ts : List Int} :
    c ∈ (linkAll a ts g).starts ↔ c ∈ g.starts ∨ c ∈ ts := by
  induction ts generalizing g with
  | nil => simp [linkAll]
  | cons t ts ih =>
      rw [linkAll, List.foldl_cons, ← linkAll, ih, Graph.starts_link, Graph.starts_ensure,
        mem_insertNew, List.mem_cons, or_assoc]

theorem nodup_linkAll {ts : List Int} (h : g.starts.Nodup) : (linkAll a ts g).starts.Nodup := by
  induction ts generalizing g with
  | nil => exact h
  | cons t ts ih =>
      rw [linkAll, List.foldl_cons, ← linkAll]
      refine ih ?_
      rw [Graph.starts_link, Graph.starts_ensure]
      exact nodup_insertNew h

/-- Linking to several targets adds them to the successors of the source and makes the blocks that
are missing. -/
theorem inner?_linkAll {ts : List Int} (ha : a ∈ g.starts) :
    (linkAll a ts g).inner? c
      = if c = a then (g.inner? a).map (·.withSuccessors ts)
        else if c ∈ ts then some ((g.inner? c).getD { start := c }) else g.inner? c := by
  induction ts generalizing g with
  | nil => by_cases hc : c = a <;> simp [linkAll, hc]
  | cons t ts ih =>
      have ha' : a ∈ ((g.ensure t).link a t).starts := by
        rw [Graph.starts_link, Graph.starts_ensure, mem_insertNew]
        exact Or.inl ha
      obtain ⟨b, hb⟩ := Graph.exists_block?_iff.mpr ha
      rw [linkAll, List.foldl_cons, ← linkAll, ih ha', Graph.inner?_link, Graph.inner?_link,
        Graph.inner?_ensure, Graph.inner?_ensure]
      by_cases hc : c = a
      · subst hc
        by_cases ht : c = t
        · subst ht
          simp [Graph.inner?, hb]
        · simp [ht, Graph.inner?, hb]
      · by_cases ht : c = t
        · subst ht
          simp [hc]
        · simp [hc, ht]

section Explore

variable {run : List Instruction} {last : Instruction} {next : Option Int}

theorem explore_eq (h : s.blockAt? a = some (run, last, next)) :
    s.explore a g
      = (linkAll a ((exits last next).filter fun t => s.has t)
          ((g.ensure a).update a fun b => b.fill run last next),
        (exits last next).filter fun t => s.has t,
        ((exits last next).filter fun t => !s.has t).map fun t => .leavesRoutine s.name a t) := by
  simp [explore, h]

theorem starts_fill :
    ((g.ensure a).update a fun b => b.fill run last next).starts = insertNew a g.starts := by
  rw [Graph.starts_update (·.fill run last next) fun _ h => h, Graph.starts_ensure]

theorem mem_starts_explore (h : s.blockAt? a = some (run, last, next)) :
    c ∈ (s.explore a g).1.starts
      ↔ c ∈ g.starts ∨ c = a ∨ c ∈ (exits last next).filter fun t => s.has t := by
  rw [explore_eq h, mem_starts_linkAll, starts_fill, mem_insertNew, or_assoc]

theorem nodup_explore (h : s.blockAt? a = some (run, last, next)) (hg : g.starts.Nodup) :
    (s.explore a g).1.starts.Nodup := by
  rw [explore_eq h]
  refine nodup_linkAll ?_
  rw [starts_fill]
  exact nodup_insertNew hg

/-- **What exploring does inside the blocks**: a blank block is filled, its successors are there
afterwards, and no other block is touched. -/
theorem inner?_explore (h : s.blockAt? a = some (run, last, next))
    (hblank : a ∈ g.starts → g.inner? a = some { start := a }) :
    (s.explore a g).1.inner? c
      = if c = a then some (s.filled a run last next)
        else if c ∈ (exits last next).filter fun t => s.has t then
          some ((g.inner? c).getD { start := c })
        else g.inner? c := by
  have ha : a ∈ ((g.ensure a).update a fun b => b.fill run last next).starts := by
    rw [starts_fill, mem_insertNew]
    exact Or.inr rfl
  have hga : (g.inner? a).getD { start := a } = { start := a } := by
    by_cases hg : a ∈ g.starts
    · simp [hblank hg]
    · simp [Graph.inner?, Graph.block?_eq_none_iff.mpr hg]
  have hfill : ∀ c, ((g.ensure a).update a fun b => b.fill run last next).inner? c
      = if c = a then some (Block.fill { start := a } run last next) else g.inner? c := by
    intro c
    rw [Graph.inner?_update (·.fill run last next) (fun _ h => h) (fun _ => rfl),
      Graph.inner?_ensure, Graph.inner?_ensure]
    by_cases hc : c = a <;> simp [hc, hga]
  rw [explore_eq h, inner?_linkAll ha, hfill, hfill]
  by_cases hc : c = a <;> simp [hc, filled]

end Explore

/-! ### The invariant of the walk -/

/-- What holds of the graph when the addresses in `visited` have been explored and those in `queue`
are waiting. -/
structure Inv (s : Survey) (entry : Int) (g : Graph) (visited queue : List Int) : Prop where
  nodup : g.starts.Nodup
  starts : ∀ a ∈ g.starts, a ∈ visited ∨ a ∈ queue
  origin : entry ∈ visited ∨ entry ∈ queue
  code : ∀ a, a ∈ visited ∨ a ∈ queue → a ∈ s.addresses
  leader : ∀ a, a ∈ visited ∨ a ∈ queue → a ∈ s.leaders
  reach : ∀ a, a ∈ visited ∨ a ∈ queue → ∀ i ∈ s.code, i.address = a → Reachable s.code entry i
  done : ∀ a ∈ visited, ∃ run last next, s.Cut a run last next ∧
    g.inner? a = some (s.filled a run last next) ∧
    ∀ t ∈ (exits last next).filter fun t => s.has t, t ∈ visited ∨ t ∈ queue
  blank : ∀ a ∈ g.starts, a ∉ visited → g.inner? a = some { start := a }

theorem inv_start (he : entry ∈ s.addresses) (hl : s.leaders = ScriptLift.leaders entry s.code) :
    s.Inv entry {} [] [entry] where
  nodup := by simp [Graph.starts]
  starts := by simp [Graph.starts]
  origin := by simp
  code := by simpa using he
  leader := by simp [hl, ScriptLift.leaders]
  reach a ha i hi hia := .entry hi (by simpa [hia] using ha)
  done := by simp
  blank := by simp [Graph.starts]

/-- An address visited before is passed over. -/
theorem Inv.skip (h : s.Inv entry g visited (a :: queue)) (ha : a ∈ visited) :
    s.Inv entry g visited queue := by
  have drop : ∀ c, c ∈ visited ∨ c ∈ a :: queue ↔ c ∈ visited ∨ c ∈ queue :=
    fun c => ⟨Worklist.mem_of_skip ha, Or.imp_right (List.mem_cons_of_mem a)⟩
  exact {
    nodup := h.nodup
    starts := fun c hc => (drop c).mp (h.starts c hc)
    origin := (drop entry).mp h.origin
    code := fun c hc => h.code c ((drop c).mpr hc)
    leader := fun c hc => h.leader c ((drop c).mpr hc)
    reach := fun c hc => h.reach c ((drop c).mpr hc)
    done := fun c hc => by
      obtain ⟨run, last, next, hcut, hb, hn⟩ := h.done c hc
      exact ⟨run, last, next, hcut, hb, fun t ht => (drop t).mp (hn t ht)⟩
    blank := h.blank }

/-- **Exploring an address keeps the invariant.** -/
theorem Inv.visit (h : s.Inv entry g visited (a :: queue)) (ha : a ∉ visited)
    (hd : s.addresses.Nodup) (hl : s.leaders = ScriptLift.leaders entry s.code) :
    s.Inv entry (s.explore a g).1 (visited ++ [a])
      (queue ++ (s.explore a g).2.1.filter fun t => t ∉ visited ++ [a]) := by
  have hqa : a ∈ visited ∨ a ∈ a :: queue := Or.inr (List.mem_cons_self ..)
  obtain ⟨run, last, next, hcut⟩ := exists_cut (h.code a hqa)
  have hat := hcut.found
  have hreach : ∀ i ∈ run, Reachable s.code entry i :=
    fun i hi => hcut.reachable hd (h.reach a hqa) hi
  have hexp : (s.explore a g).2.1 = (exits last next).filter fun t => s.has t := by
    rw [explore_eq hat]
  have hinner := fun c => inner?_explore (c := c) hat fun hg => h.blank a hg ha
  have hmem := fun c => mem_starts_explore (g := g) (c := c) hat
  have hfound : ∀ t ∈ (exits last next).filter fun t => s.has t,
      t ∈ s.addresses ∧ t ∈ s.leaders ∧
        ∀ i ∈ s.code, i.address = t → Reachable s.code entry i := by
    intro t ht
    refine ⟨has_iff.mp (List.mem_filter.mp ht).2,
      hcut.exits_leaders hl (List.mem_filter.mp ht).1, fun i hi hit => ?_⟩
    rw [hcut.found_eq hd, ← hit] at ht
    exact .step (hreach last hcut.last_mem_run) hi ht
  rw [hexp]
  generalize hf : (exits last next).filter (fun t => s.has t) = found at *
  -- an address waits or is done now if it did before or was found
  have now : ∀ c, c ∈ visited ++ [a] ∨ c ∈ queue ++ found.filter (fun t => t ∉ visited ++ [a]) ↔
      (c ∈ visited ∨ c ∈ a :: queue) ∨ c ∈ found := by
    intro c
    by_cases hv : c ∈ visited ++ [a]
    · have : c ∈ visited ∨ c = a := by simpa using hv
      simp only [hv, true_or, true_iff, List.mem_cons]
      exact Or.inl (this.elim Or.inl fun e => Or.inr (Or.inl e))
    · have : c ∉ visited ∧ c ≠ a := by simpa using hv
      simp [this.1, this.2]
  have both : ∀ {P : Int → Prop}, (∀ c, c ∈ visited ∨ c ∈ a :: queue → P c) →
      (∀ c ∈ found, P c) →
      ∀ c, c ∈ visited ++ [a] ∨ c ∈ queue ++ found.filter (fun t => t ∉ visited ++ [a]) → P c :=
    fun h₁ h₂ c hc => ((now c).mp hc).elim (h₁ c) (h₂ c)
  refine ⟨nodup_explore hat h.nodup, fun c hc => ?_, (now entry).mpr (Or.inl h.origin),
    both h.code fun t ht => (hfound t ht).1, both h.leader fun t ht => (hfound t ht).2.1,
    both h.reach fun t ht => (hfound t ht).2.2, fun c hc => ?_, fun c hc hv => ?_⟩
  · rcases (hmem c).mp hc with hc | rfl | hc
    · exact (now c).mpr (Or.inl (h.starts c hc))
    · exact Or.inl (by simp)
    · exact (now c).mpr (Or.inr hc)
  · by_cases hca : c = a
    · subst hca
      refine ⟨run, last, next, hcut, by rw [hinner, if_pos rfl], fun t ht => ?_⟩
      exact (now t).mpr (Or.inr (hf ▸ ht))
    · have hcv : c ∈ visited := by simpa [hca] using hc
      obtain ⟨run', last', next', hcut', hb, hn⟩ := h.done c hcv
      refine ⟨run', last', next', hcut', ?_, fun t ht => (now t).mpr (Or.inl (hn t ht))⟩
      rw [hinner, if_neg hca, hb]
      split <;> rfl
  · have hne : c ∉ visited ∧ c ≠ a := by simpa using hv
    rw [hinner, if_neg hne.2]
    by_cases hg : c ∈ g.starts
    · rw [h.blank c hg hne.1]
      split <;> rfl
    · have hcf : c ∈ found := by simpa [hg, hne.2] using (hmem c).mp hc
      rw [if_pos hcf, Graph.inner?, Graph.block?_eq_none_iff.mpr hg]
      rfl

/-- **The walk ends with the invariant and nothing waiting.** -/
theorem inv_walk (hd : s.addresses.Nodup) (hl : s.leaders = ScriptLift.leaders entry s.code)
    (events : List Event) (h : s.Inv entry g visited queue) :
    s.Inv entry (s.walk g visited events queue).1 (s.walk g visited events queue).2.1 [] := by
  fun_induction walk s g visited events queue with
  | case1 => exact h
  | case2 g visited events a queue ha ih => exact ih (h.skip ha)
  | case3 g visited events a queue ha hhas g' found reports hexp ih =>
      refine ih ?_
      have := h.visit ha hd hl
      rwa [hexp] at this
  | case4 g visited events a queue ha hhas ih =>
      exact absurd (has_iff.mpr (h.code a (Or.inr (List.mem_cons_self ..)))) hhas

end Survey

namespace Block

variable {b : Block} {s : Survey} {a : Int} {run : List Instruction} {last : Instruction}
  {next : Option Int}

theorem instructions_of_filled (h : b.inner = s.filled a run last next) :
    b.tape.instructions = run := by
  have := congrArg (fun b => b.tape.instructions) h
  simpa [inner, Survey.filled, fill, withSuccessors] using this

theorem successors_of_filled (h : b.inner = s.filled a run last next) :
    b.successors = (exits last next).filter fun t => s.has t := by
  simpa [inner, Survey.filled, fill, withSuccessors] using congrArg successors h

end Block

/-- The addresses that the edges between blocks lead to from the entry. -/
inductive Graph.Reached (g : Graph) (entry : Int) : Int → Prop where
  | entry : Reached g entry entry
  | step {b : Block} {t : Int} : b ∈ g.blocks → Reached g entry b.start → t ∈ b.successors →
      Reached g entry t

/-- The blocks of a graph are exactly those of the code that the entry leads to. -/
structure Graph.IsExact (g : Graph) (code : List Instruction) (entry : Int) : Prop where
  /-- There is one block for each start. -/
  nodup : g.starts.Nodup
  /-- The instructions in the blocks are the reachable ones. -/
  covers : ∀ i, (∃ b ∈ g.blocks, i ∈ b.tape.instructions) ↔ Reachable code entry i
  /-- No reachable instruction is in two blocks. -/
  once : ∀ i, Reachable code entry i → ∃! b, b ∈ g.blocks ∧ i ∈ b.tape.instructions
  /-- A block is a run of the code. -/
  run : ∀ b ∈ g.blocks, ∃ before behind, code = before ++ b.tape.instructions ++ behind
  /-- A block starts with the instruction at its start. -/
  first : ∀ b ∈ g.blocks, ∃ i rest, b.tape.instructions = i :: rest ∧ i.address = b.start
  /-- Only the last instruction of a block may transfer control. -/
  transfer : ∀ b ∈ g.blocks, ∀ i ∈ b.tape.instructions.dropLast, i.isTransfer = false
  /-- Only the first instruction of a block may be a target. -/
  target : ∀ b ∈ g.blocks, ∀ i ∈ b.tape.instructions.tail, ∀ j ∈ code,
    j.branchTarget? ≠ some i.address
  /-- The successors of a block are where its last instruction goes, in order. -/
  successors : ∀ b ∈ g.blocks, ∀ last, b.tape.instructions.getLast? = some last →
    b.successors = last.goesTo code

namespace Survey

variable {s : Survey} {g : Graph} {entry : Int} {visited : List Int}

/-- When nothing waits, every block is filled. -/
theorem Inv.filled_of_mem (h : s.Inv entry g visited []) {b : Block} (hb : b ∈ g.blocks) :
    ∃ run last next, s.Cut b.start run last next ∧ b.inner = s.filled b.start run last next ∧
      ∀ t ∈ b.successors, t ∈ visited := by
  have hv : b.start ∈ visited := by simpa using h.starts _ (Graph.mem_starts hb)
  obtain ⟨run, last, next, hcut, hin, hn⟩ := h.done _ hv
  rw [Graph.inner?, Graph.block?_start h.nodup hb, Option.map_some, Option.some.injEq] at hin
  refine ⟨run, last, next, hcut, hin, fun t ht => ?_⟩
  rw [Block.successors_of_filled hin] at ht
  simpa using hn t ht

/-- When nothing waits, every address visited has a block. -/
theorem Inv.mem_starts (h : s.Inv entry g visited []) {a : Int} (ha : a ∈ visited) :
    a ∈ g.starts := by
  obtain ⟨run, last, next, -, hin, -⟩ := h.done a ha
  obtain ⟨b, hb, -⟩ := Option.map_eq_some_iff.mp hin
  exact Graph.exists_block?_iff.mp ⟨b, hb⟩

/-- Addresses that the entry is one of, and that go on wherever their blocks do, hold everything the
entry leads to in their blocks. -/
theorem Inv.covers_of_closed (h : s.Inv entry g visited []) (hd : s.addresses.Nodup)
    {P : Int → Prop} (he : P entry) (hP : ∀ b ∈ g.blocks, P b.start → ∀ t ∈ b.successors, P t)
    {i : Instruction} (hi : Reachable s.code entry i) :
    ∃ b ∈ g.blocks, P b.start ∧ i ∈ b.tape.instructions := by
  -- the instruction at the start of a block is in that block
  have start : ∀ j ∈ s.code, j.address ∈ visited → P j.address →
      ∃ b ∈ g.blocks, P b.start ∧ j ∈ b.tape.instructions := by
    intro j hj hv hp
    obtain ⟨b, hb⟩ := Graph.exists_block?_iff.mpr (h.mem_starts hv)
    obtain ⟨run, last, next, hcut, hin, -⟩ := h.filled_of_mem (Graph.mem_of_block? hb)
    obtain ⟨k, rest, hrun, hk⟩ := hcut.first
    have hjk : j = k := eq_of_address hd hj (hcut.sublist_mem (by simp [hrun]))
      (by rw [hk, Graph.start_of_block? hb])
    refine ⟨b, Graph.mem_of_block? hb, by rwa [Graph.start_of_block? hb], ?_⟩
    simp [Block.instructions_of_filled hin, hrun, hjk]
  induction hi with
  | entry hi hie => exact start _ hi (by simpa [hie] using h.origin) (hie ▸ he)
  | step _ hj hij ih =>
      obtain ⟨b, hb, hp, hib⟩ := ih
      obtain ⟨run, last, next, hcut, hin, hn⟩ := h.filled_of_mem hb
      rw [Block.instructions_of_filled hin] at hib
      rcases hcut.flow hd hib hj hij with hjr | hjl
      · exact ⟨b, hb, hp, by rwa [Block.instructions_of_filled hin]⟩
      · rw [← hcut.found_eq hd, ← Block.successors_of_filled hin] at hjl
        exact start _ hj (hn _ hjl) (hP b hb hp _ hjl)

/-- Everything the entry leads to is in a block. -/
theorem Inv.covers_reachable (h : s.Inv entry g visited []) (hd : s.addresses.Nodup)
    {i : Instruction} (hi : Reachable s.code entry i) :
    ∃ b ∈ g.blocks, i ∈ b.tape.instructions := by
  obtain ⟨b, hb, -, hib⟩ := h.covers_of_closed (P := fun _ => True) hd trivial (by simp) hi
  exact ⟨b, hb, hib⟩

/-- **A walk that is over leaves an exact graph.** -/
theorem Inv.isExact (h : s.Inv entry g visited []) (hd : s.addresses.Nodup)
    (hl : s.leaders = ScriptLift.leaders entry s.code) : g.IsExact s.code entry := by
  have reach : ∀ b ∈ g.blocks, ∀ i ∈ b.tape.instructions, Reachable s.code entry i := by
    intro b hb i hi
    obtain ⟨run, last, next, hcut, hin, -⟩ := h.filled_of_mem hb
    rw [Block.instructions_of_filled hin] at hi
    exact hcut.reachable hd (h.reach _ (h.starts _ (Graph.mem_starts hb))) hi
  refine ⟨h.nodup, fun i => ⟨fun ⟨b, hb, hi⟩ => reach b hb i hi, h.covers_reachable hd⟩,
    fun i hi => ?_, fun b hb => ?_, fun b hb => ?_, fun b hb i hi => ?_,
    fun b hb i hi j hj hji => ?_, fun b hb last hlast => ?_⟩
  · -- two blocks with an instruction in common start at the same leader
    obtain ⟨b, hb, hib⟩ := h.covers_reachable hd hi
    refine ⟨b, ⟨hb, hib⟩, fun c ⟨hc, hic⟩ => ?_⟩
    obtain ⟨run, last, next, hcut, hin, -⟩ := h.filled_of_mem hb
    obtain ⟨run', last', next', hcut', hin', -⟩ := h.filled_of_mem hc
    rw [Block.instructions_of_filled hin] at hib
    rw [Block.instructions_of_filled hin'] at hic
    have hstart := hcut.start_eq hcut' hd (h.leader _ (h.starts _ (Graph.mem_starts hb)))
      (h.leader _ (h.starts _ (Graph.mem_starts hc))) hib hic
    have := Graph.block?_start h.nodup hc
    rw [← hstart, Graph.block?_start h.nodup hb] at this
    exact (Option.some.inj this).symm
  all_goals
    obtain ⟨run, last', next, hcut, hin, -⟩ := h.filled_of_mem hb
    have hrun := Block.instructions_of_filled hin
  · obtain ⟨pre, post, hcode, -⟩ := hcut.split
    exact ⟨pre, post, by rw [hrun, hcode, List.append_assoc]⟩
  · obtain ⟨k, rest, hk⟩ := hcut.first
    exact ⟨k, rest, by rwa [hrun]⟩
  · obtain ⟨rest, rfl, hinner⟩ := hcut.ends
    rw [hrun, List.dropLast_concat] at hi
    exact hinner i hi
  · rw [hrun] at hi
    refine hcut.tail i hi ?_
    rw [hl]
    exact branchTarget_mem_leaders hj hji
  · obtain ⟨rest, rfl, -⟩ := hcut.ends
    rw [hrun, List.getLast?_concat, Option.some.injEq] at hlast
    rw [Block.successors_of_filled hin, hcut.found_eq hd, hlast]

/-- The edges lead from the entry to every block. -/
theorem Inv.reached (h : s.Inv entry g visited []) (hd : s.addresses.Nodup)
    (hl : s.leaders = ScriptLift.leaders entry s.code) {b : Block} (hb : b ∈ g.blocks) :
    g.Reached entry b.start := by
  have hex := h.isExact hd hl
  obtain ⟨i, rest, hi, -⟩ := hex.first b hb
  have hib : i ∈ b.tape.instructions := by simp [hi]
  have hreach := (hex.covers i).mp ⟨b, hb, hib⟩
  obtain ⟨b', hb', hp, hib'⟩ :=
    h.covers_of_closed (P := g.Reached entry) hd .entry (fun b hb hp t ht => .step hb hp ht) hreach
  rwa [(hex.once i hreach).unique ⟨hb, hib⟩ ⟨hb', hib'⟩]

end Survey

namespace Routine

/-- Discovery in code that holds the entry succeeds and leaves the invariant. -/
theorem exists_inv_discover (r : Routine) (hd : (r.code.map (·.address)).Nodup)
    (he : r.address ∈ r.code.map (·.address)) :
    ∃ order graph events,
      r.discover = ⟨.ok order, { r with graph, visited := [] }, events⟩ ∧
        r.survey.Inv r.address graph order [] := by
  have hcode : r.code.isEmpty = false := by
    cases h : r.code with
    | nil => simp [h] at he
    | cons => rfl
  have hhas : r.hasAddress r.address = true := by simpa [hasAddress] using he
  refine ⟨_, _, _, by simp only [discover, hcode, hhas, if_true]; rfl, ?_⟩
  exact Survey.inv_walk (s := r.survey) hd rfl [] (Survey.inv_start he rfl)

/-- **Discovery is exact.**  In code with distinct addresses that holds the entry, whatever blocks
the routine had before, discovery succeeds and leaves exactly the blocks that the entry leads to. -/
theorem discover_isExact (r : Routine) (hd : (r.code.map (·.address)).Nodup)
    (he : r.address ∈ r.code.map (·.address)) :
    ∃ order, r.discover.value = .ok order ∧ r.discover.state.graph.IsExact r.code r.address := by
  obtain ⟨order, graph, events, hdisc, hinv⟩ := r.exists_inv_discover hd he
  exact ⟨order, by rw [hdisc], by rw [hdisc]; exact hinv.isExact hd rfl⟩

/-- Code with a jump back, an instruction that nothing leads to, and a block left over. -/
theorem discover_isExact_backEdge :
    let r : Routine := {
      name := "f"
      address := 0
      code := [⟨0, .op .nop, .none⟩, ⟨1, .op .jumpIfZero, .branch 4⟩, ⟨2, .op .jump, .branch 1⟩,
        ⟨3, .op .nop, .none⟩, ⟨4, .op .leave, .ret 0 0⟩]
      graph := ⟨[{ start := 7 }]⟩ }
    ∃ order, r.discover.value = .ok order ∧ r.discover.state.graph.IsExact r.code r.address :=
  discover_isExact _ (by decide) (by decide)

end Routine

end ScriptLift
