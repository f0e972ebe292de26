import Mathlib.Data.List.Basic
import ScriptLift.Block

/-!
# The graph as a map from addresses to blocks

A graph is a list of blocks, and everything done to it is told by two read-offs: which block is at
an address (`Graph.block?`) and which addresses have one (`Graph.starts`).  Making a block, changing
one and linking two are stated here through these, so that no later proof looks into the list.

`Block.inner` forgets what the neighbours of a block have written into it.  Linking changes the
inner part of its source only.
-/

namespace ScriptLift

theorem mem_insertNew {a c : Int} {xs : List Int} : c ∈ insertNew a xs ↔ c ∈ xs ∨ c = a := by
  unfold insertNew
  split
  · rename_i h
    exact ⟨Or.inl, fun hc => hc.elim id fun e => e ▸ h⟩
  · simp

/-- A list used as a set stays one. -/
theorem nodup_insertNew {a : Int} {xs : List Int} (h : xs.Nodup) : (insertNew a xs).Nodup := by
  unfold insertNew
  split
  · exact h
  · rename_i ha
    rw [List.nodup_append]
    exact ⟨h, by simp, fun x hx y hy e => ha (by simp_all)⟩

namespace Block

/-- The block without its ways in and without its set of ways out. -/
def inner (b : Block) : Block :=
  { b with ins := [], outs := [], inEdges := 0 }

/-- The block with more successors behind those it has. -/
def withSuccessors (b : Block) (ts : List Int) : Block :=
  { b with successors := b.successors ++ ts }

@[simp]
theorem withSuccessors_nil (b : Block) : b.withSuccessors [] = b := by
  simp [withSuccessors]

/-- Successors are added behind those there are. -/
@[simp]
theorem withSuccessors_append (b : Block) (ts us : List Int) :
    (b.withSuccessors ts).withSuccessors us = b.withSuccessors (ts ++ us) := by
  simp [withSuccessors]

end Block

namespace Graph

/-- The inner part of the block at an address. -/
def inner? (g : Graph) (a : Int) : Option Block :=
  (g.block? a).map Block.inner

variable {g : Graph} {a c : Int} {b : Block}

/-- The block found at an address starts there. -/
theorem start_of_block? (h : g.block? a = some b) : b.start = a := by
  simpa using List.find?_some h

theorem mem_of_block? (h : g.block? a = some b) : b ∈ g.blocks :=
  List.mem_of_find?_eq_some h

/-- There is no block exactly where no block starts. -/
theorem block?_eq_none_iff : g.block? a = none ↔ a ∉ g.starts := by
  simp [block?, starts]

/-- There is a block exactly where one starts. -/
theorem exists_block?_iff : (∃ b, g.block? a = some b) ↔ a ∈ g.starts := by
  rw [← Option.isSome_iff_exists, ← Option.ne_none_iff_isSome, ne_eq, block?_eq_none_iff,
    Classical.not_not]

theorem mem_starts (h : b ∈ g.blocks) : b.start ∈ g.starts :=
  List.mem_map.mpr ⟨b, h, rfl⟩

/-- With one block for each start, a block is found at its start. -/
theorem block?_start (hn : g.starts.Nodup) (h : b ∈ g.blocks) : g.block? b.start = some b := by
  obtain ⟨bs⟩ := g
  simp only [starts, block?] at hn h ⊢
  induction bs with
  | nil => simp at h
  | cons d bs ih =>
      rw [List.map_cons, List.nodup_cons] at hn
      rw [List.find?_cons]
      rcases List.mem_cons.mp h with rfl | h
      · simp
      · have hne : d.start ≠ b.start := fun e => hn.1 (List.mem_map.mpr ⟨b, h, e.symm⟩)
        simpa [hne] using ih hn.2 h

/-- The blocks at the starts are all there are. -/
theorem filterMap_block?_starts (hn : g.starts.Nodup) : g.starts.filterMap g.block? = g.blocks := by
  rw [starts, List.filterMap_map]
  exact (List.filterMap_congr fun b hb => block?_start hn hb).trans List.filterMap_some

/-- The blocks at starts start there. -/
theorem map_start_filterMap_block? {order : List Int} (h : ∀ a ∈ order, a ∈ g.starts) :
    (order.filterMap g.block?).map (·.start) = order := by
  induction order with
  | nil => rfl
  | cons a order ih =>
      obtain ⟨ha, horder⟩ := List.forall_mem_cons.mp h
      obtain ⟨b, hb⟩ := exists_block?_iff.mpr ha
      rw [List.filterMap_cons_some hb, List.map_cons, start_of_block? hb, ih horder]

/-! ### Making a block -/

/-- A block is made only where none starts, behind the others. -/
theorem starts_ensure : (g.ensure a).starts = insertNew a g.starts := by
  unfold ensure insertNew
  split <;> simp [starts]

/-- The block of `a` is the one there was or a new one, and the others stay. -/
theorem block?_ensure :
    (g.ensure a).block? c
      = if c = a then some ((g.block? a).getD { start := a }) else g.block? c := by
  unfold ensure
  split
  · rename_i h
    obtain ⟨b, hb⟩ := exists_block?_iff.mpr h
    by_cases hc : c = a
    · simp [hc, hb]
    · simp [hc]
  · rename_i h
    have ha := block?_eq_none_iff.mpr h
    by_cases hc : c = a
    · subst hc
      simp only [block?] at ha
      simp [block?, ha]
    · simp [block?, hc, Ne.symm hc]

/-- As `block?_ensure`, of the blocks without their edges. -/
theorem inner?_ensure :
    (g.ensure a).inner? c
      = if c = a then some ((g.inner? a).getD { start := a }) else g.inner? c := by
  rw [inner?, block?_ensure]
  by_cases hc : c = a
  · subst hc
    simp only [if_true, inner?]
    cases g.block? c <;> rfl
  · simp only [hc, if_false, inner?]

/-! ### Changing a block -/

/-- A change of a block that keeps its start keeps all starts, with their order. -/
theorem starts_update (f : Block → Block) (hf : ∀ b, b.start = a → (f b).start = a) :
    (g.update a f).starts = g.starts := by
  simp only [starts, update, List.map_map]
  refine List.map_congr_left fun b _ => ?_
  simp only [Function.comp_apply]
  split
  · rename_i hb
    rw [hf b hb, hb]
  · rfl

/-- A change of the block of `a` is seen at `a`, and nowhere else. -/
theorem block?_update (f : Block → Block) (hf : ∀ b, b.start = a → (f b).start = a) :
    (g.update a f).block? c = if c = a then (g.block? a).map f else g.block? c := by
  obtain ⟨bs⟩ := g
  simp only [update, block?]
  induction bs with
  | nil => simp
  | cons d bs ih =>
      rw [List.map_cons, List.find?_cons, List.find?_cons, List.find?_cons, ih]
      by_cases hd : d.start = a
      · by_cases hc : c = a
        · simp [hd, hc, hf d hd]
        · simp [hd, hc, hf d hd, Ne.symm hc]
      · by_cases hc : c = a
        · simp [hd, hc]
        · simp [hd, hc]

/-- As `block?_update`, for a change that does not look at the edges. -/
theorem inner?_update (f : Block → Block) (hs : ∀ b, b.start = a → (f b).start = a)
    (hf : ∀ b, (f b).inner = f b.inner) :
    (g.update a f).inner? c = if c = a then (g.inner? a).map f else g.inner? c := by
  rw [inner?, block?_update f hs]
  by_cases hc : c = a
  · simp only [hc, if_true, inner?, Option.map_map]
    congr 1
    funext b
    exact hf b
  · simp only [hc, if_false, inner?]

/-! ### Linking -/

/-- An edge makes no block. -/
theorem starts_link (s t : Int) : (g.link s t).starts = g.starts := by
  rw [link, starts_update (·.addIn s) fun _ h => h,
    starts_update (·.addOut t) fun _ h => h]

/-- Linking changes the block at its source, then the block at its target. -/
theorem block?_link {s t : Int} :
    (g.link s t).block? c
      = ((g.block? c).map fun b => if c = s then b.addOut t else b).map
          fun b => if c = t then b.addIn s else b := by
  have out : (g.update s (·.addOut t)).block? c
      = (g.block? c).map fun b => if c = s then b.addOut t else b := by
    rw [block?_update (·.addOut t) fun _ h => h]
    by_cases hs : c = s <;> simp [hs]
  rw [link, block?_update (·.addIn s) fun _ h => h]
  by_cases ht : c = t
  · subst ht
    simp [out]
  · simp [ht, out, Function.comp_def]

/-- **What linking does inside the blocks**: the source has one more successor. -/
theorem inner?_link {s t : Int} :
    (g.link s t).inner? c
      = if c = s then (g.inner? c).map (·.withSuccessors [t]) else g.inner? c := by
  simp only [inner?, block?_link]
  cases g.block? c with
  | none => by_cases hs : c = s <;> simp [hs]
  | some b =>
      simp only [Option.map_some]
      by_cases hs : c = s
      · simp only [if_pos hs]
        split <;> rfl
      · simp only [if_neg hs]
        split <;> rfl

end Graph

end ScriptLift
