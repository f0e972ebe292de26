import ScriptLift.Proofs.Discovery

/-!
# The order of discovery

Discovery and interpretation both visit addresses first come first served: an address waiting is
passed over if it was visited before, and otherwise what it leads to waits behind the others.
`Visits next visited queue out` says so of any function `next` that tells where an address leads;
such a walk has one outcome only (`Visits.unique`).

The walk of discovery is one along the edges that it leaves in the graph
(`Routine.discover_visits`), whether or not the addresses in the code are distinct.  The blocks are
made in the order they are visited, though most are made before, and every edge is known on both of
its sides (`Routine.starts_discover`).
-/

namespace ScriptLift

/-- With the addresses in `visited` visited and those in `queue` waiting, a walk along `next` ends
with the addresses in `out` visited, in this order. -/
inductive Visits (next : Int → List Int) : List Int → List Int → List Int → Prop where
  | done {visited : List Int} : Visits next visited [] visited
  | skip {visited queue out : List Int} {a : Int} : a ∈ visited → Visits next visited queue out →
      Visits next visited (a :: queue) out
  | visit {visited queue out : List Int} {a : Int} : a ∉ visited →
      Visits next (visited ++ [a]) (queue ++ (next a).filter fun t => t ∉ visited ++ [a]) out →
      Visits next visited (a :: queue) out

namespace Visits

variable {next next' : Int → List Int} {visited queue out out' : List Int}

/-- **A walk has one outcome.** -/
theorem unique (h : Visits next visited queue out) (h' : Visits next visited queue out') :
    out = out' := by
  induction h with
  | done =>
      cases h'
      rfl
  | skip ha _ ih =>
      cases h' with
      | skip _ h' => exact ih h'
      | visit hn _ => exact absurd ha hn
  | visit hn _ ih =>
      cases h' with
      | skip ha _ => exact absurd ha hn
      | visit _ h' => exact ih h'

theorem subset (h : Visits next visited queue out) : visited ⊆ out := by
  induction h with
  | done => exact List.Subset.refl _
  | skip _ _ ih => exact ih
  | visit _ _ ih => exact fun a ha => ih (List.mem_append_left _ ha)

/-- What waits is visited. -/
theorem queue_subset (h : Visits next visited queue out) : queue ⊆ out := by
  induction h with
  | done => exact List.nil_subset _
  | skip ha hrest ih => exact List.cons_subset.mpr ⟨hrest.subset ha, ih⟩
  | visit _ hrest ih =>
      exact List.cons_subset.mpr ⟨hrest.subset (by simp),
        fun a ha => ih (List.mem_append_left _ ha)⟩

/-- No address is visited twice. -/
theorem nodup (h : Visits next visited queue out) (hv : visited.Nodup) : out.Nodup := by
  induction h with
  | done => exact hv
  | skip _ _ ih => exact ih hv
  | @visit visited _ _ a ha _ ih =>
      have hmore := nodup_insertNew (a := a) hv
      rw [insertNew, if_neg ha] at hmore
      exact ih hmore

/-- Only where the addresses visited lead to matters. -/
theorem congr (h : Visits next visited queue out) (hn : ∀ a ∈ out, next' a = next a) :
    Visits next' visited queue out := by
  induction h with
  | done => exact .done
  | skip ha _ ih => exact .skip ha (ih hn)
  | visit ha hrest ih =>
      refine .visit ha ?_
      rw [hn _ (hrest.subset (by simp))]
      exact ih hn

end Visits

namespace Graph

/-- Where the block at an address leads to. -/
def successors (g : Graph) (a : Int) : List Int :=
  ((g.block? a).map (·.successors)).getD []

/-- The starts of the blocks with an edge to the block at an address. -/
def ins (g : Graph) (a : Int) : List Int :=
  ((g.block? a).map (·.ins)).getD []

variable {g : Graph} {a c s t : Int} {b : Block}

theorem successors_of_block? (h : g.block? a = some b) : g.successors a = b.successors := by
  rw [successors, h]
  rfl

theorem ins_of_block? (h : g.block? a = some b) : g.ins a = b.ins := by
  rw [ins, h]
  rfl

/-- Every edge is known on both of its sides. -/
def Mirrored (g : Graph) : Prop :=
  ∀ a t, a ∈ g.ins t ↔ t ∈ g.successors a

/-- Blocks without edges more or less do not matter. -/
theorem Mirrored.congr {g' : Graph} (h : g.Mirrored) (hi : ∀ c, g'.ins c = g.ins c)
    (hs : ∀ c, g'.successors c = g.successors c) : g'.Mirrored := by
  intro a t
  rw [hi, hs]
  exact h a t

/-- A new block has no edges on either side. -/
theorem Mirrored.ensure (h : g.Mirrored) : (g.ensure a).Mirrored := by
  refine h.congr (fun c => ?_) (fun c => ?_)
  · rw [ins, ins, block?_ensure]
    split
    · rename_i hc
      rw [hc]
      cases g.block? a <;> rfl
    · rfl
  · rw [successors, successors, block?_ensure]
    split
    · rename_i hc
      rw [hc]
      cases g.block? a <;> rfl
    · rfl

/-- What leaves both sides alone may change. -/
theorem Mirrored.update (h : g.Mirrored) {f : Block → Block}
    (hf : ∀ b, (f b).start = b.start ∧ (f b).ins = b.ins ∧ (f b).successors = b.successors) :
    (g.update a f).Mirrored := by
  have hstart : ∀ b, b.start = a → (f b).start = a := fun b hb => (hf b).1.trans hb
  refine h.congr (fun c => ?_) (fun c => ?_)
  · rw [ins, ins, block?_update f hstart]
    split
    · rename_i hc
      rw [hc]
      cases g.block? a with
      | none => rfl
      | some b => exact (hf b).2.1
    · rfl
  · rw [successors, successors, block?_update f hstart]
    split
    · rename_i hc
      rw [hc]
      cases g.block? a with
      | none => rfl
      | some b => exact (hf b).2.2
    · rfl

/-- The source gets one successor more. -/
theorem successors_link (hs : s ∈ g.starts) :
    (g.link s t).successors c = if c = s then g.successors c ++ [t] else g.successors c := by
  rw [successors, successors, block?_link]
  by_cases hc : c = s
  · subst hc
    obtain ⟨b, hb⟩ := exists_block?_iff.mpr hs
    rw [hb, if_pos rfl]
    simp only [Option.map_some, if_true, Option.getD_some]
    split <;> rfl
  · rw [if_neg hc]
    cases g.block? c with
    | none => rfl
    | some b =>
        simp only [Option.map_some, if_neg hc, Option.getD_some]
        split <;> rfl

/-- The target gets the source as a way in, once. -/
theorem ins_link (ht : t ∈ g.starts) :
    (g.link s t).ins c = if c = t then insertNew s (g.ins c) else g.ins c := by
  rw [ins, ins, block?_link]
  by_cases hc : c = t
  · subst hc
    obtain ⟨b, hb⟩ := exists_block?_iff.mpr ht
    rw [hb, if_pos rfl]
    simp only [Option.map_some, if_true, Option.getD_some]
    split <;> rfl
  · rw [if_neg hc]
    cases g.block? c with
    | none => rfl
    | some b =>
        simp only [Option.map_some, if_neg hc, Option.getD_some]
        split <;> rfl

/-- A link is made on both sides. -/
theorem Mirrored.link (h : g.Mirrored) (hs : s ∈ g.starts) (ht : t ∈ g.starts) :
    (g.link s t).Mirrored := by
  intro a c
  rw [successors_link hs, ins_link ht]
  have hold := h a c
  by_cases hc : c = t <;> by_cases ha : a = s <;> simp_all [mem_insertNew]

end Graph

/-- The addresses with more behind them, each of them once. -/
def insertAll (xs ts : List Int) : List Int :=
  ts.foldl (fun xs t => insertNew t xs) xs

section InsertAll

variable {xs ys ts us : List Int}

theorem insertAll_append : insertAll xs (ts ++ us) = insertAll (insertAll xs ts) us :=
  List.foldl_append

/-- A list used as a set, with several elements put in. -/
theorem mem_insertAll {c : Int} : c ∈ insertAll xs ts ↔ c ∈ xs ∨ c ∈ ts := by
  induction ts generalizing xs with
  | nil => simp [insertAll]
  | cons t ts ih =>
      change c ∈ insertAll (insertNew t xs) ts ↔ _
      rw [ih, mem_insertNew, List.mem_cons, or_assoc]

/-- What is there is not put in again. -/
theorem insertAll_of_subset (h : ts ⊆ xs) : insertAll xs ts = xs := by
  induction ts with
  | nil => rfl
  | cons t ts ih =>
      obtain ⟨ht, hts⟩ := List.cons_subset.mp h
      change insertAll (insertNew t xs) ts = xs
      rw [insertNew, if_pos ht, ih hts]

/-- What is there already need not be put in. -/
theorem insertAll_filter (h : ys ⊆ xs) :
    insertAll xs (ts.filter fun t => t ∉ ys) = insertAll xs ts := by
  induction ts generalizing xs with
  | nil => rfl
  | cons t ts ih =>
      have hmore : ys ⊆ insertNew t xs := fun y hy => mem_insertNew.mpr (Or.inl (h hy))
      by_cases ht : t ∈ ys
      · rw [List.filter_cons_of_neg (by simpa using ht), ih h]
        change _ = insertAll (insertNew t xs) ts
        rw [insertNew, if_pos (h ht)]
      · rw [List.filter_cons_of_pos (by simpa using ht)]
        exact ih hmore

end InsertAll

namespace Survey

variable {s : Survey} {g : Graph} {a : Int} {visited queue : List Int}

/-- Where the block at an address leads to in the code. -/
def found (s : Survey) (a : Int) : List Int :=
  match s.blockAt? a with
  | none => []
  | some (_, last, next) => (exits last next).filter fun t => s.has t

theorem found_explore (s : Survey) (a : Int) (g : Graph) : (s.explore a g).2.1 = s.found a := by
  unfold explore found
  cases s.blockAt? a <;> rfl

/-- Only addresses of the routine are found. -/
theorem mem_addresses_of_found {t : Int} (h : t ∈ s.found a) : t ∈ s.addresses := by
  unfold found at h
  split at h
  · simp at h
  · exact has_iff.mp (List.mem_filter.mp h).2

/-- What holds of the graph when the addresses in `visited` have been explored and those in `queue`
are waiting, whatever the addresses of the code are. -/
structure Shape (s : Survey) (g : Graph) (visited queue : List Int) : Prop where
  code : ∀ a ∈ queue, a ∈ s.addresses
  starts : ∀ a ∈ g.starts, a ∈ visited ∨ a ∈ queue
  done : ∀ a ∈ visited, ∃ run last next, s.Cut a run last next ∧
    g.inner? a = some (s.filled a run last next)
  blank : ∀ a ∈ g.starts, a ∉ visited → g.inner? a = some { start := a }

/-- Before the first step there is no block. -/
theorem shape_start {entry : Int} (he : entry ∈ s.addresses) : s.Shape {} [] [entry] where
  code := by simpa using he
  starts := by simp [Graph.starts]
  done := by simp
  blank := by simp [Graph.starts]

/-- An address visited before is passed over. -/
theorem Shape.skip (h : s.Shape g visited (a :: queue)) (ha : a ∈ visited) :
    s.Shape g visited queue :=
  ⟨fun c hc => h.code c (by simp [hc]), fun c hc => Worklist.mem_of_skip ha (h.starts c hc),
    h.done, h.blank⟩

/-- **Exploring an address keeps the shape.** -/
theorem Shape.visit (h : s.Shape g visited (a :: queue)) (ha : a ∉ visited) :
    s.Shape (s.explore a g).1 (visited ++ [a])
      (queue ++ (s.found a).filter fun t => t ∉ visited ++ [a]) := by
  obtain ⟨run, last, next, hcut⟩ := exists_cut (h.code a (by simp))
  have hinner := fun c => inner?_explore (c := c) hcut.found fun hg => h.blank a hg ha
  have hmem := fun c => mem_starts_explore (g := g) (c := c) hcut.found
  have hfound : (exits last next).filter (fun t => s.has t) = s.found a := by
    simp [found, hcut.found]
  simp only [hfound] at hinner hmem
  refine ⟨fun c hc => ?_, fun c hc => ?_, fun c hc => ?_, fun c hc hv => ?_⟩
  · rcases List.mem_append.mp hc with hc | hc
    · exact h.code c (by simp [hc])
    · exact mem_addresses_of_found (List.mem_filter.mp hc).1
  · rcases (hmem c).mp hc with hc | rfl | hc
    · exact Worklist.mem_of_visit (h.starts c hc)
    · exact Or.inl (by simp)
    · exact Worklist.mem_of_found hc
  · by_cases hca : c = a
    · subst hca
      exact ⟨run, last, next, hcut, by rw [hinner, if_pos rfl]⟩
    · obtain ⟨run', last', next', hcut', hb⟩ := h.done c (by simpa [hca] using hc)
      refine ⟨run', last', next', hcut', ?_⟩
      rw [hinner, if_neg hca, hb]
      split <;> rfl
  · -- a block that was not visited has at most been made
    have hne : c ∉ visited ∧ c ≠ a := by simpa using hv
    rw [hinner, if_neg hne.2]
    by_cases hg : c ∈ g.starts
    · rw [h.blank c hg hne.1]
      split <;> rfl
    · have hcf : c ∈ s.found a := by simpa [hg, hne.2] using (hmem c).mp hc
      simp [hcf, Graph.inner?, Graph.block?_eq_none_iff.mpr hg]

/-- **The walk ends with the shape and nothing waiting**, and it goes where the blocks lead. -/
theorem Shape.walk (events : List Event) (h : s.Shape g visited queue) :
    s.Shape (s.walk g visited events queue).1 (s.walk g visited events queue).2.1 [] ∧
      Visits s.found visited queue (s.walk g visited events queue).2.1 := by
  fun_induction Survey.walk s g visited events queue with
  | case1 => exact ⟨h, .done⟩
  | case2 g visited events a queue ha ih =>
      obtain ⟨hs, hv⟩ := ih (h.skip ha)
      exact ⟨hs, .skip ha hv⟩
  | case3 g visited events a queue ha hhas g' found reports hexp ih =>
      have hf := s.found_explore a g
      have hv := h.visit ha
      rw [hexp] at hf hv
      obtain rfl : found = s.found a := hf
      obtain ⟨hs, hw⟩ := ih hv
      exact ⟨hs, .visit ha hw⟩
  | case4 g visited events a queue ha hhas ih =>
      exact absurd (has_iff.mpr (h.code a (by simp))) hhas

/-- When nothing waits, the block at an address is the one of the code. -/
theorem Shape.filled_of_block? (h : s.Shape g visited []) {b : Block} (hb : g.block? a = some b) :
    ∃ run last next, s.Cut a run last next ∧ b.inner = s.filled a run last next := by
  have hv : a ∈ visited := by simpa using h.starts a (Graph.exists_block?_iff.mp ⟨b, hb⟩)
  obtain ⟨run, last, next, hcut, hin⟩ := h.done a hv
  rw [Graph.inner?, hb, Option.map_some, Option.some.injEq] at hin
  exact ⟨run, last, next, hcut, hin⟩

/-- When nothing waits, the edges of the graph lead where the blocks do. -/
theorem Shape.successors_eq (h : s.Shape g visited []) (ha : a ∈ visited) :
    g.successors a = s.found a := by
  obtain ⟨run, last, next, hcut, hin⟩ := h.done a ha
  obtain ⟨b, hb, hfill⟩ := Option.map_eq_some_iff.mp hin
  rw [Graph.successors_of_block? hb, Block.successors_of_filled hfill]
  simp [found, hcut.found]

/-! ### The order in which blocks are made -/

theorem starts_linkAll {ts : List Int} : (linkAll a ts g).starts = insertAll g.starts ts := by
  induction ts generalizing g with
  | nil => rfl
  | cons t ts ih =>
      change (linkAll a ts ((g.ensure t).link a t)).starts = insertAll (insertNew t g.starts) ts
      rw [ih, Graph.starts_link, Graph.starts_ensure]

/-- A step makes the block it is at, and then those it finds, in order. -/
theorem starts_explore (ha : a ∈ s.addresses) :
    (s.explore a g).1.starts = insertAll (insertNew a g.starts) (s.found a) := by
  obtain ⟨run, last, next, hcut⟩ := exists_cut ha
  rw [explore_eq hcut.found, starts_linkAll, starts_fill, found, hcut.found]

/-- The blocks made are, in order, those visited and then those waiting.  The first one waiting may
be missing, as the entry is at the start. -/
structure Listed (g : Graph) (visited queue : List Int) : Prop where
  starts : insertAll g.starts queue = insertAll visited queue
  waiting : ∀ c ∈ queue.tail, c ∈ g.starts

/-- A step to a block that was visited makes none. -/
theorem Listed.skip (h : Listed g visited (a :: queue)) (hs : s.Shape g visited (a :: queue))
    (ha : a ∈ visited) : Listed g visited queue := by
  have hg : a ∈ g.starts := by
    obtain ⟨run, last, next, -, hin⟩ := hs.done a ha
    obtain ⟨b, hb, -⟩ := Option.map_eq_some_iff.mp hin
    exact Graph.exists_block?_iff.mp ⟨b, hb⟩
  refine ⟨?_, fun c hc => h.waiting c (List.mem_of_mem_tail hc)⟩
  have := h.starts
  change insertAll (insertNew a g.starts) queue = insertAll (insertNew a visited) queue at this
  rwa [insertNew, if_pos hg, insertNew, if_pos ha] at this

/-- **What is found is made behind what is waiting.** -/
theorem Listed.visit (h : Listed g visited (a :: queue)) (ha : a ∉ visited)
    (hcode : a ∈ s.addresses) :
    Listed (s.explore a g).1 (visited ++ [a])
      (queue ++ (s.found a).filter fun t => t ∉ visited ++ [a]) := by
  have hnew : insertNew a visited = visited ++ [a] := by rw [insertNew, if_neg ha]
  have hmade : insertNew a g.starts = insertAll (visited ++ [a]) queue := by
    have := h.starts
    change insertAll (insertNew a g.starts) queue = insertAll (insertNew a visited) queue at this
    have hwait : queue ⊆ insertNew a g.starts :=
      fun c hc => mem_insertNew.mpr (Or.inl (h.waiting c hc))
    rwa [hnew, insertAll_of_subset hwait] at this
  have hstarts : (s.explore a g).1.starts
      = insertAll (visited ++ [a]) (queue ++ (s.found a).filter fun t => t ∉ visited ++ [a]) := by
    rw [starts_explore hcode, hmade, insertAll_append,
      insertAll_filter fun c hc => mem_insertAll.mpr (Or.inl hc)]
  have hall : queue ++ (s.found a).filter (fun t => t ∉ visited ++ [a])
      ⊆ (s.explore a g).1.starts := by
    intro c hc
    rw [hstarts]
    exact mem_insertAll.mpr (Or.inr hc)
  exact ⟨by rw [insertAll_of_subset hall, hstarts], fun c hc => hall (List.mem_of_mem_tail hc)⟩

/-- **The blocks are made in the order they are visited.** -/
theorem Listed.walk (events : List Event) (h : Listed g visited queue)
    (hs : s.Shape g visited queue) :
    (s.walk g visited events queue).1.starts = (s.walk g visited events queue).2.1 := by
  fun_induction Survey.walk s g visited events queue with
  | case1 => exact h.starts
  | case2 g visited events a queue ha ih => exact ih (h.skip hs ha) (hs.skip ha)
  | case3 g visited events a queue ha hhas g' found reports hexp ih =>
      have hf := s.found_explore a g
      have hv := hs.visit ha
      have hl := h.visit ha (has_iff.mp hhas)
      rw [hexp] at hf hv hl
      obtain rfl : found = s.found a := hf
      exact ih hl hv
  | case4 g visited events a queue ha hhas ih =>
      exact absurd (has_iff.mpr (hs.code a (by simp))) hhas

/-! ### Both sides of the edges -/

/-- By induction on the targets. -/
theorem mirrored_linkAll {ts : List Int} (h : g.Mirrored) (ha : a ∈ g.starts) :
    (linkAll a ts g).Mirrored := by
  induction ts generalizing g with
  | nil => exact h
  | cons t ts ih =>
      have hstart : a ∈ (g.ensure t).starts := by
        rw [Graph.starts_ensure]
        exact mem_insertNew.mpr (Or.inl ha)
      have htarget : t ∈ (g.ensure t).starts := by
        rw [Graph.starts_ensure]
        exact mem_insertNew.mpr (Or.inr rfl)
      exact ih (h.ensure.link hstart htarget) (by rwa [Graph.starts_link])

theorem mirrored_explore (h : g.Mirrored) : (s.explore a g).1.Mirrored := by
  unfold explore
  split
  · exact h
  · refine mirrored_linkAll (h.ensure.update fun _ => ⟨rfl, rfl, rfl⟩) ?_
    rw [starts_fill]
    exact mem_insertNew.mpr (Or.inr rfl)

/-- The whole walk, by induction on its steps. -/
theorem mirrored_walk (events : List Event) (h : g.Mirrored) :
    (s.walk g visited events queue).1.Mirrored := by
  fun_induction Survey.walk s g visited events queue with
  | case1 => exact h
  | case2 _ _ _ _ _ _ ih => exact ih h
  | case3 g visited events a queue ha hhas g' found reports hexp ih =>
      have hm := s.mirrored_explore (a := a) h
      rw [hexp] at hm
      exact ih hm
  | case4 _ _ _ _ _ _ _ ih => exact ih h

end Survey

namespace Routine

variable {r r₀ : Routine} {order : List Int} {events : List Event}

/-- Without code there is nothing to discover. -/
theorem discover_of_nil (hcode : r.code = []) : r.discover = ⟨.ok [], r, []⟩ := by
  simp [discover, hcode]

/-- A discovery that succeeds is a walk from the entry, which is in the code. -/
theorem discover_eq_walk (hcode : r.code ≠ []) (h : r.discover = ⟨.ok order, r₀, events⟩) :
    r.address ∈ r.survey.addresses ∧
      let found := r.survey.walk {} [] [] [r.address]
      order = found.2.1 ∧ r₀ = { r with graph := found.1, visited := [] } ∧
        events = found.2.2 ++ [.discovered r.name order.length] := by
  have hempty : r.code.isEmpty = false := by simpa using hcode
  cases hhas : r.hasAddress r.address with
  | false => simp [discover, hempty, hhas] at h
  | true =>
      simp only [discover, hempty, hhas, if_true, Bool.false_eq_true, if_false] at h
      cases h
      exact ⟨by simpa [hasAddress, survey, Survey.addresses] using hhas, rfl, rfl, rfl⟩

/-- **Discovery walks along the edges it makes.**  The order of discovery is that of a walk from the
entry along the edges of the graph, and every block is visited. -/
theorem discover_visits (hcode : r.code ≠ []) (h : r.discover = ⟨.ok order, r₀, events⟩) :
    r₀.address = r.address ∧ r.survey.Shape r₀.graph order [] ∧
      Visits r₀.graph.successors [] [r.address] order := by
  obtain ⟨he, rfl, rfl, -⟩ := discover_eq_walk hcode h
  obtain ⟨hs, hv⟩ := (Survey.shape_start he).walk []
  exact ⟨rfl, hs, hv.congr fun a ha => hs.successors_eq ha⟩

/-- **The blocks stand in the order of discovery**, and every edge is known on both of its sides. -/
theorem starts_discover (hcode : r.code ≠ []) (h : r.discover = ⟨.ok order, r₀, events⟩) :
    r₀.graph.starts = order ∧ r₀.graph.Mirrored := by
  obtain ⟨he, rfl, rfl, -⟩ := discover_eq_walk hcode h
  have hlisted : Survey.Listed {} [] [r.address] := ⟨rfl, by simp⟩
  have hmirrored : Graph.Mirrored {} := by
    intro a t
    simp [Graph.ins, Graph.successors, Graph.block?]
  exact ⟨hlisted.walk [] (Survey.shape_start he), Survey.mirrored_walk [] hmirrored⟩

end Routine

end ScriptLift
