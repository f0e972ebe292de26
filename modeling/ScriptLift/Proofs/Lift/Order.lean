import Mathlib
import ScriptLift.Proofs.Lift.Joins

/-!
# Interpretation follows discovery

Two walks go through the blocks of a routine, each with its own record of where it has been.  They
go along the same edges, so the second visits the blocks in the order of the first: interpretation
is one visit to each block in the order of discovery (`Stage.visitAll`).

What is reported on the way about where ways meet is told by the edges in this order
(`Graph.report?`).  The first edge to a block settles its entry stack and has nothing to report, and
every later one is compared (`rejoins`).  `Program.lift_follows_discovery` puts this together.
-/

namespace ScriptLift

namespace Stage

variable {s s' : Stage} {a : Int} {b b' : Block} {p : Program} {entry : Int}
  {keys visited queue : List Int}

/-! ### One visit after the other -/

/-- Visit the blocks at several addresses, in order. -/
def visitAll : List Int → Stage → Except Fault Unit × Stage
  | [], s => (.ok (), s)
  | a :: rest, s =>
    match s.visit a with
    | (.error f, s) => (.error f, s)
    | (.ok _, s) => visitAll rest s

/-- **A walk is a visit to each address it visits, in order.** -/
theorem walk_visitAll (h : walk keys s visited queue = (.ok (), s')) :
    ∃ more s₁, Visits s.routine.graph.successors visited queue (visited ++ more) ∧
      visitAll more s = (.ok (), s₁) ∧
        s' = { s₁ with routine := { s₁.routine with visited := [] } } := by
  fun_induction walk keys s visited queue with
  | case1 s visited =>
      cases h
      exact ⟨[], s, by simpa using .done, rfl, rfl⟩
  | case2 s visited a queue ha ih =>
      obtain ⟨more, s₁, hv, hall, hs'⟩ := ih h
      exact ⟨more, s₁, .skip ha hv, hall, hs'⟩
  | case3 s visited a queue ha hk f s₁ hv => cases h
  | case4 s visited a queue ha hk found s₁ hv ih =>
      obtain ⟨b, b', hvis, rfl⟩ := visited_visit hv
      obtain ⟨more, s₂, hrest, hall, hs'⟩ := ih h
      refine ⟨a :: more, s₂, .visit ha ?_, ?_, hs'⟩
      · rw [Graph.successors_of_block? hvis.found, List.append_cons visited a more]
        exact hrest.congr fun c _ => (hvis.successors c).symm
      · rw [visitAll, hv]
        exact hall
  | case5 => cases h

/-- A visit leaves the ways into the blocks as they are. -/
theorem Visited.ins (h : s.Visited a b b' s') (c : Int) :
    s'.routine.graph.ins c = s.routine.graph.ins c := by
  have hsettle : ∀ (stack : OperandStack) (d : Block), (d.settle stack).ins = d.ins := by
    intro stack d
    unfold Block.settle
    split <;> rfl
  rw [Graph.ins, Graph.ins, h.map_block? hsettle h.ran.ins]

end Stage

/-! ### Reports on edges -/

namespace Graph

/-- The edges out of the blocks at the given addresses, in order. -/
def edges (g : Graph) (order : List Int) : List (Int × Int) :=
  order.flatMap fun a => (g.successors a).map fun t => (a, t)

/-- What is reported about an edge: that the stack left at its source is not as deep as the one its
target starts with. -/
def report? (g : Graph) (edge : Int × Int) : Option Event :=
  (g.block? edge.1).bind fun b => (g.block? edge.2).bind (Block.mismatch? edge.1 b.exitStack)

theorem mem_edges {g : Graph} {order : List Int} {a t : Int} :
    (a, t) ∈ g.edges order ↔ a ∈ order ∧ t ∈ g.successors a := by
  simp [edges]

end Graph

theorem Block.isJoin_of_mismatch? {source : Int} {stack : OperandStack} {b : Block} {e : Event}
    (h : b.mismatch? source stack = some e) : e.isJoin = true := by
  unfold mismatch? at h
  split at h
  · cases h
  · cases h
    rfl

namespace Stage

variable {s s' : Stage} {a : Int} {b b' : Block} {p : Program} {entry : Int}
  {visited queue : List Int}

/-- What has been reported about where ways meet, told by the edges out of the blocks visited. -/
def Reported (s : Stage) (visited : List Int) : Prop :=
  s.events.filter Event.isJoin = (s.routine.graph.edges visited).filterMap s.routine.graph.report?

/-- A visit changes nothing about the edges out of the blocks visited before. -/
theorem Joined.report?_visit (h : Joined p entry s visited (a :: queue)) (ha : a ∉ visited)
    (hv : s.Visited a b b' s') {q t : Int} (hq : q ∈ visited)
    (ht : t ∈ s.routine.graph.successors q) :
    s'.routine.graph.report? (q, t) = s.routine.graph.report? (q, t) := by
  have hne : q ≠ a := fun e => ha (e ▸ hq)
  cases hqb : s.routine.graph.block? q with
  | none => simp [Graph.successors, hqb] at ht
  | some d =>
      rw [Graph.successors_of_block? hqb] at ht
      have hq' := hv.block?_of_seeded hne hqb (h.seeded q d hqb (Or.inl hq))
      have hwait := h.closed q d hqb hq t ht
      simp only [Graph.report?, hqb, hq', Option.bind_some]
      cases htb : s'.routine.graph.block? t with
      | none =>
          have hnone : s.routine.graph.block? t = none :=
            Graph.block?_eq_none_iff.mpr (hv.starts ▸ Graph.block?_eq_none_iff.mp htb)
          rw [hnone]
      | some c' =>
          obtain ⟨c, hc, hstack⟩ := h.entryStack_visit hv hwait htb
          rw [hc, Option.bind_some, Option.bind_some, Block.mismatch?, Block.mismatch?, hstack,
            Graph.start_of_block? htb, Graph.start_of_block? hc]

/-- **A visit reports about the edges out of the block visited.** -/
theorem Reported.visit (ha : a ∉ visited) (hj : Joined p entry s visited (a :: queue))
    (h : Reported s visited) (hv : s.Visited a b b' s') : Reported s' (visited ++ [a]) := by
  obtain ⟨events, ⟨more, rfl, hmore⟩, heq⟩ := hv.events
  have hb' := hv.block?_self (hj.seeded_head hv)
  -- what the block itself reports is about other things
  have hquiet : more.filter Event.isJoin = [] :=
    List.filter_eq_nil_iff.mpr fun e he => by simp [hmore e he]
  have hloud : (b.successors.filterMap fun t =>
      (s'.routine.graph.block? t).bind (Block.mismatch? a b'.exitStack)).filter Event.isJoin
        = b.successors.filterMap fun t =>
          (s'.routine.graph.block? t).bind (Block.mismatch? a b'.exitStack) := by
    refine List.filter_eq_self.mpr fun e he => ?_
    obtain ⟨t, -, he⟩ := List.mem_filterMap.mp he
    obtain ⟨c, -, he⟩ := Option.bind_eq_some_iff.mp he
    exact Block.isJoin_of_mismatch? he
  have hold : (s'.routine.graph.edges visited).filterMap s'.routine.graph.report?
      = (s.routine.graph.edges visited).filterMap s.routine.graph.report? := by
    rw [Graph.edges, Graph.edges]
    simp only [hv.successors]
    refine List.filterMap_congr fun edge hedge => ?_
    obtain ⟨q, t⟩ := edge
    obtain ⟨hq, ht⟩ := Graph.mem_edges.mp hedge
    exact hj.report?_visit ha hv hq ht
  have hnew : (s'.routine.graph.edges [a]).filterMap s'.routine.graph.report?
      = b.successors.filterMap fun t =>
        (s'.routine.graph.block? t).bind (Block.mismatch? a b'.exitStack) := by
    rw [Graph.edges, List.flatMap_singleton, List.filterMap_map, hv.successors,
      Graph.successors_of_block? hv.found]
    refine List.filterMap_congr fun t _ => ?_
    rw [Function.comp_apply, Graph.report?, hb', Option.bind_some]
  have hsplit : s'.routine.graph.edges (visited ++ [a])
      = s'.routine.graph.edges visited ++ s'.routine.graph.edges [a] := List.flatMap_append
  rw [Reported, heq, List.filter_append, List.filter_append, hquiet, List.append_nil, hloud, hsplit,
    List.filterMap_append, hold, hnew, h]

end Stage

/-! ### The first edge to a block -/

/-- The edges without the first to each target that is not among `seen`. -/
def rejoins : List Int → List (Int × Int) → List (Int × Int)
  | _, [] => []
  | seen, (a, t) :: edges =>
    if seen.contains t then (a, t) :: rejoins seen edges else rejoins (t :: seen) edges

/-- Where there is nothing to say of the first edges, what is said of the others is all there is. -/
theorem filterMap_rejoins {f : Int × Int → Option Event} {seen : List Int}
    {edges : List (Int × Int)}
    (h : ∀ a t, t ∉ seen → edges.find? (fun edge => edge.2 = t) = some (a, t) →
      f (a, t) = none) :
    (rejoins seen edges).filterMap f = edges.filterMap f := by
  induction edges generalizing seen with
  | nil => rfl
  | cons edge edges ih =>
      obtain ⟨q, u⟩ := edge
      have hlater : ∀ a t, u ≠ t → t ∉ seen → edges.find? (fun edge => edge.2 = t) = some (a, t) →
          f (a, t) = none := by
        intro a t hne ht hfirst
        exact h a t ht (by rw [List.find?_cons_of_neg (by simpa using hne), hfirst])
      rw [rejoins]
      by_cases hu : u ∈ seen
      · rw [if_pos (by simpa using hu), List.filterMap_cons, List.filterMap_cons,
          ih fun a t ht => hlater a t (fun e => ht (e ▸ hu)) ht]
      · have hnone : f (q, u) = none := h q u hu (by simp)
        rw [if_neg (by simpa using hu), List.filterMap_cons, hnone]
        refine ih fun a t ht => ?_
        rw [List.mem_cons, not_or] at ht
        exact hlater a t (Ne.symm ht.1) ht.2

/-- The first edge to a block comes from the first block that leads there. -/
theorem Graph.find?_edges {g : Graph} {order : List Int} {a t : Int}
    (h : (g.edges order).find? (fun edge => edge.2 = t) = some (a, t)) :
    order.find? (fun q => t ∈ g.successors q) = some a := by
  induction order with
  | nil => cases h
  | cons q order ih =>
      rw [edges, List.flatMap_cons, List.find?_append] at h
      cases hf : ((g.successors q).map fun t => (q, t)).find? (fun edge => edge.2 = t) with
      | none =>
          have hq : t ∉ g.successors q := fun hq => by
            simpa using List.find?_eq_none.mp hf (q, t) (List.mem_map.mpr ⟨t, hq, rfl⟩)
          rw [hf, Option.none_or] at h
          rw [List.find?_cons_of_neg (by simpa using hq)]
          exact ih h
      | some edge =>
          obtain ⟨u, hu, rfl⟩ := List.mem_map.mp (List.mem_of_find?_eq_some hf)
          rw [hf] at h
          cases h
          rw [List.find?_cons_of_pos (by simpa using hu)]

/-! ### Discovery reports on other things -/

theorem Survey.isJoin_walk {s : Survey} {g : Graph} {visited queue : List Int} {events : List Event}
    (h : ∀ e ∈ events, e.isJoin = false) :
    ∀ e ∈ (s.walk g visited events queue).2.2, e.isJoin = false := by
  fun_induction Survey.walk s g visited events queue with
  | case1 => exact h
  | case2 _ _ _ _ _ _ ih => exact ih h
  | case3 g visited events a queue ha hhas g' found reports hexp ih =>
      refine ih (List.forall_mem_append.mpr ⟨h, ?_⟩)
      unfold explore at hexp
      split at hexp
      · cases hexp
        simp
      · cases hexp
        intro e he
        obtain ⟨t, -, rfl⟩ := List.mem_map.mp he
        rfl
  | case4 _ _ _ _ _ _ _ ih => exact ih h

theorem Routine.isJoin_discover {r r₀ : Routine} {order : List Int} {events : List Event}
    (hcode : r.code ≠ []) (h : r.discover = ⟨.ok order, r₀, events⟩) :
    events.filter Event.isJoin = [] := by
  obtain ⟨-, -, -, rfl⟩ := discover_eq_walk hcode h
  rw [List.filter_eq_nil_iff]
  refine List.forall_mem_append.mpr ⟨fun e he => ?_, by simp [Event.isJoin]⟩
  simp [Survey.isJoin_walk (by simp) e he]

/-! ### Whole routines -/

namespace Program

variable {p : Program} {r : Routine}

/-- What lifting a routine with code comes to, where `order` is the order of discovery. -/
structure FollowsDiscovery (p : Program) (r : Routine) (order : List Int) : Prop where
  nodup : order.Nodup
  /-- The blocks were made in this order, -/
  created : r.discover.state.graph.starts = order
  /-- and the lift was one visit to each of them, in this order. -/
  visits : ∃ s, Stage.visitAll order (Stage.settled ⟨p, r.discover.state, r.discover.events⟩)
      = (.ok (), s) ∧
    p.lift r = ⟨.ok (), (s.program, { s.routine with visited := [] }), s.events⟩
  starts : (p.lift r).state.2.graph.starts = order
  seeded : ∀ b ∈ (p.lift r).state.2.graph.blocks, b.seeded = true
  entry : ∃ b, (p.lift r).state.2.graph.block? r.address = some b ∧ b.entryStack = []
  /-- Any other block starts with what the first of those before it has left behind. -/
  entryStack : ∀ b ∈ (p.lift r).state.2.graph.blocks, b.start ≠ r.address →
    ∃ a c, order.find? (fun q => q ∈ b.ins) = some a ∧
      (p.lift r).state.2.graph.block? a = some c ∧ b.entryStack = c.exitStack
  /-- The edges that settled no entry stack were compared. -/
  reports : (p.lift r).events.filter Event.isJoin
    = (rejoins [r.address] ((p.lift r).state.2.graph.edges order)).filterMap
        (p.lift r).state.2.graph.report?

/-- At the end of a lift that succeeds, the reports on where ways meet are those on the edges, and
the blocks and edges are still those of discovery. -/
theorem reported_lift (hcode : r.code ≠ []) (h : (p.lift r).value = .ok ()) :
    ∃ order, r.discover.value = .ok order ∧
      let s : Stage := ⟨(p.lift r).state.1, (p.lift r).state.2, (p.lift r).events⟩
      s.Reported order ∧ s.routine.graph.starts = order ∧ s.routine.graph.Mirrored := by
  obtain ⟨order, r₀, events, hdisc, hwalk⟩ := walk_of_lift hcode h
  obtain ⟨haddr, -, hvisits⟩ := Routine.discover_visits hcode hdisc
  obtain ⟨hstarts₀, hmirrored₀⟩ := Routine.starts_discover hcode hdisc
  have hreported : (Stage.settled ⟨p, r₀, events⟩).Reported [] :=
    Routine.isJoin_discover hcode hdisc
  have hmirrored : (Stage.settled ⟨p, r₀, events⟩).routine.graph.Mirrored :=
    hmirrored₀.update fun _ => ⟨rfl, rfl, rfl⟩
  obtain ⟨visited, hv, -, hreported, hstarts, hmirrored⟩ := Stage.walk_induct
    (P := fun s visited queue => s.Joined p r.address visited queue ∧ s.Reported visited ∧
      s.routine.graph.starts = order ∧ s.routine.graph.Mirrored)
    (fun ha h => ⟨h.1.skip ha, h.2⟩)
    (fun ha h hv => ⟨h.1.visit hv, h.2.1.visit ha h.1 hv, hv.starts.trans h.2.2.1,
      h.2.2.2.congr hv.ins hv.successors⟩)
    (fun h => ⟨h.1.done, h.2⟩)
    ⟨haddr ▸ Stage.joined_start events p, hreported, (Stage.starts_settled _).trans hstarts₀,
      hmirrored⟩ hwalk
  obtain rfl : visited = order :=
    (hv.congr fun a _ => (Stage.successors_settled _ a).symm).unique hvisits
  exact ⟨visited, by rw [hdisc], hreported, hstarts, hmirrored⟩

/-- A lift that succeeds is one visit to each block, in the order of discovery. -/
theorem visits_lift (hcode : r.code ≠ []) (h : (p.lift r).value = .ok ()) :
    ∃ order s, r.discover.value = .ok order ∧ order.Nodup ∧
      r.discover.state.graph.starts = order ∧
      Stage.visitAll order (Stage.settled ⟨p, r.discover.state, r.discover.events⟩) = (.ok (), s) ∧
      p.lift r = ⟨.ok (), (s.program, { s.routine with visited := [] }), s.events⟩ := by
  obtain ⟨order, r₀, events, hdisc, hwalk⟩ := walk_of_lift hcode h
  obtain ⟨-, -, hvisits⟩ := Routine.discover_visits hcode hdisc
  obtain ⟨visited, s, hv, hall, hs⟩ := Stage.walk_visitAll hwalk
  obtain rfl : visited = order :=
    (hv.congr fun a _ => (Stage.successors_settled _ a).symm).unique hvisits
  obtain ⟨hprogram, hroutine, hevents⟩ := Stage.mk.inj hs
  refine ⟨visited, s, ?_⟩
  rw [hdisc]
  refine ⟨rfl, hvisits.nodup .nil, (Routine.starts_discover hcode hdisc).1, hall, ?_⟩
  rw [← h, ← hprogram, ← hroutine, ← hevents]

/-- The first edge to a block other than the entry has nothing to report. -/
theorem report?_first {s : Stage} {order : List Int} {entry a t : Int}
    (hj : s.Joined p entry order []) (hs : s.Sown entry order) (ht : t ∉ [entry])
    (hfirst : (s.routine.graph.edges order).find? (fun edge => edge.2 = t) = some (a, t)) :
    s.routine.graph.report? (a, t) = none := by
  have ha := Graph.find?_edges hfirst
  have hmem : a ∈ order := List.mem_of_find?_eq_some ha
  have hedge : t ∈ s.routine.graph.successors a := by simpa using List.find?_some ha
  cases hb : s.routine.graph.block? a with
  | none => simp [Graph.report?, hb]
  | some b =>
      cases hc : s.routine.graph.block? t with
      | none => simp [Graph.report?, hb, hc]
      | some c =>
          rw [Graph.successors_of_block? hb] at hedge
          have hseeded := hj.seeded t c hc (hj.closed a b hb hmem t hedge)
          obtain ⟨a', b', ha', hb', hstack⟩ := hs t c hc (by simpa using ht) hseeded
          obtain rfl : a' = a := Option.some.inj (ha'.symm.trans ha)
          obtain rfl : b' = b := Option.some.inj (hb'.symm.trans hb)
          simp [Graph.report?, hb, hc, Block.mismatch?, hstack]

/-- **Interpretation follows discovery.** -/
theorem lift_follows_discovery (p : Program) (r : Routine) (hcode : r.code ≠ [])
    (h : (p.lift r).value = .ok ()) :
    ∃ order, r.discover.value = .ok order ∧ p.FollowsDiscovery r order := by
  obtain ⟨order, s, hvalue, hnodup, hcreated, hvisits⟩ := visits_lift hcode h
  obtain ⟨order', hvalue', hjoin, hsown, -⟩ := joined_lift hcode h
  obtain rfl : order' = order := Except.ok.inj (hvalue'.symm.trans hvalue)
  obtain ⟨order'', hvalue'', hreported, hstarts, hmirrored⟩ := reported_lift hcode h
  obtain rfl : order'' = order' := Except.ok.inj (hvalue''.symm.trans hvalue)
  have hblock : ∀ b ∈ (p.lift r).state.2.graph.blocks,
      (p.lift r).state.2.graph.block? b.start = some b ∧ b.start ∈ order'' := fun b hb =>
    ⟨Graph.block?_start (hstarts ▸ hnodup) hb, hstarts ▸ Graph.mem_starts hb⟩
  have hseeded : ∀ b ∈ (p.lift r).state.2.graph.blocks, b.seeded = true := fun b hb =>
    hjoin.seeded b.start b (hblock b hb).1 (Or.inl (hblock b hb).2)
  refine ⟨order'', hvalue, hnodup, hcreated, ⟨s, hvisits⟩, hstarts, hseeded, ?_, fun b hb hne => ?_,
    ?_⟩
  · have hentry : r.address ∈ order'' := by simpa using hjoin.origin
    obtain ⟨b, hb⟩ := Graph.exists_block?_iff.mpr (hstarts ▸ hentry)
    exact ⟨b, hb, hjoin.entryStack b hb⟩
  · obtain ⟨a, c, ha, hc, hstack⟩ := hsown b.start b (hblock b hb).1 hne (hseeded b hb)
    refine ⟨a, c, ?_, hc, hstack⟩
    -- the blocks before are those that lead here
    have hins : ∀ q, q ∈ b.ins ↔ b.start ∈ (p.lift r).state.2.graph.successors q := fun q => by
      rw [← Graph.ins_of_block? (hblock b hb).1]
      exact hmirrored q b.start
    simp only [hins]
    exact ha
  · rw [filterMap_rejoins fun a t ht hfirst => report?_first hjoin hsown ht hfirst]
    exact hreported

/-- A branch to the next instruction makes two edges to it, of which the second is compared.  The
one back to the entry brings a value that is not expected there. -/
theorem lift_follows_discovery_twice :
    let p : Program := { name := "twice", code := [] }
    let r : Routine := {
      name := "twice"
      address := 0
      code := [⟨0, .op .push, .push [.int 1]⟩, ⟨1, .op (.load .static), .slot 0⟩,
        ⟨2, .op .jumpIfZero, .branch 3⟩, ⟨3, .op (.load .static), .slot 1⟩,
        ⟨4, .op .jumpIfZero, .branch 0⟩, ⟨5, .op .leave, .ret 0 0⟩] }
    (p.lift r).events.filter Event.isJoin = [.joinMismatch 0 1 3 0] ∧
      ∃ order, r.discover.value = .ok order ∧ p.FollowsDiscovery r order := by
  intro p r
  have hlift : ((p.lift r).value, (p.lift r).events.filter Event.isJoin)
      = (.ok (), [.joinMismatch 0 1 3 0]) := by cbv
  obtain ⟨hok, hevents⟩ := Prod.mk.inj hlift
  exact ⟨hevents, lift_follows_discovery p r (by simp [r]) hok⟩

end Program

end ScriptLift
