import ScriptLift.Routine.Discovery

/-!
# Where control goes

Control flow between single instructions, said without blocks.  A return goes nowhere, a jump goes
to its target, a conditional jump to the instruction behind it or to its target, and every other
instruction to the one behind it (`Instruction.fallThrough?`, `Instruction.jumpTarget?`).  An
address outside the code counts for nothing.  `Reachable` is what the entry leads to.

`Survey.Cut` says what the instructions of one block are: a run of the code that starts at an
address, in which only the last may transfer control and none but the first is a leader.
-/

namespace ScriptLift

/-- The address of the instruction behind `i`. -/
def addressBehind? : List Instruction → Instruction → Option Int
  | [], _ => none
  | j :: rest, i => if j = i then rest.head?.map (·.address) else addressBehind? rest i

namespace Instruction

/-- Where control goes from `i` without a jump. -/
def fallThrough? (code : List Instruction) (i : Instruction) : Option Int :=
  if i.kind = .op .leave ∨ i.kind = .op .jump then none else addressBehind? code i

/-- Where control goes from `i` by a jump. -/
def jumpTarget? (i : Instruction) : Option Int :=
  if i.kind = .op .jump ∨ i.isConditional then i.branchTarget? else none

/-- The addresses in the code that control can go to from `i`, the one behind it first. -/
def goesTo (code : List Instruction) (i : Instruction) : List Int :=
  ((i.fallThrough? code).toList ++ i.jumpTarget?.toList).filter (· ∈ code.map (·.address))

end Instruction

/-- What the instruction at the entry leads to. -/
inductive Reachable (code : List Instruction) (entry : Int) : Instruction → Prop where
  | entry {i : Instruction} : i ∈ code → i.address = entry → Reachable code entry i
  | step {i j : Instruction} : Reachable code entry i → j ∈ code → j.address ∈ i.goesTo code →
      Reachable code entry j

variable {code : List Instruction} {i j : Instruction}

/-- With distinct addresses an instruction is known by its address. -/
theorem eq_of_address (hd : (code.map (·.address)).Nodup) (hi : i ∈ code) (hj : j ∈ code)
    (h : i.address = j.address) : i = j := by
  induction code with
  | nil => simp at hi
  | cons k code ih =>
      rw [List.map_cons, List.nodup_cons] at hd
      rcases List.mem_cons.mp hi with rfl | hi' <;> rcases List.mem_cons.mp hj with rfl | hj'
      · rfl
      · exact absurd (List.mem_map.mpr ⟨j, hj', h.symm⟩) hd.1
      · exact absurd (List.mem_map.mpr ⟨i, hi', h⟩) hd.1
      · exact ih hd.2 hi' hj'

theorem addressBehind?_append {pre post : List Instruction} (hi : i ∉ pre) :
    addressBehind? (pre ++ i :: post) i = post.head?.map (·.address) := by
  induction pre with
  | nil => simp [addressBehind?]
  | cons k pre ih =>
      rw [List.mem_cons, not_or] at hi
      simp [addressBehind?, Ne.symm hi.1, ih hi.2]

theorem notMem_of_nodup {pre post : List Instruction}
    (hd : ((pre ++ i :: post).map (·.address)).Nodup) : i ∉ pre := by
  intro hi
  rw [List.map_append, List.nodup_append] at hd
  exact hd.2.2 i.address (List.mem_map.mpr ⟨i, hi, rfl⟩) i.address (by simp) rfl

/-- The instructions that transfer control are returns, jumps and conditional jumps. -/
theorem isTransfer_iff :
    i.isTransfer = true ↔ i.kind = .op .leave ∨ i.kind = .op .jump ∨ i.isConditional = true := by
  obtain ⟨a, k, o⟩ := i
  cases k with
  | other => simp [Instruction.isTransfer, Instruction.isConditional, Kind.isTransfer,
      Kind.isConditional]
  | op o => cases o <;> simp [Instruction.isTransfer, Instruction.isConditional, Kind.isTransfer,
      Kind.isConditional, Opcode.isTransfer, Opcode.isConditional]

theorem not_conditional_of_leave (h : i.kind = .op .leave) : i.isConditional = false := by
  simp [Instruction.isConditional, Kind.isConditional, Opcode.isConditional, h]

theorem not_conditional_of_jump (h : i.kind = .op .jump) : i.isConditional = false := by
  simp [Instruction.isConditional, Kind.isConditional, Opcode.isConditional, h]

theorem not_leave_jump_of_conditional (h : i.isConditional = true) :
    i.kind ≠ .op .leave ∧ i.kind ≠ .op .jump := by
  constructor
  · intro hk
    simp [not_conditional_of_leave hk] at h
  · intro hk
    simp [not_conditional_of_jump hk] at h

/-- The exits of a block are where control goes from its last instruction. -/
theorem exits_eq {next : Option Int} (h : addressBehind? code i = next) :
    exits i next = (i.fallThrough? code).toList ++ i.jumpTarget?.toList := by
  unfold exits Instruction.fallThrough? Instruction.jumpTarget?
  by_cases hl : i.kind = .op .leave
  · simp [hl, not_conditional_of_leave hl]
  by_cases hj : i.kind = .op .jump
  · simp [hj]
  by_cases hc : i.isConditional <;> simp [hl, hj, hc, h]

/-- An instruction that transfers no control goes to the one behind it only. -/
theorem goesTo_of_not_transfer (h : i.isTransfer = false) :
    i.goesTo code = (addressBehind? code i).toList.filter (· ∈ code.map (·.address)) := by
  have hn : ¬ (i.isTransfer = true) := by simp [h]
  rw [isTransfer_iff] at hn
  simp only [not_or] at hn
  simp [Instruction.goesTo, Instruction.fallThrough?, Instruction.jumpTarget?, hn.1, hn.2.1, hn.2.2]

/-! ### Leaders -/

theorem branchTarget_mem_leaders {entry t : Int} (hi : i ∈ code) (h : i.branchTarget? = some t) :
    t ∈ leaders entry code := by
  refine List.mem_cons_of_mem _ ?_
  induction code with
  | nil => simp at hi
  | cons k code ih =>
      rcases List.mem_cons.mp hi with rfl | hi
      · simp [leadersWithin, h]
      · simp [leadersWithin, ih hi]

/-- Whatever stands behind a transfer of control is a leader. -/
theorem behind_mem_leaders {entry : Int} {pre post : List Instruction}
    (ht : i.isTransfer = true) : j.address ∈ leaders entry (pre ++ i :: j :: post) := by
  refine List.mem_cons_of_mem _ ?_
  induction pre with
  | nil => simp [leadersWithin, ht]
  | cons k pre ih => simp [leadersWithin, ih]

/-! ### The run of a block -/

/-- The run of a block cut off the front of the code. -/
structure IsCut (leaders : List Int) (code run behind : List Instruction) : Prop where
  split : code = run ++ behind
  nonempty : run ≠ []
  /-- Only the last instruction may transfer control. -/
  inner : ∀ i ∈ run.dropLast, i.isTransfer = false
  /-- Only the first instruction may be a leader. -/
  tail : ∀ i ∈ run.tail, i.address ∉ leaders
  /-- The run goes as far as it can. -/
  full : ∀ i j rest, run.getLast? = some i → behind = j :: rest → i.isTransfer = false →
    j.address ∈ leaders

theorem isCut_cutBlock (leaders : List Int) (h : code ≠ []) :
    IsCut leaders code (cutBlock leaders code).1 (cutBlock leaders code).2 := by
  fun_induction cutBlock leaders code with
  | case1 => exact absurd rfl h
  | case2 i rest hstop =>
      refine ⟨rfl, by simp, by simp, by simp, fun k j more hk hj ht => ?_⟩
      simp only [List.getLast?_singleton, Option.some.injEq] at hk
      subst hk hj
      simpa [ht] using hstop
  | case3 i rest hgo run behind hcut ih =>
      simp only [Bool.or_eq_true, not_or, Bool.not_eq_true] at hgo
      cases rest with
      | nil =>
          simp only [cutBlock, Prod.mk.injEq] at hcut
          obtain ⟨rfl, rfl⟩ := hcut
          exact ⟨rfl, by simp, by simp, by simp, fun _ _ _ _ hj => by simp at hj⟩
      | cons k rest =>
          -- the rest of the run is a cut of what is behind `i`, and it starts with `k`
          have ih := ih (by simp)
          rw [hcut] at ih
          obtain ⟨first, more, rfl⟩ := List.exists_cons_of_ne_nil ih.nonempty
          obtain rfl : k = first := by simpa using congrArg List.head? ih.split
          refine ⟨by rw [List.cons_append, ← ih.split], by simp, ?_, ?_, ?_⟩
          · intro j hj
            rcases List.mem_cons.mp hj with rfl | hj
            · exact hgo.1
            · exact ih.inner j hj
          · intro j hj
            rcases List.mem_cons.mp hj with rfl | hj
            · simpa using hgo.2
            · exact ih.tail j hj
          · intro j l after hj
            rw [List.getLast?_cons_cons] at hj
            exact ih.full j l after hj

/-- The code from an address on starts with the instruction there. -/
theorem dropWhile_address {a : Int} (ha : a ∈ code.map (·.address)) :
    ∃ pre i post, code = pre ++ i :: post ∧ i.address = a ∧
      (code.dropWhile fun i => i.address ≠ a) = i :: post := by
  induction code with
  | nil => simp at ha
  | cons k code ih =>
      by_cases hk : k.address = a
      · exact ⟨[], k, code, rfl, hk, by simp [hk]⟩
      · obtain ⟨pre, i, post, rfl, hi, hdrop⟩ := ih (by simpa [Ne.symm hk] using ha)
        exact ⟨k :: pre, i, post, rfl, hi, by simpa [List.dropWhile_cons, hk] using hdrop⟩

namespace Survey

variable {s : Survey} {a c : Int} {run run' : List Instruction} {last last' : Instruction}
  {next next' : Option Int}

/-- The block at `a` is `run`, with `last` at its end and `next` behind it. -/
structure Cut (s : Survey) (a : Int) (run : List Instruction) (last : Instruction)
    (next : Option Int) : Prop where
  found : s.blockAt? a = some (run, last, next)
  split : ∃ pre post, s.code = pre ++ (run ++ post) ∧ next = post.head?.map (·.address)
  first : ∃ i rest, run = i :: rest ∧ i.address = a
  /-- Only the last instruction may transfer control. -/
  ends : ∃ rest, run = rest ++ [last] ∧ ∀ i ∈ rest, i.isTransfer = false
  /-- Only the first instruction may be a leader. -/
  tail : ∀ i ∈ run.tail, i.address ∉ s.leaders
  /-- The run goes as far as it can. -/
  full : last.isTransfer = false → ∀ n, next = some n → n ∈ s.leaders

/-- **Every address of the code has a block.** -/
theorem exists_cut (ha : a ∈ s.addresses) :
    ∃ run last next, s.Cut a run last next := by
  obtain ⟨pre, i, post, hcode, hi, hdrop⟩ := dropWhile_address ha
  have hcut := isCut_cutBlock s.leaders (List.cons_ne_nil i post)
  have hat : s.blockAt? a = (cutBlock s.leaders (i :: post)).1.getLast?.map fun last =>
      ((cutBlock s.leaders (i :: post)).1, last,
        (cutBlock s.leaders (i :: post)).2.head?.map (·.address)) := by
    rw [blockAt?, hdrop]
  generalize cutBlock s.leaders (i :: post) = cut at hcut hat
  obtain ⟨run, behind⟩ := cut
  obtain ⟨rest, last, rfl⟩ := (List.eq_nil_or_concat run).resolve_left hcut.nonempty
  have hrun : rest.concat last = rest ++ [last] := List.concat_eq_append
  refine ⟨_, last, _, by simp [hat], ⟨pre, behind, by rw [hcode, hcut.split], rfl⟩, ?_,
    ⟨rest, hrun, fun j hj => hcut.inner j (by simpa [hrun] using hj)⟩, hcut.tail, ?_⟩
  · obtain ⟨k, more, hmore⟩ := List.exists_cons_of_ne_nil hcut.nonempty
    have hsplit := hcut.split
    rw [hmore, List.cons_append, List.cons.injEq] at hsplit
    exact ⟨k, more, hmore, hsplit.1 ▸ hi⟩
  · intro ht n hn
    cases behind with
    | nil => simp at hn
    | cons j more =>
        simp only [List.head?_cons, Option.map_some, Option.some.injEq] at hn
        exact hn ▸ hcut.full last j more (by simp) rfl ht

namespace Cut

theorem sublist_mem (h : s.Cut a run last next) {i : Instruction} (hi : i ∈ run) : i ∈ s.code := by
  obtain ⟨pre, post, hcode, -⟩ := h.split
  simp [hcode, hi]

theorem last_mem_run (h : s.Cut a run last next) : last ∈ run := by
  obtain ⟨rest, rfl, -⟩ := h.ends
  simp

/-- Behind the last instruction comes `next`. -/
theorem behind (h : s.Cut a run last next) (hd : s.addresses.Nodup) :
    addressBehind? s.code last = next := by
  obtain ⟨pre, post, hcode, rfl⟩ := h.split
  obtain ⟨rest, rfl, -⟩ := h.ends
  have hcode' : s.code = (pre ++ rest) ++ last :: post := by simp [hcode]
  rw [addresses, hcode'] at hd
  rw [hcode']
  exact addressBehind?_append (notMem_of_nodup hd)

/-- The exits in the code are where control goes from the last instruction. -/
theorem found_eq (h : s.Cut a run last next) (hd : s.addresses.Nodup) :
    ((exits last next).filter fun t => s.has t) = last.goesTo s.code := by
  rw [exits_eq (h.behind hd), Instruction.goesTo]
  refine List.filter_congr fun t _ => ?_
  rw [Bool.eq_iff_iff, has_iff, decide_eq_true_iff, addresses]

/-- The exits of a block are leaders. -/
theorem exits_leaders (h : s.Cut a run last next) {entry : Int}
    (hl : s.leaders = ScriptLift.leaders entry s.code) {t : Int} (ht : t ∈ exits last next) :
    t ∈ s.leaders := by
  have target : t ∈ last.branchTarget?.toList → t ∈ s.leaders := fun h' => by
    rw [hl]
    exact branchTarget_mem_leaders (h.sublist_mem h.last_mem_run) (by simpa using h')
  have behind : t ∈ next.toList → t ∈ s.leaders := fun h' => by
    rw [Option.mem_toList] at h'
    by_cases htr : last.isTransfer = true
    · obtain ⟨pre, post, hcode, hnext⟩ := h.split
      obtain ⟨rest, rfl, -⟩ := h.ends
      cases post with
      | nil => simp [hnext] at h'
      | cons j post =>
          have hcode' : s.code = (pre ++ rest) ++ last :: j :: post := by simp [hcode]
          simp only [hnext, List.head?_cons, Option.map_some, Option.some.injEq] at h'
          rw [hl, hcode', ← h']
          exact behind_mem_leaders htr
    · exact h.full (by simpa using htr) t h'
  unfold exits at ht
  split at ht
  · simp at ht
  split at ht
  · exact target ht
  split at ht
  · exact (List.mem_append.mp ht).elim behind target
  · exact behind ht

/-- Inside a run, control goes on to the next instruction of the run. -/
theorem goesTo_inner (h : s.Cut a run last next) (hd : s.addresses.Nodup)
    {before after : List Instruction} {i k : Instruction} (hrun : run = before ++ i :: k :: after) :
    i.goesTo s.code = [k.address] := by
  obtain ⟨pre, post, hcode, -⟩ := h.split
  obtain ⟨rest, hends, hinner⟩ := h.ends
  have hi : i ∈ rest := by
    have := congrArg List.dropLast (hends.symm.trans hrun)
    rw [List.dropLast_concat, List.dropLast_append_of_ne_nil (by simp), List.dropLast_cons_cons]
      at this
    simp [this]
  have hcode' : s.code = (pre ++ before) ++ i :: k :: (after ++ post) := by simp [hcode, hrun]
  have hk : k ∈ s.code := h.sublist_mem (by simp [hrun])
  rw [goesTo_of_not_transfer (hinner i hi), hcode', addressBehind?_append]
  · simp
  · rw [addresses, hcode'] at hd
    exact notMem_of_nodup hd

/-- Control stays in a run or leaves it behind its last instruction. -/
theorem flow (h : s.Cut a run last next) (hd : s.addresses.Nodup) {i j : Instruction}
    (hi : i ∈ run) (hj : j ∈ s.code) (hij : j.address ∈ i.goesTo s.code) :
    j ∈ run ∨ j.address ∈ last.goesTo s.code := by
  obtain ⟨rest, hends, -⟩ := h.ends
  obtain ⟨before, after, hrun⟩ := List.append_of_mem hi
  cases after with
  | nil =>
      have := congrArg List.getLast? (hends.symm.trans hrun)
      simp only [List.getLast?_concat, Option.some.injEq] at this
      exact Or.inr (this ▸ hij)
  | cons k after =>
      rw [h.goesTo_inner hd hrun, List.mem_singleton] at hij
      have hk : k ∈ run := by simp [hrun]
      exact Or.inl (eq_of_address hd hj (h.sublist_mem hk) hij ▸ hk)

/-- If the first instruction of a run is reachable, all of them are. -/
theorem reachable (h : s.Cut a run last next) (hd : s.addresses.Nodup) {entry : Int}
    (ha : ∀ i ∈ s.code, i.address = a → Reachable s.code entry i) {i : Instruction} (hi : i ∈ run) :
    Reachable s.code entry i := by
  have along : ∀ (l before : List Instruction) (k : Instruction), run = before ++ k :: l →
      Reachable s.code entry k → ∀ i ∈ k :: l, Reachable s.code entry i := by
    intro l
    induction l with
    | nil => intro before k _ hk i hi; rwa [List.mem_singleton.mp hi]
    | cons m l ih =>
        intro before k hrun hk i hi
        have hm : Reachable s.code entry m :=
          .step hk (h.sublist_mem (by simp [hrun])) (by simp [h.goesTo_inner hd hrun])
        rcases List.mem_cons.mp hi with rfl | hi
        · exact hk
        · exact ih (before ++ [k]) m (by simp [hrun]) hm i hi
  obtain ⟨k, rest, rfl, hk⟩ := h.first
  exact along rest [] k rfl (ha k (h.sublist_mem (by simp)) hk) i hi

/-- A run that starts inside another one, or further behind, starts where it does or is
disjoint from it. -/
theorem eq_of_overlap (h : s.Cut a run last next) (h' : s.Cut c run' last' next')
    (hd : s.addresses.Nodup) (hc : c ∈ s.leaders) {i : Instruction} (hi : i ∈ run) (hi' : i ∈ run')
    {pre pre' post post' gap : List Instruction} (hcode : s.code = pre ++ (run ++ post))
    (hcode' : s.code = pre' ++ (run' ++ post')) (hgap : pre' = pre ++ gap) : a = c := by
  obtain ⟨first, rest, rfl, hfirst⟩ := h.first
  obtain ⟨first', rest', rfl, hfirst'⟩ := h'.first
  have hbody : first :: rest ++ post = gap ++ (first' :: rest' ++ post') := by
    rw [hcode, hgap, List.append_assoc] at hcode'
    exact List.append_cancel_left hcode'
  cases gap with
  | nil =>
      have : first = first' := by simpa using congrArg List.head? hbody
      rw [← hfirst, ← hfirst', this]
  | cons k gap =>
      rw [List.cons_append, List.cons_append, List.cons.injEq] at hbody
      have twice : i ∉ k :: gap := fun hmem => by
        rw [addresses, hcode', hgap, List.map_append, List.nodup_append] at hd
        exact hd.2.2 i.address (List.mem_map.mpr ⟨i, List.mem_append_right _ hmem, rfl⟩)
          i.address (List.mem_map.mpr ⟨i, List.mem_append_left _ hi', rfl⟩) rfl
      rw [hbody.1] at hi
      rcases List.append_eq_append_iff.mp hbody.2 with ⟨m, rfl, -⟩ | ⟨m, rfl, hm⟩
      · -- the first run is over before the second starts
        exact absurd (List.mem_append_left m hi) twice
      · cases m with
        | nil => exact absurd (by simpa using hi) twice
        | cons k' m =>
            have : first' = k' := by simpa using congrArg List.head? hm
            exact absurd hc (hfirst' ▸ h.tail first' (by simp [this]))

/-- **Runs of two blocks that start at leaders are the same or disjoint.** -/
theorem start_eq (h : s.Cut a run last next) (h' : s.Cut c run' last' next')
    (hd : s.addresses.Nodup) (ha : a ∈ s.leaders) (hc : c ∈ s.leaders) {i : Instruction}
    (hi : i ∈ run) (hi' : i ∈ run') : a = c := by
  obtain ⟨pre, post, hcode, -⟩ := h.split
  obtain ⟨pre', post', hcode', -⟩ := h'.split
  rcases List.append_eq_append_iff.mp (hcode.symm.trans hcode') with ⟨gap, hgap, -⟩ | ⟨gap, hgap, -⟩
  · exact h.eq_of_overlap h' hd hc hi hi' hcode hcode' hgap
  · exact (h'.eq_of_overlap h hd ha hi' hi hcode' hcode hgap).symm

end Cut

end Survey

end ScriptLift
