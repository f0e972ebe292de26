import Mathlib
import ScriptLift.Proofs.Layout.Faithful

/-!
# Which jumps have a label

A `goto` in the lines names the start of a region, so it is an address that some block speaks of
(`Layout.Laid.mentions_of_goto`): where control can go from the block, or the join of a branch.
Where control can go there is a block, which is placed and gets its label.

The join of a branch with two parts is another matter.  It is read off the jump that stands before
the second part in the code, whether or not control ever comes to that jump.  If it does not, the
join may be an address that nothing leads to (`Routine.StrayJoin`).  Those are exactly the addresses
that are jumped to without a label (`Program.label_iff_not_strayJoin`).
-/

namespace ScriptLift

/-! ### Labels in the lines -/

theorem Line.isSome_findLabel_iff {a : Int} {ls : List Line} :
    (findLabel (labelName a) ls).isSome ↔ ∃ i, label i a ∈ ls := by
  induction ls with
  | nil => simp [findLabel]
  | cons l ls ih =>
      cases l with
      | label j c =>
          by_cases hc : c = a
          · subst hc
            simp [findLabel]
          · have hname : labelName c ≠ labelName a := fun h => hc (labelName_injective h)
            simp [findLabel, hname, ih, Ne.symm hc]
      | simple | opening | otherwise | closing | goto => simpa [findLabel] using ih

/-- The addresses that an ending speaks of: those that control can go to, and the one that the
layout goes on at. -/
def Ending.mentions (e : Ending) : List Int :=
  e.exits ++ e.continuation.toList

theorem Ending.mem_mentions_of_onward {e : Ending} {c : Int} (h : e.onward? = some (some c)) :
    c ∈ e.mentions := by
  cases e with
  | goto | pass => simp_all [onward?, mentions, exits, continuation]
  | stop | fork => cases h

namespace Layout

variable {g : Graph} {labels v : List Int} {a? stop : Option Int} {i j c : Int} {s : List Step}

theorem mem_lines {l : Line} : l ∈ lines s ↔ .line l ∈ s := by
  rw [lines, List.mem_filterMap]
  constructor
  · rintro ⟨x, hx, hl⟩
    cases x with
    | line => exact Option.some.inj hl ▸ hx
    | place => cases hl
  · exact fun hl => ⟨_, hl, rfl⟩

theorem goto_notMem_head {a : Int} {plain : List Stmt} :
    .line (.goto j c) ∉ head labels a i plain := by
  unfold head labelLine
  split <;> simp

/-- **A `goto` names the start of its region or an address that a block speaks of.** -/
theorem Laid.mentions_of_goto (h : Laid g labels v a? i stop s) (hc : .line (.goto j c) ∈ s) :
    a? = some c ∨ ∃ a b, g.block? a = some b ∧ c ∈ b.ending.mentions := by
  induction h with
  | nothing | stop => simp at hc
  | jump =>
      obtain ⟨-, rfl⟩ : j = _ ∧ c = _ := by simpa using hc
      exact Or.inl rfl
  | ret => simp [goto_notMem_head] at hc
  | @go _ a _ _ b _ _ _ _ _ hb _ hf hn _ ih =>
      rcases ih ((List.mem_append.mp hc).resolve_left goto_notMem_head) with rfl | hin
      · exact Or.inr ⟨a, b, hb, hf.ending_eq ▸ Ending.mem_mentions_of_onward hn⟩
      · exact Or.inr hin
  | @fork _ a _ _ b _ d n join _ _ _ hb _ hf _ _ ih₁ ih₂ =>
      simp only [List.mem_append, List.mem_cons, goto_notMem_head, Step.line.injEq, reduceCtorEq,
        false_or] at hc
      refine Or.inr ?_
      rcases hc with hc | hc
      · rcases ih₁ hc with hn | hin
        · exact ⟨a, b, hb, by simp [hf.ending_eq, Ending.mentions, Ending.exits,
            Option.some.inj hn]⟩
        · exact hin
      · rcases ih₂ hc with hn | hin
        · exact ⟨a, b, hb, by simp [hf.ending_eq, Ending.mentions, Ending.exits,
            Option.some.inj hn]⟩
        · exact hin
  | @forkElse _ a _ _ b _ d n join t _ _ _ _ hb _ hf _ _ _ ih₁ ih₂ ih₃ =>
      simp only [List.mem_append, List.mem_cons, goto_notMem_head, Step.line.injEq, reduceCtorEq,
        false_or] at hc
      refine Or.inr ?_
      have hmention : ∀ x, x = n ∨ x = t ∨ x = join → x ∈ b.ending.mentions := by
        simp [hf.ending_eq, Ending.mentions, Ending.exits, Ending.continuation]
      rcases hc with hc | hc | hc
      · rcases ih₁ hc with hn | hin
        · exact ⟨a, b, hb, hmention c (Or.inl (Option.some.inj hn).symm)⟩
        · exact hin
      · rcases ih₂ hc with hn | hin
        · exact ⟨a, b, hb, hmention c (Or.inr (Or.inl (Option.some.inj hn).symm))⟩
        · exact hin
      · rcases ih₃ hc with hn | hin
        · exact ⟨a, b, hb, hmention c (Or.inr (Or.inr (Option.some.inj hn).symm))⟩
        · exact hin

end Layout

/-! ### Joins -/

namespace Routine

/-- Control comes to a conditional jump that is made a branch with two parts and the join `a`. -/
def HasJoin (r : Routine) (a : Int) : Prop :=
  ∃ i n t, Reachable r.code r.address i ∧ i.isConditional = true ∧ i.fallThrough? r.code = some n ∧
    i.branchTarget? = some t ∧ r.elseBranch n t = (some t, a)

/-- A branch has the join `a`, but control never comes there. -/
structure StrayJoin (r : Routine) (a : Int) : Prop where
  join : r.HasJoin a
  unreached : ∀ i, Reachable r.code r.address i → i.address ≠ a

/-- The join of a branch with two parts is the target of a jump in the code. -/
theorem exists_jump_of_elseBranch {r : Routine} {n t join : Int}
    (h : r.elseBranch n t = (some t, join)) : ∃ i ∈ r.code, i.branchTarget? = some join := by
  unfold elseBranch at h
  split at h
  · simp at h
  · simp at h
  · split at h
    · rename_i address target hget
      split at h
      · obtain rfl : target = join := by simpa using h
        exact ⟨_, List.mem_of_getElem? hget, rfl⟩
      · simp at h
    · simp at h

end Routine

/-- What follows an instruction is in the code. -/
theorem mem_addresses_of_behind {code : List Instruction} {i : Instruction} {n : Int}
    (h : addressBehind? code i = some n) : n ∈ code.map (·.address) := by
  induction code with
  | nil => simp [addressBehind?] at h
  | cons k code ih =>
      rw [addressBehind?] at h
      split at h
      · obtain ⟨j, hj, rfl⟩ := Option.map_eq_some_iff.mp h
        exact List.mem_cons_of_mem _ (List.mem_map_of_mem (List.mem_of_mem_head? hj))
      · exact List.mem_cons_of_mem _ (ih h)

namespace Graph.IsExact

variable {g : Graph} {code : List Instruction} {entry : Int} {i : Instruction}

/-- Control comes to every block. -/
theorem exists_reachable (h : g.IsExact code entry) {a : Int} (ha : a ∈ g.starts) :
    ∃ i, Reachable code entry i ∧ i.address = a := by
  obtain ⟨b, hb, rfl⟩ := List.mem_map.mp ha
  obtain ⟨i, rest, hrun, hi⟩ := h.first b hb
  exact ⟨i, (h.covers i).mp ⟨b, hb, by simp [hrun]⟩, hi⟩

/-- A target that control comes to starts a block. -/
theorem mem_starts_of_target (h : g.IsExact code entry) (hi : Reachable code entry i)
    {j : Instruction} (hj : j ∈ code) (ht : j.branchTarget? = some i.address) :
    i.address ∈ g.starts := by
  obtain ⟨b, hb, hib⟩ := (h.covers i).mpr hi
  obtain ⟨k, rest, hrun, hk⟩ := h.first b hb
  rw [hrun] at hib
  rcases List.mem_cons.mp hib with rfl | hin
  · exact hk ▸ Graph.mem_starts hb
  · exact absurd ht (h.target b hb i (by rwa [hrun]) j hj)

end Graph.IsExact

/-! ### Lifted routines -/

/-- A routine that was lifted has the blocks that its code calls for. -/
structure Routine.IsComplete (r : Routine) (g : Graph) : Prop extends r.IsLifted where
  exact : g.IsExact r.code r.address
  starts : r.graph.starts = g.starts
  flow : ∀ a b, r.graph.block? a = some b → ∃ b₀ ∈ g.blocks, b₀.SameFlow b
  closed : ∀ b₀ ∈ g.blocks, ∀ t ∈ b₀.successors, t ∈ g.starts

namespace Routine.IsComplete

variable {r : Routine} {g : Graph} {a t : Int} {b : Block} {last : Instruction}

theorem reachable_last (h : r.IsComplete g) (hb : r.graph.block? a = some b)
    (hl : b.EndsWith r last) : Reachable r.code r.address last := by
  obtain ⟨b₀, hb₀, hflow⟩ := h.flow a b hb
  obtain ⟨rest, hrun, -⟩ := hl.ends
  exact (h.exact.covers last).mp ⟨b₀, hb₀, by simp [← hflow.instructions, hrun]⟩

/-- There is a block wherever control can go in the code. -/
theorem mem_starts (h : r.IsComplete g) (hb : r.graph.block? a = some b) (hl : b.EndsWith r last)
    (ht : last.fallThrough? r.code = some t ∨ last.jumpTarget? = some t)
    (hin : t ∈ r.code.map (·.address)) : t ∈ r.graph.starts := by
  obtain ⟨b₀, hb₀, hflow⟩ := h.flow a b hb
  rw [h.starts]
  refine h.closed b₀ hb₀ t ?_
  rw [← hflow.successors, hl.successors]
  exact List.mem_filter.mpr ⟨by simpa using ht, by simpa using hin⟩

/-- **A block speaks of blocks and of joins only**, if all targets are in the code. -/
theorem mem_starts_or_hasJoin (h : r.IsComplete g)
    (ht : ∀ i ∈ r.code, ∀ t, i.branchTarget? = some t → t ∈ r.code.map (·.address))
    (hb : r.graph.block? a = some b) (hm : t ∈ b.ending.mentions) :
    t ∈ r.graph.starts ∨ r.HasJoin t := by
  obtain ⟨last, plain, e, hl, hlift⟩ := h.blocks a b hb
  have hfits := hlift.fits
  rw [hl.fallthrough] at hfits
  rw [hlift.toFormed.ending_eq] at hm
  have behind : ∀ n, last.fallThrough? r.code = some n → n ∈ r.graph.starts := by
    intro n hn
    refine h.mem_starts hb hl (Or.inl hn) ?_
    unfold Instruction.fallThrough? at hn
    split at hn
    · simp at hn
    · exact mem_addresses_of_behind hn
  have target : last.kind = .op .jump ∨ last.isConditional = true → ∀ n,
      last.branchTarget? = some n → n ∈ r.graph.starts := by
    intro hk n hn
    exact h.mem_starts hb hl (Or.inr (by rw [Instruction.jumpTarget?, if_pos hk, hn]))
      (ht last hl.mem n hn)
  cases hfits with
  | stop => simp [Ending.mentions, Ending.exits, Ending.continuation] at hm
  | goto hk hn =>
      obtain rfl : t = _ := by simpa [Ending.mentions, Ending.exits, Ending.continuation] using hm
      exact Or.inl (target (Or.inl hk) t hn)
  | dangling hk hn _ =>
      obtain rfl : t = _ := by simpa [Ending.mentions, Ending.exits, Ending.continuation] using hm
      exact Or.inl (target (Or.inr hk) t hn)
  | @fork t' n c hk hn hft =>
      rcases Ending.elseBranch_eq r n t' with he | ⟨join, he⟩
      · rw [he] at hm
        have hm : t = n ∨ t = t' := by
          simpa [Ending.mentions, Ending.exits, Ending.continuation] using hm
        rcases hm with rfl | rfl
        · exact Or.inl (behind t hft)
        · exact Or.inl (target (Or.inr hk) t hn)
      · rw [he] at hm
        have hm : t = n ∨ t = t' ∨ t = join := by
          simpa [Ending.mentions, Ending.exits, Ending.continuation] using hm
        -- the join is the one address that no instruction of the block names
        rcases hm with rfl | rfl | rfl
        · exact Or.inl (behind t hft)
        · exact Or.inl (target (Or.inr hk) t hn)
        · exact Or.inr ⟨last, n, t', h.reachable_last hb hl, hk, hft, hn, he⟩
  | pass _ =>
      have hft : last.fallThrough? r.code = some t := by
        simpa [Ending.mentions, Ending.exits, Ending.continuation] using hm
      exact Or.inl (behind t hft)

/-- Whatever is jumped to without a block being there is a join. -/
theorem mem_starts_or_hasJoin_of_goto (h : r.IsComplete g)
    (ht : ∀ i ∈ r.code, ∀ t, i.branchTarget? = some t → t ∈ r.code.map (·.address)) {i : Int}
    (hg : .goto i a ∈ r.lines) : a ∈ r.graph.starts ∨ r.HasJoin a := by
  rw [Routine.lines, h.body_eq] at hg
  rcases (h.laid _).mentions_of_goto (Layout.mem_lines.mp hg) with hentry | ⟨c, b, hb, hm⟩
  · exact Or.inl (Option.some.inj hentry ▸ h.origin)
  · exact h.mem_starts_or_hasJoin ht hb hm

/-- A join is stray if there is no block at it. -/
theorem strayJoin_iff (h : r.IsComplete g) (hj : r.HasJoin a) :
    r.StrayJoin a ↔ a ∉ r.graph.starts := by
  rw [h.starts]
  constructor
  · intro hs ha
    obtain ⟨i, hi, rfl⟩ := h.exact.exists_reachable ha
    exact hs.unreached i hi rfl
  · intro ha
    refine ⟨hj, ?_⟩
    rintro i hi rfl
    obtain ⟨-, n, t, -, -, -, -, he⟩ := hj
    obtain ⟨k, hk, hkt⟩ := exists_jump_of_elseBranch he
    exact ha (h.exact.mem_starts_of_target hi hk hkt)

/-- A label stands where a block was placed. -/
theorem mem_starts_of_label (h : r.IsComplete g) {i : Int} (hl : .label i a ∈ r.lines) :
    a ∈ r.graph.starts := by
  refine Classical.byContradiction fun ha => ?_
  have hlost := h.resolves.lost a (Graph.block?_eq_none_iff.mpr ha)
  have hfound := Line.isSome_findLabel_iff.mpr ⟨i, hl⟩
  rw [Routine.lines, h.body_eq, hlost] at hfound
  cases hfound

/-- A block that is jumped to has a label. -/
theorem exists_label (h : r.IsComplete g) {i : Int} (hg : .goto i a ∈ r.lines)
    (ha : a ∈ r.graph.starts) : ∃ j, .label j a ∈ r.lines := by
  rw [Routine.lines, h.body_eq] at hg ⊢
  obtain ⟨q, -, hfind⟩ :=
    h.resolves.found i a (Layout.mem_lines.mp hg) ((h.perm_places _).mem_iff.mpr ha)
  exact Line.isSome_findLabel_iff.mp (by rw [hfind]; rfl)

end Routine.IsComplete

/-- Only the code and the entry matter. -/
theorem Routine.StrayJoin.congr {r r' : Routine} {a : Int} (hc : r'.code = r.code)
    (ha : r'.address = r.address) (h : r.StrayJoin a) : r'.StrayJoin a := by
  obtain ⟨⟨i, n, t, hi, hk, hn, ht, he⟩, hu⟩ := h
  refine ⟨⟨i, n, t, ?_, hk, ?_, ht, ?_⟩, fun j hj => hu j ?_⟩
  · rwa [hc, ha]
  · rwa [hc]
  · rwa [Ending.elseBranch_congr hc]
  · rwa [hc, ha] at hj

namespace Program

/-- Lifting leaves the blocks that discovery found. -/
theorem isComplete_lift {p : Program} {r : Routine} (hp : p.handled = Opcode.all)
    (hd : (r.code.map (·.address)).Nodup) (hcode : r.code ≠ []) (h : (p.lift r).value = .ok ()) :
    (p.lift r).state.2.code = r.code ∧ (p.lift r).state.2.address = r.address ∧
      ∃ g, (p.lift r).state.2.IsComplete g := by
  obtain ⟨g, order, visited, hinv, hend⟩ := inv_lift hp hd hcode h
  have hdisc := hinv.isDiscovered hd
  refine ⟨hend.code, hend.address, g, hend.isLifted hdisc, ?_, hend.starts, fun a b hb => ?_,
    hdisc.closed⟩
  · have hexact := hinv.isExact hd rfl
    have hcode : (p.lift r).state.2.code = r.code := hend.code
    have haddress : (p.lift r).state.2.address = r.address := hend.address
    rwa [hcode, haddress]
  · have ha : a ∈ g.starts := hend.starts ▸ Graph.exists_block?_iff.mp ⟨b, hb⟩
    obtain ⟨b₀, hb₀⟩ := Graph.exists_block?_iff.mpr ha
    obtain ⟨b', hb', hbec⟩ := hend.blocks a b₀ hb₀
    obtain rfl : b' = b := Option.some.inj (hb'.symm.trans hb)
    exact ⟨b₀, Graph.mem_of_block? hb₀, hbec.flow⟩

/-- **A `goto` has its label unless it names a stray join.**  In a routine with distinct addresses
all of whose targets are in its code, the lines that a lift makes hold the label of every address
that they jump to, but for those that are the join of a branch and that control never comes to;
these have no label at all. -/
theorem label_iff_not_strayJoin (p : Program) (r : Routine) (hp : p.handled = Opcode.all)
    (hd : (r.code.map (·.address)).Nodup)
    (ht : ∀ i ∈ r.code, ∀ t, i.branchTarget? = some t → t ∈ r.code.map (·.address))
    (hc : r.code = [] → r.graph.blocks = []) (h : (p.lift r).value = .ok ()) (i a : Int)
    (hg : .goto i a ∈ (p.lift r).state.2.lines) :
    (∃ j, .label j a ∈ (p.lift r).state.2.lines) ↔ ¬ r.StrayJoin a := by
  by_cases hcode : r.code = []
  · -- there are no lines without blocks
    have hb : ∀ a, r.graph.block? a = none := fun a => by simp [Graph.block?, hc hcode]
    have hl : (p.lift r).state.2 = r := by
      simp [lift, Routine.discover, hcode, Stage.interpret, hb]
    rw [hl] at hg
    simp [Routine.lines, Routine.body, hb] at hg
  obtain ⟨hcode', haddr, g, hcomp⟩ := isComplete_lift hp hd hcode h
  constructor
  · rintro ⟨j, hj⟩ hstray
    have hstray' := hstray.congr hcode' haddr
    exact (hcomp.strayJoin_iff hstray'.join).mp hstray' (hcomp.mem_starts_of_label hj)
  · intro hno
    refine hcomp.exists_label hg ?_
    rcases hcomp.mem_starts_or_hasJoin_of_goto (by rwa [hcode']) hg with ha | hjoin
    · exact ha
    · refine Classical.byContradiction fun ha => hno ?_
      exact ((hcomp.strayJoin_iff hjoin).mpr ha).congr hcode'.symm haddr.symm

/-- A loop, whose end jumps back to its start. -/
theorem label_iff_not_strayJoin_loop :
    let r : Routine := {
      name := "spin"
      address := 0
      code := [⟨0, .op (.load .static), .slot 0⟩, ⟨1, .op .jumpIfZero, .branch 3⟩,
        ⟨2, .op .jump, .branch 0⟩, ⟨3, .op .leave, .ret 0 0⟩] }
    let r' := (Program.lift { name := "spin", code := [] } r).state.2
    .goto 2 0 ∈ r'.lines ∧ ((∃ j, .label j 0 ∈ r'.lines) ↔ ¬ r.StrayJoin 0) := by
  intro r r'
  have hlines : r'.lines = [.label 0 0, .opening 1 (.var (.static 0)), .goto 2 0, .closing 1,
      .simple 1 (.ret [])] := by
    dsimp only [r', r]
    cbv
  have hgoto : .goto 2 0 ∈ r'.lines := by simp [hlines]
  exact ⟨hgoto, label_iff_not_strayJoin _ r rfl (by decide) (by decide) (by simp [r]) (by cbv)
    2 0 hgoto⟩

/-- Control never comes to the jump before the second part of the branch, so the join at 7 is taken
from code that nothing leads to: it is jumped to, and no line has its label. -/
theorem lift_goto_without_label :
    let p : Program := { name := "stray", code := [] }
    let r : Routine := {
      name := "stray"
      address := 0
      code := [⟨0, .op (.load .static), .slot 0⟩, ⟨1, .op .jumpIfZero, .branch 5⟩,
        ⟨2, .op .leave, .ret 0 0⟩, ⟨3, .op .jump, .branch 7⟩, ⟨5, .op .nop, .none⟩,
        ⟨6, .op .leave, .ret 0 0⟩, ⟨7, .op .leave, .ret 0 0⟩] }
    p.handled = Opcode.all ∧ (r.code.map (·.address)).Nodup ∧
      (∀ i ∈ r.code, ∀ t, i.branchTarget? = some t → t ∈ r.code.map (·.address)) ∧
      (p.lift r).value = .ok () ∧ .goto 1 7 ∈ (p.lift r).state.2.lines ∧
      ∀ j, .label j 7 ∉ (p.lift r).state.2.lines := by
  intro p r
  have hlines : (p.lift r).state.2.lines = [.opening 1 (.var (.static 0)), .simple 2 (.ret []),
      .otherwise 1, .simple 2 (.ret []), .closing 1, .goto 1 7] := by
    dsimp only [p, r]
    cbv
  refine ⟨rfl, by decide, by decide, by cbv, ?_, ?_⟩
  · simp [hlines]
  · simp [hlines]

end Program

end ScriptLift
