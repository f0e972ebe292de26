import ScriptLift.Proofs.Layout.Reading

/-!
# The layout keeps the control flow

The lines of a body, read as a program, do what the blocks do when one walks from block to block.

A position in the layout *leads* to an address (`Layout.Leads`) when the lines from there come to
the block at that address without doing anything, or come to a stop if there is no such block.  What
stands behind a region leads to the `stop` of the region; then the region leads to its own start
(`Layout.Laid.leads`), and the lines of each block in it do what the block does and then lead to
where the block goes on (`Layout.Laid.executes`).
-/

namespace ScriptLift

/-- The move from a block with this ending, after the given actions. -/
def Ending.move (actions : List Action) : Ending → Move Action (Option Int)
  | stop _ => .go actions none
  | goto target => .go actions (some target)
  | pass address => .go actions address
  | fork _ thenBlock join elseBlock =>
    .ask actions fun outcome => if outcome then some thenBlock else some (elseBlock.getD join)

/-- Walking over the blocks by their endings. -/
def Graph.next (g : Graph) (a? : Option Int) : Move Action (Option Int) :=
  match a?.bind g.block? with
  | none => .halt
  | some b => b.ending.move b.actions

namespace Layout

variable {g : Graph} {labels v : List Int} {a? stop : Option Int} {a i : Int}
  {s S K X X' : List Step} {plain : List Stmt}

/-- Every `goto` in the layout is followed to the block that it names, and stops if there is
none. -/
structure Resolves (g : Graph) (labels : List Int) (S : List Step) : Prop where
  found : ∀ i a, .line (.goto i a) ∈ S → a ∈ places S →
    ∃ q, (a, q) ∈ marks labels [] S ∧ Line.findLabel (labelName a) (lines S) = some (lines q)
  lost : ∀ a, g.block? a = none → Line.findLabel (labelName a) (lines S) = none

/-- Without doing anything, the lines of `X` come to the block at the address, or to a stop if there
is none. -/
inductive Leads (g : Graph) (labels : List Int) (S : List Step) :
    List Step → Option Int → Prop where
  /-- If no move is needed, the block stands further behind. -/
  | block {X q : List Step} {a : Int} {m : Nat} : (a, q) ∈ marks labels [] S →
      (∀ ω, Runs (Line.next (lines S)) m ω (lines X) [] ω (lines q)) →
      (m = 0 → q.length < X.length) → Leads g labels S X (some a)
  | outside {X : List Step} {a? : Option Int} {m : Nat} {x : List Line} : a?.bind g.block? = none →
      (∀ ω, Runs (Line.next (lines S)) m ω (lines X) [] ω x) → Line.next (lines S) x = .halt →
      Leads g labels S X a?

/-- A silent move before. -/
theorem Leads.step (h : Leads g labels S X' a?)
    (hn : Line.next (lines S) (lines X) = .go [] (lines X')) : Leads g labels S X a? := by
  cases h with
  | block hq hrun _ =>
      exact .block hq (fun ω => by simpa using (Runs.one hn).trans (hrun ω)) (by omega)
  | outside ha hrun hx =>
      exact .outside ha (fun ω => by simpa using (Runs.one hn).trans (hrun ω)) hx

/-- The end of the layout leads nowhere. -/
theorem leads_nil : Leads g labels S [] none :=
  .outside rfl (fun _ => .refl) rfl

/-- A block that is placed here is led to. -/
theorem leads_head (hm : marks labels X (head labels a i plain) ⊆ marks labels [] S) :
    Leads g labels S (head labels a i plain ++ X) (some a) := by
  have hq : (a, (plain.map fun s => .line (.simple i s)) ++ X) ∈ marks labels [] S :=
    hm (by simp [marks_head])
  by_cases ha : a ∈ labels
  · refine .block hq (fun ω => ?_) (m := 1) (by simp)
    refine Runs.one ?_
    simp [head, labelLine, ha, Line.next]
  · refine .block hq (fun ω => ?_) (m := 0) (fun _ => by simp [head, labelLine, ha])
    simpa [head, labelLine, ha] using Runs.refl

/-- **A region leads to its start**, if what stands behind it leads to its `stop`. -/
theorem Laid.leads (h : Laid g labels v (some a) i stop s) (hr : Resolves g labels S)
    {pre : List Step} (hv : v = places pre) (hS : S = pre ++ (s ++ K))
    (hK : Leads g labels S K stop) : Leads g labels S (s ++ K) (some a) := by
  have hmarks : marks labels K s ⊆ marks labels [] S := by
    rw [hS, marks_append, marks_append]
    simp
  have hhead : ∀ {plain : List Stmt} {Y : List Step}, s = head labels a i plain ++ Y →
      Leads g labels S (s ++ K) (some a) := by
    rintro plain Y rfl
    rw [List.append_assoc]
    refine leads_head (List.Subset.trans ?_ hmarks)
    rw [marks_append]
    exact List.subset_append_left _ _
  cases h with
  | stop => exact hK
  | jump _ hj =>
      rcases hj with hb | ha
      · refine .outside hb (m := 1) (fun ω => Runs.one ?_) (x := []) rfl
        simp [Line.next, hr.lost a hb]
      · obtain ⟨q, hq, hfind⟩ := hr.found i a (by simp [hS]) (by simp [hS, ← hv, ha])
        refine .block hq (m := 1) (fun ω => Runs.one ?_) (by simp)
        simp [Line.next, hfind]
  | ret | go | fork | forkElse => exact hhead rfl

/-- From `q` the lines do what the block at `a` does, and lead to where that goes on. -/
def Executes (g : Graph) (labels : List Int) (S : List Step) (a : Int) (q : List Step) : Prop :=
  ∀ ω, ∃ m as ω' X t, Runs (Line.next (lines S)) m ω (lines q) as ω' (lines X) ∧
    X.length ≤ q.length ∧ Runs g.next 1 ω (some a) as ω' t ∧ Leads g labels S X t

/-- Plain statements are carried out one after the other. -/
theorem runs_plain (hp : ∀ s ∈ plain, s.IsPlain) (X : List Step) (ω : Outcomes) :
    Runs (Line.next (lines S)) plain.length ω
      (lines ((plain.map fun s => .line (.simple i s)) ++ X)) (plain.map .run) ω (lines X) := by
  induction plain with
  | nil => exact .refl
  | cons s plain ih =>
      have hs : s.IsPlain := hp s (by simp)
      have hgo : ∀ ls, Line.next (lines S) (.simple i s :: ls) = .go [.run s] ls := by
        intro ls
        cases s with
        | ret | branch | goto => exact hs.elim
        | assign | call | declare | comment => rfl
      exact .go (hgo _) (ih fun s hs => hp s (by simp [hs]))

/-- What a block does when one walks over the blocks. -/
theorem next_eq {b : Block} {e : Ending} (hb : g.block? a = some b) (hf : b.Formed plain e) :
    g.next (some a) = e.move (plain.map .run ++ e.statements.filterMap Stmt.action?) := by
  simp [Graph.next, hb, hf.ending_eq, hf.actions]

/-- A block that ends without a test goes on in one way. -/
theorem exists_next_go {b : Block} {e : Ending} {next : Option Int} (hb : g.block? a = some b)
    (hf : b.Formed plain e) (hn : e.onward? = some next) (hpass : b.ending ≠ .pass none) :
    ∃ t, next = some t ∧ g.next (some a) = .go (plain.map .run) (some t) := by
  rw [next_eq hb hf]
  rw [hf.ending_eq] at hpass
  cases e with
  | stop | fork => cases hn
  | goto t =>
      cases hn
      exact ⟨t, rfl, by simp [Ending.move, Ending.statements, Stmt.action?]⟩
  | pass onward =>
      cases hn
      cases next with
      | none => exact absurd rfl hpass
      | some t => exact ⟨t, rfl, by simp [Ending.move, Ending.statements]⟩

/-- A branch is carried out: its condition is tested, and either outcome leads where it should. -/
theorem executes_fork {b : Block} {c : Expr} {n join : Int} {other : Option Int} {Y Z : List Step}
    (hb : g.block? a = some b) (hf : b.Formed plain (.fork c n join other))
    (hY : Leads g labels S Y (some n)) (hZ : Leads g labels S Z (some (other.getD join)))
    (hskip : Line.skip true 0 (lines Y) = lines Z) (hle : Z.length ≤ Y.length) :
    Executes g labels S a
      ((plain.map fun s => .line (.simple i s)) ++ .line (.opening i c) :: Y) := by
  intro ω
  have htest : Line.next (lines S) (lines (.line (.opening i c) :: Y))
      = .ask [.test c] fun outcome => if outcome then lines Y else lines Z := by
    simp [Line.next, ← hskip]
  have hrun := (runs_plain (S := S) (i := i) hf.allPlain (.line (.opening i c) :: Y) ω).trans
    (Runs.choose htest)
  have hwalk := Runs.choose (ω := ω) (next_eq hb hf)
  cases ho : ω 0 with
  | true =>
      simp only [ho, if_true] at hrun hwalk
      exact ⟨_, _, _, Y, _, hrun, by simp; omega, hwalk, hY⟩
  | false =>
      simp only [ho, Bool.false_eq_true, if_false] at hrun hwalk
      exact ⟨_, _, _, Z, _, hrun, by simp; omega, hwalk, hZ⟩

/-- **The lines of a block do what the block does**, and lead to where it goes on. -/
theorem Laid.executes (h : Laid g labels v a? i stop s) (hr : Resolves g labels S)
    (hpass : ∀ a b, g.block? a = some b → b.ending ≠ .pass none) {pre : List Step}
    (hv : v = places pre) (hS : S = pre ++ (s ++ K)) (hK : Leads g labels S K stop) :
    ∀ x ∈ marks labels K s, Executes g labels S x.1 x.2 := by
  -- the steps before a part of the layout place what is placed before it
  induction h generalizing pre K with
  | nothing | stop | jump => simp [marks]
  | @ret v a i stop b plain values hs hb ha hf =>
      rw [marks_append, marks_head]
      simp only [marks, List.append_nil, List.mem_singleton]
      rintro _ rfl ω
      have hstop : Line.next (lines S) (lines (.line (.simple i (.ret values)) :: K))
          = .go [.run (.ret values)] (lines []) := rfl
      exact ⟨_, _, ω, [], none, (runs_plain hf.allPlain _ ω).trans (Runs.one hstop), by simp,
        Runs.one (next_eq hb hf), leads_nil⟩
  | @go v a i stop b plain e next s hs hb ha hf hn hlaid ih =>
      rw [marks_append, marks_head]
      have hpre : v ++ [a] = places (pre ++ head labels a i plain) := by simp [hv]
      have hS' : S = (pre ++ head labels a i plain) ++ (s ++ K) := by simp [hS]
      rintro x hx
      rcases List.mem_append.mp hx with hx | hx
      · obtain rfl := List.mem_singleton.mp hx
        intro ω
        obtain ⟨t, rfl, hmove⟩ := exists_next_go hb hf hn (hpass a b hb)
        exact ⟨_, _, ω, s ++ K, some t, runs_plain hf.allPlain _ ω, by simp, Runs.one hmove,
          hlaid.leads hr hpre hS' hK⟩
      · exact ih hpre hS' hK x hx
  | @fork v a i stop b plain c n join s₁ s₂ hs hb ha hf h₁ h₂ ih₁ ih₂ =>
      let pre₁ := pre ++ (head labels a i plain ++ [.line (.opening i c)])
      let pre₂ := pre₁ ++ (s₁ ++ [.line (.closing i)])
      have hv₁ : v ++ [a] = places pre₁ := by simp [pre₁, hv]
      have hv₂ : v ++ [a] ++ places s₁ = places pre₂ := by simp [pre₂, ← hv₁]
      have hS₁ : S = pre₁ ++ (s₁ ++ .line (.closing i) :: (s₂ ++ K)) := by simp [pre₁, hS]
      have hS₂ : S = pre₂ ++ (s₂ ++ K) := by simp [pre₂, hS₁]
      have hjoin := h₂.leads hr hv₂ hS₂ hK
      have hclose : Leads g labels S (.line (.closing i) :: (s₂ ++ K)) (some join) :=
        hjoin.step rfl
      have hthen := h₁.leads hr hv₁ hS₁ hclose
      rw [marks_append, marks_head, marks_line, marks_append]
      rintro x hx
      simp only [List.mem_append, List.mem_singleton, marks_line] at hx
      rcases hx with rfl | hx | hx
      · have hskip : Line.skip true 0 (lines (s₁ ++ .line (.closing i) :: (s₂ ++ K)))
            = lines (s₂ ++ K) := by
          rw [lines_append, h₁.balanced]
          rfl
        simpa using executes_fork hb hf hthen hjoin hskip (by simp; omega)
      · exact ih₁ hv₁ hS₁ hclose x hx
      · exact ih₂ hv₂ hS₂ hK x hx
  | @forkElse v a i stop b plain c n join t s₁ s₂ s₃ hs hb ha hf h₁ h₂ h₃ ih₁ ih₂ ih₃ =>
      let pre₁ := pre ++ (head labels a i plain ++ [.line (.opening i c)])
      let pre₂ := pre₁ ++ (s₁ ++ [.line (.otherwise i)])
      let pre₃ := pre₂ ++ (s₂ ++ [.line (.closing i)])
      have hv₁ : v ++ [a] = places pre₁ := by simp [pre₁, hv]
      have hv₂ : v ++ [a] ++ places s₁ = places pre₂ := by simp [pre₂, ← hv₁]
      have hv₃ : v ++ [a] ++ places s₁ ++ places s₂ = places pre₃ := by simp [pre₃, ← hv₂]
      have hS₁ : S = pre₁ ++ (s₁ ++ .line (.otherwise i) ::
          (s₂ ++ .line (.closing i) :: (s₃ ++ K))) := by simp [pre₁, hS]
      have hS₂ : S = pre₂ ++ (s₂ ++ .line (.closing i) :: (s₃ ++ K)) := by simp [pre₂, hS₁]
      have hS₃ : S = pre₃ ++ (s₃ ++ K) := by simp [pre₃, hS₂]
      have hjoin := h₃.leads hr hv₃ hS₃ hK
      have hclose : Leads g labels S (.line (.closing i) :: (s₃ ++ K)) (some join) :=
        hjoin.step rfl
      have helse := h₂.leads hr hv₂ hS₂ hclose
      have hover : Leads g labels S
          (.line (.otherwise i) :: (s₂ ++ .line (.closing i) :: (s₃ ++ K))) (some join) := by
        refine hjoin.step ?_
        rw [lines_line, Line.next, lines_append, h₂.balanced]
        rfl
      have hthen := h₁.leads hr hv₁ hS₁ hover
      rw [marks_append, marks_head, marks_line, marks_append, marks_line, marks_append]
      rintro x hx
      simp only [List.mem_append, List.mem_singleton, marks_line] at hx
      rcases hx with rfl | hx | hx | hx
      · have hskip : Line.skip true 0 (lines (s₁ ++ .line (.otherwise i) ::
              (s₂ ++ .line (.closing i) :: (s₃ ++ K))))
            = lines (s₂ ++ .line (.closing i) :: (s₃ ++ K)) := by
          rw [lines_append, h₁.balanced]
          rfl
        simpa using executes_fork hb hf hthen helse hskip (by simp; omega)
      · exact ih₁ hv₁ hS₁ hover x (by simpa using hx)
      · exact ih₂ hv₂ hS₂ hclose x (by simpa using hx)
      · exact ih₃ hv₃ hS₃ hK x hx

/-- **The lines follow the blocks.** -/
theorem follows
    (hex : ∀ x ∈ marks labels [] S, Executes g labels S x.1 x.2) :
    Follows (Line.next (lines S)) g.next
      fun k ls t => ∃ X, ls = lines X ∧ k = X.length ∧ Leads g labels S X t := by
  rintro k _ a? ⟨X, rfl, rfl, hX⟩ ω
  cases hX with
  | outside ha hrun hx => exact Or.inl ⟨by simp [Graph.next, ha], _, _, hrun ω, hx⟩
  | @block q a m hq hrun hrank =>
      obtain ⟨m', as, ω', X', t, hrun', hle, hwalk, hX'⟩ := hex (a, q) hq ω
      refine Or.inr ⟨m + m', as, ω', lines X', t, X'.length, ?_, hwalk, ⟨X', rfl, rfl, hX'⟩, ?_⟩
      · simpa using (hrun ω).trans hrun'
      · intro h0
        exact Nat.lt_of_le_of_lt hle (hrank (by omega))

end Layout

/-! ### Walking by the last instructions -/

/-- Walking over the blocks of a routine by their last instructions: a conditional jump goes on
behind itself when its condition holds and to its target when it fails, a jump goes to its target, a
return goes nowhere, and everything else goes on behind itself. -/
def Routine.next (r : Routine) (a? : Option Int) : Move Action (Option Int) :=
  match a?.bind r.graph.block? with
  | none => .halt
  | some b =>
    match b.tape.instructions.getLast? with
    | none => .halt
    | some last =>
      if last.isConditional then
        .ask b.actions fun outcome =>
          if outcome then last.fallThrough? r.code else last.branchTarget?
      else if last.kind = .op .leave then .go b.actions none
      else if last.kind = .op .jump then .go b.actions last.branchTarget?
      else .go b.actions (last.fallThrough? r.code)

/-- The code ends with a return or a jump, so that control cannot run out of it. -/
def Routine.IsSealed (r : Routine) : Prop :=
  ∃ last, r.code.getLast? = some last ∧ (last.kind = .op .leave ∨ last.kind = .op .jump)

/-- In sealed code something stands behind every instruction that falls through. -/
theorem Routine.IsSealed.fallThrough? {r : Routine} (h : r.IsSealed) {i : Instruction}
    (hi : i ∈ r.code) (hl : i.kind ≠ .op .leave) (hj : i.kind ≠ .op .jump) :
    ∃ n, i.fallThrough? r.code = some n := by
  obtain ⟨last, hlast, hk⟩ := h
  obtain ⟨pre, post, hcode, hpre⟩ := List.eq_append_cons_of_mem hi
  cases post with
  | nil =>
      rw [hcode, List.getLast?_concat, Option.some.injEq] at hlast
      rw [← hlast] at hk
      exact absurd hk (not_or.mpr ⟨hl, hj⟩)
  | cons k post =>
      refine ⟨k.address, ?_⟩
      rw [Instruction.fallThrough?, if_neg (not_or.mpr ⟨hl, hj⟩), hcode, addressBehind?_append hpre]
      rfl

namespace Routine.IsLifted

variable {r : Routine}

theorem ending_ne_pass (h : r.IsLifted) (hs : r.IsSealed) {a : Int} {b : Block}
    (hb : r.graph.block? a = some b) : b.ending ≠ .pass none := by
  obtain ⟨last, plain, e, hends, hl⟩ := h.blocks a b hb
  rw [hl.toFormed.ending_eq]
  rintro rfl
  have hfits := hl.fits
  rw [hends.fallthrough] at hfits
  generalize hft : last.fallThrough? r.code = ft at hfits
  cases hfits with
  | pass ht =>
      have hn : ¬ last.isTransfer = true := by simp [ht]
      rw [isTransfer_iff, not_or, not_or] at hn
      obtain ⟨n, hn⟩ := hs.fallThrough? hends.mem hn.1 hn.2.1
      rw [hn] at hft
      cases hft

/-- **The endings lead where the last instructions do.** -/
theorem next_eq (h : r.IsLifted) (hs : r.IsSealed) : r.next = r.graph.next := by
  funext a?
  unfold Routine.next Graph.next
  cases hb : a?.bind r.graph.block? with
  | none => rfl
  | some b =>
      obtain ⟨a, -, hb⟩ := Option.bind_eq_some_iff.mp hb
      obtain ⟨last, plain, e, hends, hl⟩ := h.blocks a b hb
      obtain ⟨rest, hrest, -⟩ := hends.ends
      have hfits := hl.fits
      have hft := hends.fallthrough
      simp only [hrest, List.getLast?_concat, hl.toFormed.ending_eq, ← hft]
      cases hfits with
      | stop hk => simp [Ending.move, not_conditional_of_leave hk, hk]
      | goto hk ht => simp [Ending.move, not_conditional_of_jump hk, hk, ht]
      | dangling hc ht hn =>
          have hk := not_leave_jump_of_conditional hc
          obtain ⟨n, hn'⟩ := hs.fallThrough? hends.mem hk.1 hk.2
          rw [hft, hn'] at hn
          cases hn
      | @fork t n c hc ht hn =>
          rw [hn]
          rcases Ending.elseBranch_eq r n t with he | ⟨join, he⟩ <;> simp [Ending.move, hc, ht, he]
      | pass ht =>
          have hk : ¬ last.isTransfer = true := by simp [ht]
          rw [isTransfer_iff, not_or, not_or] at hk
          simp [Ending.move, hk.1, hk.2.1, hk.2.2]

/-- Every `goto` of the body can be followed. -/
theorem resolves (h : r.IsLifted) :
    Layout.Resolves r.graph r.neededLabels (r.bodySteps r.neededLabels) where
  found i a hgoto hp := by
    have hl : a ∈ r.neededLabels := by
      rw [neededLabels, h.body_eq, bodySteps, ← Layout.targets_lay r.neededLabels]
      exact List.mem_filterMap.mpr ⟨.goto i a, List.mem_filterMap.mpr ⟨_, hgoto, rfl⟩, rfl⟩
    obtain ⟨q, hq, hfind⟩ := ((h.laid _).finds a []).1 hl hp
    exact ⟨q, hq, by simpa using hfind⟩
  lost a hb := by
    have hp : a ∉ Layout.places (r.bodySteps r.neededLabels) := fun hp =>
      Graph.block?_eq_none_iff.mp hb ((h.laid _).places_subset a hp)
    simpa [Line.findLabel] using ((h.laid _).finds a []).2 hp

end Routine.IsLifted

namespace Program

/-- **The text keeps the control flow.**  Lift a routine whose code ends with a return or a jump,
and read the lines of its body as a program.  Whatever the outcomes of the conditions are, it
carries out the same statements and tests the same conditions, in the same order, as a walk over the
blocks from the entry by their last instructions, and it stops where the walk does. -/
theorem lift_sameBehavior (p : Program) (r : Routine) (hp : p.handled = Opcode.all)
    (hd : (r.code.map (·.address)).Nodup) (hs : r.IsSealed) (h : (p.lift r).value = .ok ()) :
    SameBehavior (Line.next (p.lift r).state.2.lines) (p.lift r).state.2.lines
      (p.lift r).state.2.next (some r.address) := by
  have hcode : r.code ≠ [] := by
    rintro hnil
    obtain ⟨last, hlast, -⟩ := hs
    simp [hnil] at hlast
  obtain ⟨hc, ha, hl⟩ := isLifted_lift hp hd hcode h
  generalize (p.lift r).state.2 = r' at hc ha hl
  have hs' : r'.IsSealed := by rwa [Routine.IsSealed, hc]
  have hlaid := hl.laid r'.neededLabels
  have hS : r'.bodySteps r'.neededLabels = [] ++ (r'.bodySteps r'.neededLabels ++ []) := by simp
  rw [hl.next_eq hs', Routine.lines, hl.body_eq, ← ha]
  have hex := hlaid.executes hl.resolves (fun a b hb => hl.ending_ne_pass hs' hb) rfl hS
    Layout.leads_nil
  refine (Layout.follows hex).sameBehavior ⟨_, rfl, rfl, ?_⟩
  simpa using hlaid.leads hl.resolves rfl hS Layout.leads_nil

/-- A loop that is left when its condition fails. -/
theorem lift_sameBehavior_loop :
    let r : Routine := {
      name := "spin"
      address := 0
      code := [⟨0, .op (.load .static), .slot 0⟩, ⟨1, .op .jumpIfZero, .branch 3⟩,
        ⟨2, .op .jump, .branch 0⟩, ⟨3, .op .leave, .ret 0 0⟩] }
    let r' := (Program.lift { name := "spin", code := [] } r).state.2
    SameBehavior (Line.next r'.lines) r'.lines r'.next (some 0) :=
  lift_sameBehavior _ _ rfl (by decide) ⟨_, rfl, Or.inl rfl⟩ (by cbv)

end Program

end ScriptLift
