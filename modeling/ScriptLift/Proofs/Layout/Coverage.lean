import Mathlib
import ScriptLift.Proofs.Layout.Shape
import ScriptLift.Proofs.Lift.Walk

/-!
# Every block is laid out once

A layout places no block twice, because it places none that was placed before (`Layout.Laid.nodup`).
That it places every block needs more of an argument: a region says nothing of its `stop` and relies
on whatever stands around it to go on there.  So a region covers its start and the exits of its
blocks up to its `stop` (`Layout.Laid.covers`), and the body of a routine, which has no `stop`,
covers all that the entry leads to.

What a block does stands in the lines where it was placed (`Layout.Laid.actions`).
-/

namespace ScriptLift

/-- What a program can be seen to do: to carry out a statement, or to test a condition. -/
inductive Action where
  | run (s : Stmt)
  | test (condition : Expr)

/-- A `goto` does nothing that can be seen. -/
def Stmt.action? : Stmt → Option Action
  | branch condition .. => some (.test condition)
  | goto _ => none
  | s => some (.run s)

/-- What a line does. -/
def Line.action? : Line → Option Action
  | simple _ s => some (.run s)
  | opening _ condition => some (.test condition)
  | _ => none

/-- What the statements of a block do, in order. -/
def Block.actions (b : Block) : List Action :=
  b.statements.filterMap Stmt.action?

theorem Stmt.IsPlain.action? {s : Stmt} (h : s.IsPlain) : s.action? = some (.run s) := by
  cases s with
  | branch | goto | ret => exact h.elim
  | assign | call | declare | comment => rfl

theorem filterMap_action?_plain {plain : List Stmt} (h : ∀ s ∈ plain, s.IsPlain) :
    plain.filterMap Stmt.action? = plain.map .run := by
  induction plain with
  | nil => rfl
  | cons s plain ih =>
      rw [List.filterMap_cons_some (h s (by simp)).action?, ih fun s hs => h s (by simp [hs])]
      rfl

theorem Block.Formed.actions {b : Block} {plain : List Stmt} {e : Ending} (h : b.Formed plain e) :
    b.actions = plain.map .run ++ e.statements.filterMap Stmt.action? := by
  rw [Block.actions, h.statements, List.filterMap_append, filterMap_action?_plain h.allPlain]

namespace Layout

variable {g : Graph} {labels v : List Int} {a? stop : Option Int} {i : Int} {s : List Step}

/-! ### The lines of a block -/

theorem actions_head (labels : List Int) (a i : Int) (plain : List Stmt) :
    (lines (head labels a i plain)).filterMap Line.action? = plain.map .run := by
  have hlabel : (lines (labelLine labels a i)).filterMap Line.action? = [] := by
    unfold labelLine
    split <;> rfl
  have hplain : (lines (plain.map fun s => .line (.simple i s))).filterMap Line.action?
      = plain.map .run := by
    induction plain with
    | nil => rfl
    | cons s plain ih => rw [List.map_cons, lines_line, List.filterMap_cons, ih]; rfl
  rw [head, lines_place, lines_append, List.filterMap_append, hlabel, hplain, List.nil_append]

/-- **What the lines do is what the blocks placed there do.** -/
theorem Laid.actions (h : Laid g labels v a? i stop s) :
    (lines s).filterMap Line.action? = ((places s).filterMap g.block?).flatMap Block.actions := by
  induction h with
  | nothing | stop | jump => rfl
  | ret _ hb _ hf =>
      simp [actions_head, hb, hf.actions, Ending.statements, Stmt.action?, Line.action?]
  | @go _ _ _ _ _ _ e _ _ _ hb _ hf hn _ ih =>
      have hnone : e.statements.filterMap Stmt.action? = [] := by
        cases e with
        | goto | pass => rfl
        | stop | fork => cases hn
      simp [actions_head, hb, hf.actions, hnone, ih]
  | fork _ hb _ hf _ _ ih₁ ih₂ =>
      simp [actions_head, hb, hf.actions, Ending.statements, Stmt.action?, Line.action?,
        List.filterMap_cons, ih₁, ih₂]
  | forkElse _ hb _ hf _ _ _ ih₁ ih₂ ih₃ =>
      simp [actions_head, hb, hf.actions, Ending.statements, Stmt.action?, Line.action?,
        List.filterMap_cons, ih₁, ih₂, ih₃]

/-! ### No block is placed twice -/

theorem Laid.nodup (h : Laid g labels v a? i stop s) (hv : v.Nodup) : (v ++ places s).Nodup := by
  -- the blocks placed before a part of the layout are placed before all that is in it
  have add : ∀ {v : List Int} {a : Int}, v.Nodup → a ∉ v → (v ++ [a]).Nodup := by
    intro v a hv ha
    simpa [List.nodup_append, hv] using fun c hc (hca : c = a) => ha (hca ▸ hc)
  induction h with
  | nothing | stop | jump => simpa using hv
  | ret _ _ ha _ => simpa using add hv ha
  | go _ _ ha _ _ _ ih => simpa [List.append_assoc] using ih (add hv ha)
  | fork _ _ ha _ _ _ ih₁ ih₂ => simpa [List.append_assoc] using ih₂ (ih₁ (add hv ha))
  | forkElse _ _ ha _ _ _ _ ih₁ ih₂ ih₃ =>
      simpa [List.append_assoc] using ih₃ (ih₂ (ih₁ (add hv ha)))

/-- Only blocks of the graph are placed. -/
theorem Laid.places_subset (h : Laid g labels v a? i stop s) : ∀ a ∈ places s, a ∈ g.starts := by
  induction h with
  | nothing | stop | jump => simp
  | ret _ hb _ _ => simpa using Graph.mem_starts_of_block? hb
  | go _ hb _ _ _ _ ih => simpa using ⟨Graph.mem_starts_of_block? hb, ih⟩
  | fork _ hb _ _ _ _ ih₁ ih₂ =>
      rintro a ha
      simp only [places_append, places_head, places_line, List.cons_append, List.nil_append,
        List.mem_cons, List.mem_append] at ha
      rcases ha with rfl | ha | ha
      · exact Graph.mem_starts_of_block? hb
      · exact ih₁ a ha
      · exact ih₂ a ha
  | forkElse _ hb _ _ _ _ _ ih₁ ih₂ ih₃ =>
      rintro a ha
      simp only [places_append, places_head, places_line, List.cons_append, List.nil_append,
        List.mem_cons, List.mem_append] at ha
      rcases ha with rfl | ha | ha | ha
      · exact Graph.mem_starts_of_block? hb
      · exact ih₁ a ha
      · exact ih₂ a ha
      · exact ih₃ a ha

/-! ### Every block is placed -/

/-- If there is a block at `t`, it is in `w` or it is the `stop`. -/
def Settled (g : Graph) (w : List Int) (stop : Option Int) (t : Int) : Prop :=
  t ∈ g.starts → t ∈ w ∨ stop = some t

variable {w w' : List Int} {t join : Int}

theorem Settled.mono (h : Settled g w stop t) (hw : w ⊆ w') : Settled g w' stop t :=
  fun ht => (h ht).imp_left (hw ·)

/-- What a region leaves to its `stop` is settled where the `stop` is. -/
theorem Settled.through (h : Settled g w (some join) t) (hw : w ⊆ w')
    (hj : Settled g w' stop join) : Settled g w' stop t := by
  intro ht
  rcases h ht with hin | hjoin
  · exact Or.inl (hw hin)
  · obtain rfl : join = t := Option.some.inj hjoin
    exact hj ht

/-- A region settles the block it starts with. -/
theorem Laid.settled_start {a : Int} (h : Laid g labels v (some a) i stop s) :
    Settled g (v ++ places s) stop a := by
  intro ha
  cases h with
  | stop => exact Or.inr rfl
  | jump _ hj =>
      rcases hj with hb | hv
      · exact absurd ha (Graph.block?_eq_none_iff.mp hb)
      · exact Or.inl (by simp [hv])
  | ret | go | fork | forkElse => exact Or.inl (by simp)

/-- **A region settles the exits of the blocks placed in it.** -/
theorem Laid.settled_exits (h : Laid g labels v a? i stop s) :
    ∀ a ∈ places s, ∀ b, g.block? a = some b → ∀ t ∈ b.ending.exits,
      Settled g (v ++ places s) stop t := by
  induction h with
  | nothing | stop | jump => simp
  | @ret v a i stop b plain values hs hb ha hf =>
      intro c hc b' hb' t ht
      obtain rfl : c = a := by simpa using hc
      obtain rfl : b' = b := Option.some.inj (hb'.symm.trans hb)
      rw [hf.ending_eq] at ht
      simp [Ending.exits] at ht
  | @go v a i stop b plain e next s hs hb ha hf hn hlaid ih =>
      intro c hc b' hb' t ht
      have hsub : v ++ [a] ++ places s ⊆ v ++ places (head labels a i plain ++ s) := by simp
      rw [places_append, places_head, List.singleton_append, List.mem_cons] at hc
      rcases hc with rfl | hc
      · obtain rfl : b' = b := Option.some.inj (hb'.symm.trans hb)
        rw [hf.ending_eq] at ht
        obtain rfl : next = some t := by
          cases e with
          | goto => simp_all [Ending.exits, Ending.onward?]
          | pass => simp_all [Ending.exits, Ending.onward?]
          | stop | fork => cases hn
        exact hlaid.settled_start.mono hsub
      · exact (ih c hc b' hb' t ht).mono hsub
  | @fork v a i stop b plain c n join s₁ s₂ hs hb ha hf h₁ h₂ ih₁ ih₂ =>
      intro x hx b' hb' t ht
      have hsub : v ++ [a] ++ places s₁ ++ places s₂
          ⊆ v ++ places (head labels a i plain ++ .line (.opening i c) ::
            (s₁ ++ .line (.closing i) :: s₂)) := by simp
      have hsub₁ : v ++ [a] ++ places s₁ ⊆ v ++ [a] ++ places s₁ ++ places s₂ :=
        List.subset_append_left _ _
      have hjoin := h₂.settled_start
      simp only [places_append, places_head, places_line, List.singleton_append, List.mem_cons,
        List.mem_append] at hx
      refine Settled.mono ?_ hsub
      -- what the first part leaves to the join is settled by the layout of the join
      rcases hx with rfl | hx | hx
      · obtain rfl : b' = b := Option.some.inj (hb'.symm.trans hb)
        rw [hf.ending_eq, Ending.exits] at ht
        rcases (by simpa using ht : t = n ∨ t = join) with rfl | rfl
        · exact h₁.settled_start.through hsub₁ hjoin
        · exact hjoin
      · exact (ih₁ x hx b' hb' t ht).through hsub₁ hjoin
      · exact ih₂ x hx b' hb' t ht
  | @forkElse v a i stop b plain c n join t' s₁ s₂ s₃ hs hb ha hf h₁ h₂ h₃ ih₁ ih₂ ih₃ =>
      intro x hx b' hb' t ht
      have hsub : v ++ [a] ++ places s₁ ++ places s₂ ++ places s₃
          ⊆ v ++ places (head labels a i plain ++ .line (.opening i c) ::
            (s₁ ++ .line (.otherwise i) :: (s₂ ++ .line (.closing i) :: s₃))) := by simp
      have hsub₂ : v ++ [a] ++ places s₁ ++ places s₂
          ⊆ v ++ [a] ++ places s₁ ++ places s₂ ++ places s₃ := List.subset_append_left _ _
      have hsub₁ : v ++ [a] ++ places s₁ ⊆ v ++ [a] ++ places s₁ ++ places s₂ ++ places s₃ :=
        List.Subset.trans (List.subset_append_left _ _) hsub₂
      have hjoin := h₃.settled_start
      simp only [places_append, places_head, places_line, List.singleton_append, List.mem_cons,
        List.mem_append] at hx
      refine Settled.mono ?_ hsub
      rcases hx with rfl | hx | hx | hx
      · obtain rfl : b' = b := Option.some.inj (hb'.symm.trans hb)
        rw [hf.ending_eq, Ending.exits] at ht
        rcases (by simpa using ht : t = n ∨ t = t') with rfl | rfl
        · exact h₁.settled_start.through hsub₁ hjoin
        · exact h₂.settled_start.through hsub₂ hjoin
      · exact (ih₁ x hx b' hb' t ht).through hsub₁ hjoin
      · exact (ih₂ x hx b' hb' t ht).through hsub₂ hjoin
      · exact ih₃ x hx b' hb' t ht

end Layout

/-! ### Lifted routines -/

/-- The steps that lay out the body of a routine. -/
def Routine.bodySteps (r : Routine) (labels : List Int) : List Layout.Step :=
  Layout.lay r.graph labels [] [.region (some r.address) 1 none]

namespace Routine.IsLifted

variable {r : Routine}

theorem laid (h : r.IsLifted) (labels : List Int) :
    Layout.Laid r.graph labels [] (some r.address) 1 none (r.bodySteps labels) := by
  refine Layout.laid_lay (fun a b hb => ?_) _ _ _ _
  obtain ⟨last, plain, e, -, hl⟩ := h.blocks a b hb
  exact ⟨plain, e, hl.toFormed⟩

theorem body_eq (h : r.IsLifted) (labels : List Int) :
    r.body labels = Layout.lines (r.bodySteps labels) := by
  obtain ⟨b, hb⟩ := Graph.exists_block?_iff.mpr h.origin
  simp [body, hb, bodySteps]

/-- The ending of a block leads to all its successors. -/
theorem mem_exits (h : r.IsLifted) {b : Block} (hb : b ∈ r.graph.blocks) {t : Int}
    (ht : t ∈ b.successors) : t ∈ b.ending.exits := by
  obtain ⟨last, plain, e, hends, hl⟩ := h.blocks _ b (Graph.block?_start h.nodup hb)
  have hfits := hl.fits
  rw [hends.fallthrough] at hfits
  rw [hends.successors] at ht
  rw [hl.toFormed.ending_eq]
  exact hfits.mem_exits ht

/-- **Every block is placed.** -/
theorem mem_places (h : r.IsLifted) (labels : List Int) {a : Int}
    (ha : r.graph.Reached r.address a) (hs : a ∈ r.graph.starts) :
    a ∈ Layout.places (r.bodySteps labels) := by
  have hlaid := h.laid labels
  induction ha with
  | entry => simpa using hlaid.settled_start hs
  | @step b t hb _ ht ih =>
      have hin := ih (Graph.mem_starts hb)
      simpa using hlaid.settled_exits _ hin b (Graph.block?_start h.nodup hb) t
        (h.mem_exits hb ht) hs

theorem perm_places (h : r.IsLifted) (labels : List Int) :
    (Layout.places (r.bodySteps labels)).Perm r.graph.starts := by
  have hlaid := h.laid labels
  refine (List.perm_ext_iff_of_nodup ?_ h.nodup).mpr fun a => ?_
  · simpa using hlaid.nodup (by simp)
  · exact ⟨hlaid.places_subset a, fun ha => h.mem_places labels (h.reached a ha) ha⟩

/-- The blocks in the order of the layout, each once, do what the lines of the body do. -/
theorem perm_blocks (h : r.IsLifted) :
    ∃ order : List Block, order.Perm r.graph.blocks ∧
      order.map (·.start) = Layout.places (r.bodySteps r.neededLabels) ∧
      r.lines.filterMap Line.action? = order.flatMap Block.actions := by
  refine ⟨(Layout.places (r.bodySteps r.neededLabels)).filterMap r.graph.block?, ?_, ?_, ?_⟩
  · exact Graph.filterMap_block?_starts h.nodup ▸ (h.perm_places _).filterMap _
  · exact Graph.map_start_filterMap_block? fun a ha => (h.perm_places _).mem_iff.mp ha
  · rw [lines, h.body_eq]
    exact (h.laid _).actions

end Routine.IsLifted

namespace Program

/-- **Every block is rendered exactly once.**  When lifting succeeds, the layout of the body places
the start of each block once, and what the lines of the body do is what the blocks do, one block
after the other in the order they are placed.  Without code there is nothing to discover, and the
blocks that were there before stay. -/
theorem lift_renders_blocks_once (p : Program) (r : Routine) (hp : p.handled = Opcode.all)
    (hd : (r.code.map (·.address)).Nodup) (hc : r.code = [] → r.graph.blocks = [])
    (h : (p.lift r).value = .ok ()) :
    let r' := (p.lift r).state.2
    (Layout.places (r'.bodySteps r'.neededLabels)).Perm r'.graph.starts ∧
      ∃ order : List Block, order.Perm r'.graph.blocks ∧
        order.map (·.start) = Layout.places (r'.bodySteps r'.neededLabels) ∧
        r'.lines.filterMap Line.action? = order.flatMap Block.actions := by
  intro r'
  by_cases hcode : r.code = []
  · have hb : ∀ a, r.graph.block? a = none := fun a => by simp [Graph.block?, hc hcode]
    have hl : r' = r := by
      simp [r', lift, Routine.discover, hcode, Stage.interpret, hb]
    have hplaces : Layout.places (r.bodySteps r.neededLabels) = [] := by
      rw [Routine.bodySteps, Layout.lay_region_jump (by simp) (.inl (hb _)), Layout.lay_nil]
      rfl
    rw [hl, hplaces]
    refine ⟨?_, [], ?_, rfl, ?_⟩
    · simp [Graph.starts, hc hcode]
    · rw [hc hcode]
    · simp [Routine.lines, Routine.body, hb]
  · have hlifted := (isLifted_lift hp hd hcode h).2.2
    exact ⟨hlifted.perm_places _, hlifted.perm_blocks⟩

/-- A branch that a jump leads back to. -/
theorem lift_renders_blocks_once_backEdge :
    let r : Routine := {
      name := "retry"
      address := 0
      code := [⟨0, .op (.load .static), .slot 0⟩, ⟨1, .op .jumpIfZero, .branch 5⟩,
        ⟨2, .op .push, .push [.int 1]⟩, ⟨3, .op (.store .static), .slot 0⟩,
        ⟨4, .op .jump, .branch 0⟩, ⟨5, .op .leave, .ret 0 0⟩] }
    let r' := (Program.lift { name := "retry", code := [] } r).state.2
    (Layout.places (r'.bodySteps r'.neededLabels)).Perm r'.graph.starts ∧
      ∃ order : List Block, order.Perm r'.graph.blocks ∧
        order.map (·.start) = Layout.places (r'.bodySteps r'.neededLabels) ∧
        r'.lines.filterMap Line.action? = order.flatMap Block.actions :=
  lift_renders_blocks_once _ _ rfl (by decide) (by simp) (by cbv)

/-- A block made by hand in a routine without code is never rendered. -/
theorem lift_keeps_block_unrendered :
    let p : Program := { name := "bare", code := [] }
    let r : Routine := {
      name := "bare"
      address := 0
      code := []
      graph := ⟨[{ start := 5, statements := [.comment "kept"] }]⟩ }
    (p.lift r).value = .ok () ∧ ¬ ∃ order : List Block, order.Perm (p.lift r).state.2.graph.blocks ∧
      (p.lift r).state.2.lines.filterMap Line.action? = order.flatMap Block.actions := by
  intro p r
  have hlift : p.lift r = ⟨.ok (), (p, r), []⟩ := by
    simp [p, r, lift, Routine.discover, Stage.interpret, Graph.block?]
  rw [hlift]
  refine ⟨rfl, ?_⟩
  rintro ⟨order, hperm, hlines⟩
  have hone : order = r.graph.blocks := List.perm_singleton.mp hperm
  have hnone : r.lines = [] := by simp [r, Routine.lines, Routine.body, Graph.block?]
  rw [hone, hnone] at hlines
  cases hlines

end Program

end ScriptLift
