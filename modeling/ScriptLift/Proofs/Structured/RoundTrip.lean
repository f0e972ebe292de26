import ScriptLift.Proofs.Layout.Reading
import ScriptLift.Proofs.Structured.Rendering

/-!
# Lifting undoes compilation

The main statement is `Source.lines_lift_code`: lifting the code of a structured program and laying
it out gives back the text of the program.  The layout of the body is `Body.renders`; what is left
are the labels.  The text jumps back to the heads of its loops and nowhere else
(`Body.mem_targets_lines`), and labels do not change where a layout jumps to, so the labels that the
layout puts are those of the loops.
-/

namespace ScriptLift.Structured

open Layout

/-! ### Labels -/

namespace Body

variable {address : Nat → Int} {locals : Nat → Reference} {labels : List Int} {k j : Nat}

/-- The positions of the loops. -/
def heads (k : Nat) : Body → List Nat
  | done => []
  | act s next => next.heads (k + s.ops.length)
  | branch c body next =>
    let first := k + c.ops.length + 1
    body.heads first ++ next.heads (first + body.size)
  | choice c yes no next =>
    let first := k + c.ops.length + 1
    let second := first + yes.size + 1
    yes.heads first ++ (no.heads second ++ next.heads (second + no.size))
  | loop c body next =>
    let first := k + c.ops.length + 1
    k :: (body.heads first ++ next.heads (first + body.size + 1))

@[grind →]
theorem le_of_mem_heads {b : Body} (h : j ∈ b.heads k) : k ≤ j ∧ j < k + b.size := by
  induction b generalizing k with
  | done => simp [heads] at h
  | act s next ih =>
      have := ih h
      simp only [size]
      omega
  | branch c body next ihb ihn =>
      simp only [heads, List.mem_append] at h
      simp only [size]
      rcases h with h | h
      · have := ihb h
        omega
      · have := ihn h
        omega
  | choice c yes no next ihy ihn ihx =>
      simp only [heads, List.mem_append] at h
      simp only [size]
      rcases h with h | h | h
      · have := ihy h
        omega
      · have := ihn h
        omega
      · have := ihx h
        omega
  | loop c body next ihb ihn =>
      simp only [heads, List.mem_cons, List.mem_append] at h
      simp only [size]
      rcases h with rfl | h | h
      · omega
      · have := ihb h
        omega
      · have := ihn h
        omega

/-- **The text of a body jumps to the heads of its loops** and nowhere else. -/
theorem mem_targets_lines {b : Body} {i a : Int} :
    a ∈ (b.lines locals address k i).filterMap Line.target? ↔ ∃ j ∈ b.heads k, address j = a := by
  rw [← List.mem_map]
  induction b generalizing k i with
  | done => simp [lines, heads]
  | act s next ih => simpa [lines, heads, Line.target?] using ih
  | branch c body next ihb ihn =>
      simp only [lines, heads, List.filterMap_cons, List.filterMap_append, Line.target?,
        List.mem_append, List.map_append, ihb, ihn]
  | choice c yes no next ihy ihn ihx =>
      simp only [lines, heads, List.filterMap_cons, List.filterMap_append, Line.target?,
        List.mem_append, List.map_append, ihy, ihn, ihx]
  | loop c body next ihb ihn =>
      simp only [lines, heads, List.filterMap_cons, List.filterMap_append, Line.target?,
        List.mem_append, List.map_append, List.map_cons, List.mem_cons, ihb, ihn]
      grind

/-- Labels on the heads of loops and nowhere else in a body. -/
theorem marked {b : Body}
    (h : ∀ j, k ≤ j → j < k + b.size → (address j ∈ labels ↔ j ∈ b.heads k)) :
    b.Marked address labels k := by
  -- each part has its own range of positions, and its loops are in that range
  induction b generalizing k with
  | done => trivial
  | act s next ih =>
      have hpos := List.length_pos_iff.mpr s.ops_ne_nil
      simp only [heads, size] at h
      exact ⟨by grind, ih (by grind)⟩
  | branch c body next ihb ihn =>
      simp only [heads, size, List.mem_append] at h
      exact ⟨by grind, ihb (by grind), ihn (by grind)⟩
  | choice c yes no next ihy ihn ihx =>
      simp only [heads, size, List.mem_append] at h
      exact ⟨by grind, ihy (by grind), by grind, ihn (by grind), ihx (by grind)⟩
  | loop c body next ihb ihn =>
      simp only [heads, size, List.mem_cons, List.mem_append] at h
      exact ⟨by grind, ihb (by grind), by grind, ihn (by grind)⟩

end Body

/-! ### Texts -/

section Texts

variable {address : Nat → Int} (locals : Nat → Reference)

mutual

/-- Every term has a text; by recursion on it. -/
theorem Term.hasText_expr (e : Term) : (e.expr locals).hasText = true := by
  match e with
  | .int value => rfl
  | .var v => rfl
  | .binary o left right =>
      rw [Term.expr, Expr.hasText, left.hasText_expr, right.hasText_expr, Bool.and_self]
  | .unary o operand => rw [Term.expr, Expr.hasText, operand.hasText_expr]
  | .native f args => rw [Term.expr, Expr.hasText, Term.allHaveText_exprAll args]

theorem Term.allHaveText_exprAll (es : List Term) :
    Expr.allHaveText (Term.exprAll locals es) = true := by
  match es with
  | [] => rfl
  | e :: es =>
      rw [Term.exprAll, Expr.allHaveText, e.hasText_expr, Term.allHaveText_exprAll es,
        Bool.and_self]

end

theorem Simple.hasText_stmt (s : Simple) : (s.stmt locals).hasText = true := by
  cases s with
  | store v e => exact e.hasText_expr locals
  | call f args | drop f args => exact Term.allHaveText_exprAll locals args

theorem Body.hasText_lines {b : Body} {k : Nat} {i : Int} :
    (b.lines locals address k i).all (·.hasText) = true := by
  induction b generalizing k i with
  | done => rfl
  | act s next ih =>
      simp only [Body.lines, List.all_cons, ih]
      simp [Line.hasText, Simple.hasText_stmt]
  | branch c body next ihb ihn =>
      simp only [Body.lines, List.all_cons, List.all_append, ihb, ihn]
      simp [Line.hasText, Term.hasText_expr]
  | choice c yes no next ihy ihn ihx =>
      simp only [Body.lines, List.all_cons, List.all_append, ihy, ihn, ihx]
      simp [Line.hasText, Term.hasText_expr]
  | loop c body next ihb ihn =>
      simp only [Body.lines, List.all_cons, List.all_append, ihb, ihn]
      simp [Line.hasText, Term.hasText_expr]

/-- **Every line of a program has a text.** -/
theorem Source.lineTexts_lines (s : Source) (known : Place → DataType) :
    lineTexts known (s.lines locals address)
      = .ok ((s.lines locals address).map (·.text known)) := by
  rw [lineTexts, if_pos]
  rw [Source.lines, List.all_append, Body.hasText_lines]
  simp [Line.hasText, Stmt.hasText, Term.allHaveText_exprAll]

end Texts

/-! ### Programs -/

namespace Source

variable {address : Nat → Int} {s : Source} {r : Routine} {g : Graph} {v labels : List Int}

/-- The addresses that the text of a program jumps to. -/
def targets (locals : Nat → Reference) (address : Nat → Int) (s : Source) : List Int :=
  (s.lines locals address).filterMap Line.target?

/-- The targets of `goto`s are the heads of loops. -/
theorem mem_targets (locals : Nat → Reference) {j : Nat} (hm : StrictMono address) :
    address j ∈ s.targets locals address ↔ j ∈ s.body.heads s.first := by
  rw [targets, lines, List.filterMap_append]
  simp only [List.filterMap_cons, Line.target?, List.filterMap_nil, List.append_nil,
    Body.mem_targets_lines]
  constructor
  · rintro ⟨n, hn, heq⟩
    rwa [← hm.injective heq]
  · intro hj
    exact ⟨j, hj, rfl⟩

/-- The head of a routine has no line. -/
theorem IsLiftedIn.renders_head (h : s.IsLiftedIn address r g)
    (hl : ∀ j < s.first, address j ∉ labels) :
    ∃ v, Renders address g labels 0 s.first [] (tasksAt address s r 0 s.acts 1 none) [] v
      (tasksAt address s r s.first (s.body.acts s.first ++ [.ret s.args s.result]) 1 none) := by
  cases hh : s.head with
  | none =>
      have hf : s.first = 0 := by simp [first, hh]
      refine ⟨[], ?_⟩
      rw [hf]
      simpa [acts, hh, hf] using Renders.refl [] _
  | some e =>
      have hf : s.first = 1 := by simp [first, hh]
      have hacts : s.acts = .enter e :: (s.body.acts s.first ++ [.ret s.args s.result]) := by
        simp [acts, hh]
      obtain ⟨v, henter⟩ := h.renders_enter (i := 1) (v := []) (restAt_head hh) (by simp [Fresh])
        (Option.some_ne_none _).symm (hl 0 (by omega))
      rw [hacts, hf] at *
      exact ⟨v, henter.trans (renders_plain rfl (by simp))⟩

/-- **The layout of a program is its text**, if the labels are on the heads of its loops. -/
theorem IsLiftedIn.lines_lay (h : s.IsLiftedIn address r g)
    (hl : ∀ j, address j ∈ labels ↔ j ∈ s.body.heads s.first) :
    Layout.lines (lay g labels [] [.region (some (address 0)) 1 none])
      = s.lines r.localRef address := by
  have hout : ∀ j, j < s.first ∨ s.first + s.body.size ≤ j → address j ∉ labels := by
    intro j hj hmem
    have := Body.le_of_mem_heads ((hl j).mp hmem)
    omega
  obtain ⟨v₁, hhead⟩ := h.renders_head fun j hj => hout j (Or.inl hj)
  have hv₁ := hhead.fresh h.mono (by simp [Fresh])
  obtain ⟨v₂, hbody⟩ := Body.renders h (i := 1) s.restAt_body (by simp) s.isProper
    (Body.marked fun j _ _ => hl j) hv₁ (stopsFrom_none address _)
  obtain ⟨v₃, hret⟩ := h.renders_enter (i := 1) s.restAt_ret (hbody.fresh h.mono hv₁)
    (Option.some_ne_none _).symm (hout _ (Or.inr (Nat.le_refl _)))
  have hall := ((hhead.trans hbody).trans (hret.trans renders_ret)).lines_eq []
  rw [tasksAt_of_leader s.acts (List.mem_cons_self ..)] at hall
  simpa [lay_nil, Source.lines, Layout.lines] using hall

variable {p : Program}

/-- **Lifting undoes compilation**: the code of a structured program, at increasing addresses, is
lifted without a fault, and its lines are those of the program, each with a text. -/
theorem lines_lift_code (hm : StrictMono address) (hp : p.handled = Opcode.all)
    (hcode : r.code = s.code address) (hentry : r.address = address 0) :
    (p.lift r).value = .ok () ∧
      (p.lift r).state.2.lines = s.lines r.localRef address ∧
      ∀ known, lineTexts known (p.lift r).state.2.lines
        = .ok ((s.lines r.localRef address).map (·.text known)) := by
  obtain ⟨hok, haddress, hblocks⟩ := IsCodeOf.lift hm ⟨hcode, hentry⟩ hp
  have h : s.IsLiftedIn address r (p.lift r).state.2.graph := ⟨hm, hcode, hblocks⟩
  have hlay := h.lines_lay fun j => mem_targets r.localRef hm
  have hlines : (p.lift r).state.2.lines = s.lines r.localRef address := by
    obtain ⟨a, as, hr⟩ := s.exists_restAt_zero
    obtain ⟨b, hb, -, -⟩ := hblocks 0 a as hr (List.mem_cons_self ..)
    have hbody : ∀ labels, (p.lift r).state.2.body labels
        = Layout.lines
          (lay (p.lift r).state.2.graph labels [] [.region (some (address 0)) 1 none]) := by
      intro labels
      rw [Routine.body, haddress, hentry, hb]
      rfl
    -- the labels that the lines need are the targets of the program's own lines
    have hneeded : (p.lift r).state.2.neededLabels = s.targets r.localRef address := by
      rw [Routine.neededLabels, hbody, ← targets_lay (s.targets r.localRef address), hlay]
      rfl
    rw [Routine.lines, hneeded, hbody, hlay]
  refine ⟨hok, hlines, fun known => ?_⟩
  rw [hlines]
  exact s.lineTexts_lines r.localRef known

/-- A loop that ends the first part of a choice. -/
theorem lines_lift_code_loopInChoice :
    let s : Source := {
      head := some ⟨1, 3, "count"⟩
      body := .choice (.binary (.intCompare .gt) (.var (.local 0)) (.int 0))
        (.loop (.native ⟨7, some (.ofString "IS_READY"), some "BOOL"⟩ [.var (.local 0)])
          (.act (.store (.local 0) (.binary (.int .sub) (.var (.local 0)) (.int 1))) .done) .done)
        (.act (.call ⟨8, none, none⟩ [.int 5]) .done)
        .done
      args := 1
      result := some (.var (.local 0))
      isProper := by simp [Body.IsProper] }
    let address : Nat → Int := fun n => 16 + 3 * n
    let r : Routine := { name := "count", address := 16, code := s.code address }
    let p : Program := { name := "count", code := [] }
    let lifted := p.lift r
    lifted.value = .ok () ∧ lifted.state.2.lines = s.lines r.localRef address ∧
      lineTexts (fun _ => .unknown) lifted.state.2.lines = .ok [
        "    if (local_0 > 0) \x7b",
        "    label_1F:",
        "        if (IS_READY(local_0)) \x7b",
        "            local_0 = local_0 - 1;",
        "            goto label_1F;",
        "        \x7d",
        "    \x7d else \x7b",
        "        native_0x0000000000000008(5);",
        "    \x7d",
        "    return local_0;"] := by
  intro s address r p lifted
  have hm : StrictMono address := fun m n h => by simp only [address]; omega
  obtain ⟨hok, hlines, htexts⟩ := lines_lift_code (s := s) (r := r) (p := p) hm rfl rfl rfl
  exact ⟨hok, hlines, (htexts _).trans (by cbv)⟩

end Source

end ScriptLift.Structured
