import ScriptLift.Proofs.Layout.Depth
import ScriptLift.Proofs.Lift.Faults
import ScriptLift.Proofs.Structured.RoundTrip

/-!
# Values inside values

A program that returns the value of a term is lifted to a routine that is deeper than the
expression of the term (`Source.le_depth_lift_returning`).  A term may be nested as deep as one
likes: zero may be negated any number of times, one instruction for each (`Term.negations`).
-/

namespace ScriptLift.Structured

namespace Source

variable {address : Nat → Int} {e : Term} {r : Routine} {p : Program}

/-- The program that returns the value of a term and does nothing else. -/
def returning (e : Term) : Source where
  head := none
  body := .done
  args := 0
  result := some e
  isProper := trivial

/-- Its code has no head, and nothing between the term and the return. -/
theorem code_returning (address : Nat → Int) (e : Term) :
    (returning e).code address = place address 0 (e.ops ++ [⟨.leave, .ret 0 1⟩]) := by
  simp [code, acts, returning, opsOf, Act.ops, Term.opsAll, Body.acts]

/-- **A routine that returns a value is deeper than the value.** -/
theorem le_depth_lift_returning (hm : StrictMono address) (hp : p.handled = Opcode.all)
    (hs : (returning e).IsCodeOf address r) :
    (p.lift r).value = .ok () ∧ (e.expr r.localRef).depth + 5 ≤ (p.lift r).state.2.depth := by
  obtain ⟨hok, haddress, hblocks⟩ := hs.lift hm hp
  have h : (returning e).IsLiftedIn address r (p.lift r).state.2.graph := ⟨hm, hs.code, hblocks⟩
  -- there is no loop, and so no label
  have hlay : Layout.lines (Layout.lay (p.lift r).state.2.graph [] []
      [.region (some (address 0)) 1 none]) = (returning e).lines r.localRef address :=
    h.lines_lay fun j => by simp [returning, Body.heads]
  refine ⟨hok, ?_⟩
  obtain ⟨a, as, hr⟩ := (returning e).exists_restAt_zero
  obtain ⟨b, hb, -, -⟩ := hblocks 0 a as hr (List.mem_cons_self ..)
  have hline : .simple 1 (.ret [e.expr r.localRef]) ∈ (p.lift r).state.2.body [] := by
    rw [Routine.body, haddress, hs.entry, hb, if_pos Option.isSome_some, hlay]
    simp [lines, returning, Body.lines, Term.exprAll]
  have hle := Routine.le_depth_of_simple hline
  simpa [Stmt.depth, Expr.depths] using hle

/-- A program whose code returns a value is lifted to one routine, which is deeper than the
value. -/
theorem le_depth_decompile_returning (hm : StrictMono address) (hp : p.handled = Opcode.all)
    (hcode : p.code = (returning e).code address) (hops : ∀ x ∈ e.ops, x.code ≠ .enter) :
    ∃ locals r, p.decompile.value = .ok [r] ∧ (e.expr locals).depth + 5 ≤ r.depth := by
  have hpiece : chunks p.code = [p.code] := by
    refine chunks_eq_singleton ?_ fun i hi => ?_
    · simp [hcode, code_returning, place_append, place]
    · rw [hcode, code_returning] at hi
      obtain ⟨k, x, hx, rfl⟩ := mem_place.mp hi
      have hne : x.code ≠ .enter := by
        rcases List.mem_append.mp (List.mem_of_getElem? hx) with hx | hx
        · exact hops x hx
        · simp_all
      simpa [Op.instruction, Instruction.isEnter] using hne
  have hroutines : p.routines = [.ofChunk 0 p.code] := by
    rw [Program.routines, hpiece]
    rfl
  obtain ⟨hchunk, hentry⟩ := Routine.ofChunk_eq 0 p.code
  have hs : (returning e).IsCodeOf address (.ofChunk 0 p.code) := by
    refine ⟨hchunk.trans hcode, hentry.trans ?_⟩
    obtain ⟨x, xs, hx⟩ := List.exists_cons_of_ne_nil (l := e.ops ++ [⟨.leave, .ret 0 1⟩]) (by simp)
    rw [hcode, code_returning, hx]
    rfl
  obtain ⟨hok, hdepth⟩ := le_depth_lift_returning (p := p.register p.routines) hm
    ((Program.handled_register p p.routines).trans hp) hs
  refine ⟨_, _, ?_, hdepth⟩
  rw [Program.decompile, hroutines, Program.liftAll]
  rw [hroutines] at hok
  cases hl : (p.register [.ofChunk 0 p.code]).lift (.ofChunk 0 p.code) with
  | mk value state events =>
    rw [hl] at hok
    cases hok
    rfl

end Source

namespace Term

/-- Zero, negated a number of times. -/
def negations : Nat → Term
  | 0 => .int 0
  | n + 1 => .unary .intNeg (negations n)

/-- Each negation is one operation. -/
theorem ops_negations (n : Nat) :
    (negations n).ops
      = ⟨.push, .push [.int 0]⟩ :: List.replicate n ⟨.unary .intNeg, .none⟩ := by
  induction n with
  | zero => rfl
  | succ n ih => rw [negations, ops, ih, List.cons_append, ← List.replicate_succ']

theorem code_ne_enter_of_mem_negations {x : Op} {n : Nat} (h : x ∈ (negations n).ops) :
    x.code ≠ .enter := by
  rw [ops_negations] at h
  rcases List.mem_cons.mp h with rfl | h
  · nofun
  · rw [List.eq_of_mem_replicate h]
    nofun

/-- Writing a negation takes two calls: one for the operator and one for the operand in it. -/
theorem depth_negations (locals : Nat → Reference) (n : Nat) :
    ((negations n).expr locals).depth = 2 * n + 1 := by
  induction n with
  | zero => rfl
  | succ n ih =>
      rw [negations, expr, Expr.depth, ih]
      omega

end Term

end ScriptLift.Structured
