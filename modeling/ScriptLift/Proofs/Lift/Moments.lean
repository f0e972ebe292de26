import ScriptLift.Lift.Interpret
import ScriptLift.Proofs.Lift.StackEffect

/-!
# The moments of a run

A run is the instructions carried out one after the other, each in the frame that the one before has
left.  A `Moment` is one of them with its frame, and `Frame.moments` are those of a block, up to the
fault that breaks it off if there is one.

`Lift.Runs f h out` says the same step by step, so that what holds of a run is shown by induction on
it: between two moments only the tape has moved.

The moments of a whole lift are those of its blocks in the order they are visited
(`Program.moments`), and those of a program are those of its routines (`Program.history`).
-/

namespace ScriptLift

/-- An instruction that is about to be carried out, with the frame it is carried out in. -/
structure Moment where
  frame : Frame
  instruction : Instruction

namespace Lift

/-- The moments of carrying out the next `n` instructions. -/
def moments : Nat → Frame → List Moment
  | 0, _ => []
  | n + 1, f =>
    match next.exec f with
    | (.error _, _) => []
    | (.ok i, f) =>
      ⟨f, i⟩ ::
        match (step i).exec f with
        | (.error _, _) => []
        | (.ok _, f) => moments n f

/-- Carrying out instructions from `f` on has the moments `h` and comes to `out`. -/
inductive Runs : Frame → List Moment → Except Fault Unit × Frame → Prop where
  | done {f : Frame} (t : Tape) : Runs f [] (.ok (), f.withTape t)
  /-- There is nothing to read. -/
  | ended {f : Frame} (t : Tape) (e : Fault) : Runs f [] (.error e, f.withTape t)
  | fault {f f' : Frame} {t : Tape} {i : Instruction} {e : Fault} :
      (step i).exec (f.withTape t) = (.error e, f') → Runs f [⟨f.withTape t, i⟩] (.error e, f')
  | more {f f' : Frame} {t : Tape} {i : Instruction} {h : List Moment}
      {out : Except Fault Unit × Frame} : (step i).exec (f.withTape t) = (.ok (), f') →
      Runs f' h out → Runs f (⟨f.withTape t, i⟩ :: h) out

variable {f f' : Frame} {h : List Moment} {out : Except Fault Unit × Frame}

/-- It does not matter how far the tape has been read. -/
theorem Runs.of_withTape {t : Tape} (hr : Runs (f.withTape t) h out) : Runs f h out := by
  cases hr with
  | done t' => exact .done (f := f) t'
  | ended t' e => exact .ended (f := f) t' e
  | fault hs => exact .fault (f := f) hs
  | more hs hrest => exact .more (f := f) hs hrest

/-- Reading moves the tape only. -/
theorem next_cases (f : Frame) :
    (∃ t i, next.exec f = (.ok i, f.withTape t)) ∨
      ∃ t e, next.exec f = (.error e, f.withTape t) := by
  have hnext : next.exec f
      = ((f.block.tape.next f.stack).1, f.withTape (f.block.tape.next f.stack).2) := by
    simp only [next, exec_bind, exec_get, exec_set, exec_liftM]
    rfl
  rw [hnext]
  cases (f.block.tape.next f.stack).1 with
  | ok i => exact Or.inl ⟨_, i, rfl⟩
  | error e => exact Or.inr ⟨_, e, rfl⟩

/-- **Carrying out instructions is a run with their moments.** -/
theorem runs_steps (n : Nat) (f : Frame) : Runs f (moments n f) ((steps n).exec f) := by
  induction n generalizing f with
  | zero => exact .done _
  | succ n ih =>
      rw [moments, steps, exec_bind]
      rcases next_cases f with ⟨t, i, hn⟩ | ⟨t, e, hn⟩
      · rw [hn]
        dsimp only
        rw [exec_bind]
        cases hs : (step i).exec (f.withTape t) with
        | mk v f₁ =>
          cases v with
          | error e => exact .fault hs
          | ok => exact .more hs (ih f₁)
      · rw [hn]
        exact .ended t e

/-- The instructions of a run that succeeds are those that were left on the tape. -/
theorem instructions_moments {is : List Instruction}
    (hu : f.block.tape.unread.map (·.instruction) = is)
    (hok : (steps is.length).exec f = (.ok (), f')) :
    (moments is.length f).map (·.instruction) = is := by
  induction is generalizing f with
  | nil => rfl
  | cons i is ih =>
      obtain ⟨c, cs, hc, rfl, hcs⟩ := List.map_eq_cons_iff.mp hu
      obtain ⟨t, hn, ht, -⟩ := exec_next (f := f) hc
      rw [List.length_cons, steps, exec_bind, hn] at hok
      dsimp only at hok
      rw [exec_bind] at hok
      rw [List.length_cons, moments, hn]
      dsimp only
      cases hs : (step c.instruction).exec (f.withTape t) with
      | mk v f₁ =>
        rw [hs] at hok
        cases v with
        | error e => cases hok
        | ok =>
            have heffect :
                Effect f.program (fun _ => True) True (step c.instruction) _ fun _ => True :=
              effect_step Expr.hereditary_true _
            have htape : f₁.block.tape = t := by
              have := heffect.tape (f.withTape t) (.refl _)
              rwa [hs] at this
            rw [List.map_cons, ih (by rw [htape, ht]; exact hcs) hok]

end Lift

namespace Frame

/-- The moments of carrying out the block from its start. -/
def moments (f : Frame) : List Moment :=
  Lift.moments f.block.tape.instructions.length (f.withTape f.block.tape.rewind)

theorem runs_runBlock (f : Frame) : Lift.Runs f f.moments (Lift.runBlock.exec f) := by
  rw [(Lift.exec_runBlock f).1]
  exact (Lift.runs_steps _ _).of_withTape

/-- The instructions of a block that is carried out to its end. -/
theorem instructions_moments {f f' : Frame} (h : Lift.runBlock.exec f = (.ok (), f')) :
    f.moments.map (·.instruction) = f.block.tape.instructions := by
  obtain ⟨hexec, hunread⟩ := Lift.exec_runBlock f
  rw [hexec] at h
  exact Lift.instructions_moments hunread h

end Frame

/-! ### Lifting -/

namespace Stage

/-- The moments of visiting the block at an address. -/
def visitMoments (s : Stage) (a : Int) : List Moment :=
  match s.routine.graph.block? a with
  | none => []
  | some b => Frame.moments ⟨s.program, s.routine, b, b.entryStack, s.events⟩

/-- The moments of visiting the blocks in `queue` and what they lead to. -/
def walkMoments (keys : List Int) (s : Stage) (visited : List Int) : List Int → List Moment
  | [] => []
  | a :: queue =>
    if a ∈ visited then walkMoments keys s visited queue
    else if a ∈ keys then
      s.visitMoments a ++
        match s.visit a with
        | (.error _, _) => []
        | (.ok found, s) =>
          walkMoments keys s (visited ++ [a]) (queue ++ found.filter fun b => b ∉ visited ++ [a])
    else []
termination_by queue => (unvisited keys visited, queue.length)
decreasing_by
  · exact Prod.Lex.right _ (by simp)
  · exact Prod.Lex.left _ _ (unvisited_append_lt (by assumption) (by assumption))

/-- The moments of carrying out all blocks that the entry leads to. -/
def interpretMoments (s : Stage) : List Moment :=
  match s.routine.graph.block? s.routine.address with
  | none => []
  | some b =>
    let graph := s.routine.graph.update b.start fun b =>
      { b with entryStack := [], seeded := true }
    walkMoments graph.starts { s with routine := { s.routine with graph } } [] [b.start]

end Stage

namespace Program

/-- The moments of lifting a routine. -/
def moments (p : Program) (r : Routine) : List Moment :=
  match r.discover with
  | ⟨.error _, _, _⟩ => []
  | ⟨.ok _, r, events⟩ => Stage.interpretMoments ⟨p, r, events⟩

/-- The moments of lifting several routines one after the other, each with the number of its
routine; the first has the number `k`. -/
def history (p : Program) (k : Nat) : List Routine → List (Nat × Moment)
  | [] => []
  | r :: rs =>
    (p.moments r).map (Prod.mk k) ++
      match p.lift r with
      | ⟨.error _, _, _⟩ => []
      | ⟨.ok _, (p, _), _⟩ => history p (k + 1) rs

end Program

end ScriptLift
