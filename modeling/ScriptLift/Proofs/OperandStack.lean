import ScriptLift.Proofs.Lift.Effect

/-!
# Taking what was pushed

Taking `n` values from a stack gives its top `n` in the order they were pushed.  A stack that is too
short is taken whole, and each value that is missing is reported and stands as `Expr.underflow`
before those that were found, where the deeper values would be (`OperandStack.popMany_eq`).

So taking undoes pushing, and pushing back what was taken undoes taking if nothing was missing.  In
a frame the two leave nothing else behind (`Lift.popMany_pushed`).
-/

namespace ScriptLift

namespace OperandStack

/-- The stack with several values pushed one after the other. -/
def pushAll (es : List Expr) (s : OperandStack) : OperandStack :=
  es.foldl (fun s e => e :: s) s

theorem pushAll_eq (es : List Expr) (s : OperandStack) : pushAll es s = es.reverse ++ s := by
  simp [pushAll]

/-- **What is taken, what is left and what is reported.** -/
theorem popMany_eq (n : Nat) (s : OperandStack) :
    popMany n s = (List.replicate (n - s.length) .underflow ++ (s.take n).reverse, s.drop n,
      List.replicate (n - s.length) .underflow) := by
  induction n generalizing s with
  | zero => simp [popMany]
  | succ n ih =>
      cases s with
      | nil =>
          -- the first value taken is the last one returned
          have hlast : List.replicate n Expr.underflow ++ [.underflow]
              = List.replicate (n + 1) .underflow := List.replicate_succ'.symm
          simp [popMany, pop, ih, hlast, List.replicate_succ]
      | cons e s => simp [popMany, pop, ih]

/-- As many values are returned as were asked for, placeholders included. -/
theorem length_popMany (n : Nat) (s : OperandStack) : (popMany n s).1.length = n := by
  rw [popMany_eq, List.length_append, List.length_replicate, List.length_reverse, List.length_take]
  omega

/-- What was pushed is taken in the order it was pushed, and nothing is reported. -/
theorem popMany_pushAll (es : List Expr) (s : OperandStack) :
    popMany es.length (pushAll es s) = (es, s, []) := by
  have hlength : es.length - (es.reverse ++ s).length = 0 := by simp
  have htake : (es.reverse ++ s).take es.length = es.reverse := List.take_left' es.length_reverse
  have hdrop : (es.reverse ++ s).drop es.length = s := List.drop_left' es.length_reverse
  rw [popMany_eq, pushAll_eq, hlength, htake, hdrop, List.reverse_reverse]
  rfl

/-- Taking and pushing back restores the stack, if it was deep enough. -/
theorem pushAll_popMany {n : Nat} {s : OperandStack} (h : n ≤ s.length) :
    pushAll (popMany n s).1 (popMany n s).2.1 = s := by
  rw [popMany_eq, pushAll_eq, Nat.sub_eq_zero_of_le h]
  simp

end OperandStack

namespace Lift

/-- Pushing one by one, as a computation. -/
theorem exec_forM_push (es : List Expr) (f : Frame) :
    (es.forM push).exec f = (.ok (), { f with stack := f.stack.pushAll es }) := by
  induction es generalizing f with
  | nil => rfl
  | cons e es ih => exact (exec_bind _ _ f).trans (ih { f with stack := e :: f.stack })

/-- **Taking undoes pushing.**  The top `n` values are returned deepest first behind a mark for each
that is missing, and as many are reported as missing.  What was pushed is returned as it was, and
what was taken from a stack that is deep enough can be pushed back; neither leaves a trace in the
frame. -/
theorem popMany_pushed (n : Nat) (f : Frame) :
    (f.stack.popMany n
      = (List.replicate (n - f.stack.length) .underflow ++ (f.stack.take n).reverse, f.stack.drop n,
        List.replicate (n - f.stack.length) .underflow)) ∧
    (f.stack.popMany n).1.length = n ∧
    (∀ es : List Expr, (do es.forM push; popMany es.length).exec f = (.ok es, f)) ∧
    (n ≤ f.stack.length → (do (← popMany n).forM push).exec f = (.ok (), f)) := by
  refine ⟨OperandStack.popMany_eq n f.stack, OperandStack.length_popMany n f.stack, fun es => ?_,
    fun h => ?_⟩
  · rw [exec_bind, exec_forM_push]
    dsimp only
    rw [exec_popMany, Int.toNat_natCast, OperandStack.popMany_pushAll]
    simp [Frame.report]
  · have hnone : (f.stack.popMany n).2.2 = [] := by
      rw [OperandStack.popMany_eq, Nat.sub_eq_zero_of_le h]
      rfl
    rw [exec_bind, exec_popMany, Int.toNat_natCast]
    dsimp only
    rw [exec_forM_push, hnone]
    simp [Frame.report, OperandStack.pushAll_popMany h]

/-- Two values are there and three are taken; two can be taken and pushed back. -/
theorem popMany_pushed_short :
    let f : Frame := ⟨{ name := "", code := [] }, .ofCode "f" [] [], { start := 0 },
      [.ofLiteral (.int 7), .ofLiteral (.int 6)], []⟩
    f.stack.popMany 3 = ([.underflow, .ofLiteral (.int 6), .ofLiteral (.int 7)], [], [.underflow]) ∧
      2 ≤ f.stack.length ∧ (do (← popMany 2).forM push).exec f = (.ok (), f) := by
  intro f
  exact ⟨(popMany_pushed 3 f).1, by decide, (popMany_pushed 2 f).2.2.2 (by decide)⟩

end Lift

end ScriptLift
