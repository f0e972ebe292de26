/-!
# Positions

A position in a list counts from the front, or from the end when it is negative: `-1` is the last
element.
-/

namespace ScriptLift

/-- The index from the front that a position means in a list of the given length. -/
def resolve? (length : Nat) : Int → Option Nat
  | .ofNat n => if n < length then some n else none
  | .negSucc n => if n < length then some (length - (n + 1)) else none

theorem resolve?_lt {length : Nat} {position : Int} {n : Nat}
    (h : resolve? length position = some n) : n < length := by
  unfold resolve? at h
  split at h <;> split at h <;> simp only [Option.some.injEq, reduceCtorEq] at h <;> omega

/-- The element at a position. -/
def atPosition? {α : Type} (xs : List α) (position : Int) : Option α :=
  (resolve? xs.length position).bind fun n => xs[n]?

end ScriptLift
