/-!
# Walks over addresses

Discovery, interpretation and layout visit the addresses of a finite list, each at most once.
The number of addresses still unvisited is what makes them end: it goes down whenever one of them
is visited.
-/

namespace ScriptLift

/-- How many of `keys` are not among the `visited`. -/
def unvisited (keys visited : List Int) : Nat :=
  (keys.filter fun k => k ∉ visited).length

theorem unvisited_append_lt {keys visited : List Int} {a : Int} (hk : a ∈ keys)
    (hv : a ∉ visited) : unvisited keys (visited ++ [a]) < unvisited keys visited := by
  have hsplit : (keys.filter fun k => k ∉ visited ++ [a])
      = (keys.filter fun k => k ∉ visited).filter fun k => k ≠ a := by
    simp [List.filter_filter, and_comm]
  rw [unvisited, unvisited, hsplit, List.length_filter_lt_length_iff_exists]
  exact ⟨a, by simp [hk, hv], by simp⟩

end ScriptLift
