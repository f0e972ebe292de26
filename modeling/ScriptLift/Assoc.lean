/-!
# Tables

A table is a list of keys with their values, each key once.  Putting a value under a key replaces
the one before it in place; a new key goes to the end.  A table may also be filled so that the first
value under a key stays (`putNew`).
-/

namespace ScriptLift.Assoc

variable {α β : Type} [BEq α]

/-- The table with `v` under `k`. -/
def put (k : α) (v : β) : List (α × β) → List (α × β)
  | [] => [(k, v)]
  | e :: es => if e.1 == k then (e.1, v) :: es else e :: put k v es

/-- The table with `v` under `k`, unless there is a value under `k`.  A new key goes to the
front. -/
def putNew (k : α) (v : β) (es : List (α × β)) : List (α × β) :=
  if (es.lookup k).isSome then es else (k, v) :: es

variable [LawfulBEq α] {k k' : α}

@[simp]
theorem lookup_put_self (k : α) (v : β) (es : List (α × β)) : (put k v es).lookup k = some v := by
  induction es with
  | nil => simp [put]
  | cons e es ih =>
      obtain ⟨k₀, v₀⟩ := e
      by_cases h : k₀ = k
      · simp [put, h]
      · have hk : (k == k₀) = false := beq_eq_false_iff_ne.mpr (Ne.symm h)
        simp [put, h, List.lookup_cons, hk, ih]

theorem lookup_put_of_ne (h : k' ≠ k) (v : β) (es : List (α × β)) :
    (put k v es).lookup k' = es.lookup k' := by
  have hk : (k' == k) = false := beq_eq_false_iff_ne.mpr h
  induction es with
  | nil => simp [put, List.lookup_cons, hk]
  | cons e es ih =>
      obtain ⟨k₀, v₀⟩ := e
      by_cases he : k₀ = k
      · simp [put, he, List.lookup_cons, hk]
      · simp [put, he, List.lookup_cons, ih]

/-- The value put first stays. -/
theorem lookup_putNew (k k' : α) (v : β) (es : List (α × β)) :
    (putNew k v es).lookup k' = (es.lookup k').or (if k' == k then some v else none) := by
  unfold putNew
  split
  · rename_i h
    by_cases hk : k' = k
    · subst hk
      obtain ⟨w, hw⟩ := Option.isSome_iff_exists.mp h
      rw [hw, Option.some_or]
    · simp [hk]
  · rename_i h
    by_cases hk : k' = k
    · subst hk
      rw [Option.not_isSome_iff_eq_none.mp h]
      simp
    · have hne : (k' == k) = false := beq_eq_false_iff_ne.mpr hk
      simp [List.lookup_cons, hne]

end ScriptLift.Assoc
