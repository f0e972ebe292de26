import ScriptLift.Stmt
import ScriptLift.Text.Hex

/-!
# Base sixteen tells numbers apart

Different addresses are written differently, so a label is known by its name
(`labelName_injective`).
-/

namespace ScriptLift

namespace Text

/-- One digit. -/
theorem hexDigits_of_lt {n : Nat} (h : n < 16) : hexDigits n = [n.digitChar.toUpper] := by
  rw [hexDigits, Nat.toDigits_of_lt_base h]
  rfl

/-- The last digit stands behind the others. -/
theorem hexDigits_of_le {n : Nat} (h : 16 ≤ n) :
    hexDigits n = hexDigits (n / 16) ++ [(n % 16).digitChar.toUpper] := by
  rw [hexDigits, Nat.toDigits_of_base_le (by decide) h, List.map_append, ← hexDigits]
  rfl

/-- No two digits look alike. -/
theorem digit_injective : ∀ m < 16, ∀ n < 16,
    m.digitChar.toUpper = n.digitChar.toUpper → m = n := by
  decide

theorem digit_ne_minus : ∀ n < 16, n.digitChar.toUpper ≠ '-' := by
  decide

/-- A number of more than one digit is not written like one of one digit. -/
theorem hexDigits_ne {m n : Nat} (hm : m < 16) (hn : 16 ≤ n) : hexDigits m ≠ hexDigits n := by
  intro h
  have hlen := congrArg List.length h
  have hpos : 0 < (hexDigits (n / 16)).length := by
    rw [hexDigits, List.length_map]
    exact Nat.length_toDigits_pos
  rw [hexDigits_of_lt hm, hexDigits_of_le hn, List.length_append, List.length_singleton,
    List.length_singleton] at hlen
  omega

/-- No two numbers are written alike; by induction on the first. -/
theorem hexDigits_injective {m n : Nat} (h : hexDigits m = hexDigits n) : m = n := by
  induction m using Nat.strongRecOn generalizing n with
  | ind m ih =>
    by_cases hm : m < 16 <;> by_cases hn : n < 16
    · rw [hexDigits_of_lt hm, hexDigits_of_lt hn, List.singleton_inj] at h
      exact digit_injective m hm n hn h
    · exact absurd h (hexDigits_ne hm (Nat.le_of_not_lt hn))
    · exact absurd h.symm (hexDigits_ne hn (Nat.le_of_not_lt hm))
    · rw [hexDigits_of_le (Nat.le_of_not_lt hm), hexDigits_of_le (Nat.le_of_not_lt hn)] at h
      obtain ⟨hinit, hlast⟩ := List.append_inj' h rfl
      rw [List.singleton_inj] at hlast
      have hdiv := ih (m / 16) (by omega) hinit
      have hmod := digit_injective _ (Nat.mod_lt m (by decide)) _ (Nat.mod_lt n (by decide)) hlast
      omega

theorem minus_notMem_hexDigits (n : Nat) : '-' ∉ hexDigits n := by
  induction n using Nat.strongRecOn with
  | ind n ih =>
    by_cases hn : n < 16
    · rw [hexDigits_of_lt hn, List.mem_singleton]
      exact (digit_ne_minus n hn).symm
    · rw [hexDigits_of_le (Nat.le_of_not_lt hn), List.mem_append, List.mem_singleton, not_or]
      exact ⟨ih (n / 16) (by omega), (digit_ne_minus _ (Nat.mod_lt n (by decide))).symm⟩

/-- The same for integers, as no digit is a sign. -/
theorem hex_injective {a b : Int} (h : hex 0 a = hex 0 b) : a = b := by
  have pad : ∀ cs, zeroPad 0 cs = cs := fun cs => by simp [zeroPad]
  cases a with
  | ofNat m =>
      cases b with
      | ofNat n =>
          simp only [hex, pad, String.ofList_inj] at h
          rw [hexDigits_injective h]
      | negSucc n =>
          simp only [hex, pad, String.ofList_inj] at h
          exact absurd (h ▸ List.mem_cons_self) (minus_notMem_hexDigits m)
  | negSucc m =>
      cases b with
      | ofNat n =>
          simp only [hex, pad, String.ofList_inj] at h
          exact absurd (h ▸ List.mem_cons_self) (minus_notMem_hexDigits n)
      | negSucc n =>
          simp only [hex, pad, String.ofList_inj, List.cons.injEq, true_and] at h
          have := hexDigits_injective h
          rw [Nat.succ.inj this]

end Text

/-- **Labels of different addresses have different names.** -/
theorem labelName_injective {a b : Int} (h : labelName a = labelName b) : a = b := by
  unfold labelName at h
  exact Text.hex_injective (String.append_right_inj _ |>.mp h)

end ScriptLift
