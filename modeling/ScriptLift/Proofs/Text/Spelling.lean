import Mathlib
import ScriptLift.Json.Reader
import ScriptLift.Text.Ascii

/-!
# Spellings can be read back

A number is what the digits written for it stand for (`Number.ofNumeral_toDigits`).  The ASCII
literal for a text is a JSON string, and reading it as one gives the text back, whatever stands
behind it (`JsonValue.stringFrom_ascii`).
-/

namespace ScriptLift

/-! ### Numerals -/

namespace Number

/-- The number that the digits in `cs` stand for. -/
def ofNumeral (base : Nat) (cs : List Char) : Nat :=
  ofDigits base (cs.filterMap (Text.digit? base))

theorem ofDigits_concat (base : Nat) (ds : List Nat) (d : Nat) :
    ofDigits base (ds ++ [d]) = base * ofDigits base ds + d := by
  rw [ofDigits, List.foldl_append, List.foldl_cons, List.foldl_nil, ofDigits]

/-- **A number is what its digits stand for**, in any case of letters that the digits may take. -/
theorem ofNumeral_toDigits {base : Nat} {f : Char → Char} (hb : 1 < base)
    (hf : ∀ d < base, Text.digit? base (f d.digitChar) = some d) (n : Nat) :
    ofNumeral base ((Nat.toDigits base n).map f) = n := by
  induction n using Nat.strongRecOn with
  | ind n ih =>
    by_cases hn : n < base
    · simp [ofNumeral, Nat.toDigits_of_lt_base hn, hf n hn, ofDigits]
    · have hle := Nat.le_of_not_lt hn
      have hlast := hf (n % base) (Nat.mod_lt n (by omega))
      have hfirst := ih (n / base) (Nat.div_lt_self (by omega) hb)
      rw [ofNumeral] at hfirst ⊢
      rw [Nat.toDigits_of_base_le hb hle, List.map_append, List.filterMap_append,
        List.map_singleton, List.filterMap_cons_some hlast, List.filterMap_nil, ofDigits_concat,
        hfirst]
      exact Nat.div_add_mod n base

/-- Decimal digits are read as the number they write. -/
theorem ofNumeral_decimal (n : Nat) : ofNumeral 10 (Nat.toDigits 10 n) = n := by
  have h : ofNumeral 10 ((Nat.toDigits 10 n).map id) = n :=
    ofNumeral_toDigits (by decide) (by decide) n
  rwa [List.map_id] at h

theorem ofNumeral_hexDigits (n : Nat) : ofNumeral 16 (Text.hexDigits n) = n :=
  ofNumeral_toDigits (by decide) (by decide) n

end Number

/-! ### Units of sixteen bits -/

namespace Text

/-- The last digit stands behind the others, zeros included. -/
theorem lowerHex_succ {width : Nat} (hw : 0 < width) (n : Nat) :
    lowerHex (width + 1) n = lowerHex width (n / 16) ++ [(n % 16).digitChar] := by
  obtain ⟨width, rfl⟩ := Nat.exists_eq_add_of_lt hw
  by_cases hn : n < 16
  · rw [lowerHex, lowerHex, Nat.toDigits_of_lt_base hn, Nat.div_eq_of_lt hn, Nat.mod_eq_of_lt hn]
    simp [zeroPad, Nat.digitChar, ← List.replicate_succ']
  · rw [lowerHex, Nat.toDigits_of_base_le (by decide) (Nat.le_of_not_lt hn), lowerHex, zeroPad,
      zeroPad, List.length_append, List.length_singleton, Nat.add_sub_add_right, List.append_assoc]

/-- A unit has four digits. -/
theorem lowerHex_four {n : Nat} (h : n < 0x10000) :
    lowerHex 4 n = [(n / 16 / 16 / 16).digitChar, (n / 16 / 16 % 16).digitChar,
      (n / 16 % 16).digitChar, (n % 16).digitChar] := by
  have hone : lowerHex 1 (n / 16 / 16 / 16) = [(n / 16 / 16 / 16).digitChar] := by
    rw [lowerHex, Nat.toDigits_of_lt_base (by omega)]
    rfl
  rw [lowerHex_succ (by decide), lowerHex_succ (by decide), lowerHex_succ (by decide), hone]
  rfl

theorem lt_of_mem_units (c : Char) : ∀ u ∈ units c.toNat, u < 0x10000 := by
  have hvalid : c.toNat < 0xD800 ∨ 0xDFFF < c.toNat ∧ c.toNat < 0x110000 := c.valid
  unfold units
  split
  · simpa
  · simp
    omega

end Text

/-- Four digits are read as the unit they write. -/
theorem JsonValue.unit?_lowerHex {n : Nat} (h : n < 0x10000) :
    unit? (Text.lowerHex 4 n) = some (n, []) := by
  have digit : ∀ d < 16,
      (if d.digitChar.toNat < 0x80 then Text.digit? 16 d.digitChar else none) = some d := by decide
  rw [Text.lowerHex_four h, unit?]
  simp only [digit (n / 16 / 16 / 16) (by omega), digit (n / 16 / 16 % 16) (by omega),
    digit (n / 16 % 16) (by omega), digit (n % 16) (by omega)]
  simp [Number.ofDigits]
  omega

namespace CodePoint

/-- A character is what its units stand for. -/
theorem ofUnits_units_append (c : Char) (us : List Nat) :
    ofUnits (Text.units c.toNat ++ us) = char c :: ofUnits us := by
  have hvalid : c.toNat < 0xD800 ∨ 0xDFFF < c.toNat ∧ c.toNat < 0x110000 := c.valid
  by_cases hn : c.toNat < 0x10000
  · have hunit : ofUnit c.toNat = char c := by
      rw [ofUnit, if_pos (by simp; omega), Char.ofNat_toNat]
    rw [Text.units, if_pos hn, List.singleton_append]
    cases us with
    | nil => simp only [ofUnits, hunit]
    | cons v us => rw [ofUnits, if_neg (by simp; omega), hunit]
  · rw [Text.units, if_neg hn, List.cons_append, List.cons_append, List.nil_append, ofUnits,
      if_pos (by simp; omega)]
    have hsum : 0x10000 + (0xD800 + (c.toNat - 0x10000) / 0x400 - 0xD800) * 0x400
        + (0xDC00 + (c.toNat - 0x10000) % 0x400 - 0xDC00) = c.toNat := by
      omega
    rw [hsum, Char.ofNat_toNat]

/-- Characters are read back from their units. -/
theorem ofUnits_units (t : List Char) :
    ofUnits (t.flatMap fun c => Text.units c.toNat) = t.map char := by
  induction t with
  | nil => rfl
  | cons c t ih => rw [List.flatMap_cons, ofUnits_units_append, ih, List.map_cons]

end CodePoint

/-! ### Strings -/

namespace JsonValue

/-- An escaped unit waits for the one behind it, with which it may make a pair. -/
theorem stringFrom_unitEscape {n : Nat} (h : n < 0x10000) (us : List Nat) (cs : List Char) :
    stringFrom us (Text.unitEscape n ++ cs) = stringFrom (n :: us) cs := by
  have hunit := unit?_lowerHex h
  rw [Text.lowerHex_four h] at hunit
  rw [Text.unitEscape, Text.lowerHex_four h]
  simp only [List.cons_append, List.nil_append]
  rw [stringFrom, hunit]

theorem stringFrom_units {vs : List Nat} (h : ∀ v ∈ vs, v < 0x10000) (us : List Nat)
    (cs : List Char) :
    stringFrom us (vs.flatMap Text.unitEscape ++ cs) = stringFrom (vs.reverse ++ us) cs := by
  induction vs generalizing us with
  | nil => rfl
  | cons v vs ih =>
      obtain ⟨hv, hvs⟩ := List.forall_mem_cons.mp h
      rw [List.flatMap_cons, List.append_assoc, stringFrom_unitEscape hv, ih hvs, List.reverse_cons,
        List.append_assoc, List.singleton_append]

/-- A character is written by a letter behind a backslash, as it is, or by its units. -/
theorem asciiChar_cases (c : Char) :
    (∃ e, Text.asciiChar c = ['\\', e] ∧ escaped? e = some c ∧ e ≠ 'u') ∨
      (Text.asciiChar c = [c] ∧ c ≠ '"' ∧ c ≠ '\\' ∧ ¬ c.toNat < 0x20) ∨
      Text.asciiChar c = (Text.units c.toNat).flatMap Text.unitEscape := by
  unfold Text.asciiChar
  split_ifs with hq hs hn hr ht hf hb hp
  · exact .inl ⟨_, rfl, by rw [hq]; rfl, by decide⟩
  · exact .inl ⟨_, rfl, by rw [hs]; rfl, by decide⟩
  · exact .inl ⟨_, rfl, by rw [hn]; rfl, by decide⟩
  · exact .inl ⟨_, rfl, by rw [hr]; rfl, by decide⟩
  · exact .inl ⟨_, rfl, by rw [ht]; rfl, by decide⟩
  · exact .inl ⟨_, rfl, by rw [hf]; rfl, by decide⟩
  · exact .inl ⟨_, rfl, by rw [hb]; rfl, by decide⟩
  · rw [Bool.and_eq_true, decide_eq_true_eq] at hp
    exact .inr (.inl ⟨rfl, hq, hs, Nat.not_lt.mpr hp.1⟩)
  · exact .inr (.inr rfl)

/-- A character is written by its units, and reading waits for more of them, or it is written in
another way, and what was waiting comes before it. -/
theorem stringFrom_asciiChar (c : Char) (us : List Nat) (cs : List Char) :
    stringFrom us (Text.asciiChar c ++ cs) = stringFrom ((Text.units c.toNat).reverse ++ us) cs ∨
      stringFrom us (Text.asciiChar c ++ cs) = (stringFrom [] cs).map fun out =>
        (CodePoint.ofUnits us.reverse ++ .char c :: out.1, out.2) := by
  rcases asciiChar_cases c with ⟨e, hc, he, hu⟩ | ⟨hc, hq, hs, hle⟩ | hc
  · right
    rw [hc, List.cons_append, List.singleton_append, stringFrom, he]
    · cases stringFrom [] cs <;> rfl
    · intro a b c d cs he
      exact absurd he hu
  · right
    rw [hc, List.singleton_append, stringFrom]
    · simp only [hle, hs]
      cases stringFrom [] cs <;> rfl
    all_goals simp_all
  · left
    rw [hc, stringFrom_units (Text.lt_of_mem_units c)]

/-- **A literal is read as the text it was written for.** -/
theorem stringFrom_ascii (s rest : List Char) :
    stringFrom [] (s.flatMap Text.asciiChar ++ '"' :: rest) = .ok (s.map .char, rest) := by
  -- what waits is whole characters
  have wait : ∀ (t : List Char) (us : List Nat),
      us.reverse = (t.flatMap fun c => Text.units c.toNat) →
        stringFrom us (s.flatMap Text.asciiChar ++ '"' :: rest)
          = .ok ((t ++ s).map .char, rest) := by
    induction s with
    | nil =>
        intro t us hus
        rw [List.flatMap_nil, List.nil_append, stringFrom, hus, CodePoint.ofUnits_units,
          List.append_nil]
    | cons c s ih =>
        intro t us hus
        rw [List.flatMap_cons, List.append_assoc]
        rcases stringFrom_asciiChar c us (s.flatMap Text.asciiChar ++ '"' :: rest) with h | h
        · rw [h, ih (t ++ [c]) _ (by simp [hus]), List.append_assoc, List.singleton_append]
        · rw [h, ih [] [] rfl, hus, CodePoint.ofUnits_units]
          simp [Except.map]
  exact wait [] [] rfl

end JsonValue

end ScriptLift
