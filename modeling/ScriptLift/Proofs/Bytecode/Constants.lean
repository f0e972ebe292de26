import Mathlib
import ScriptLift.Bytecode.Decode

/-!
# What the fields of code stand for

The decoder makes a constant or a distance of the number in a field, and a text of the bytes of a
name.  Sixteen bits with a sign are in two's complement (`signed16_eq_toInt`).  Thirty-two bits that
are a floating-point number stand for the same number in sixty-four bits, with nothing rounded
(`Binary64.widens_widen`).  So a constant is what the number in its field means
(`Context.means_literalOf`).  A name is its bytes one by one, with a mark in the place of each that
is outside ASCII (`Context.toNat_asciiName`).
-/

namespace ScriptLift

/-- **Sixteen bits are read in two's complement.** -/
theorem signed16_eq_toInt {n : Nat} (h : n < 2 ^ 16) : signed16 n = (BitVec.ofNat 16 n).toInt := by
  rw [signed16, BitVec.toInt_eq_toNat_cond, BitVec.toNat_ofNat, Nat.mod_eq_of_lt h]
  split <;> split <;> omega

/-! ### Floating-point numbers -/

namespace Binary64

variable {negative : Bool} {n rest exponent fraction : Nat}

/-- The absolute value of a finite number. -/
def magnitude (x : Binary64) : ℚ :=
  x.parts.1 * 2 ^ x.parts.2

/-- The exponent field in thirty-two bits. -/
def narrowExponent (n : Nat) : Nat :=
  n / 2 ^ 23 % 2 ^ 8

/-- The fraction field in thirty-two bits. -/
def narrowFraction (n : Nat) : Nat :=
  n % 2 ^ 23

/-- The absolute value of the finite number that thirty-two bits stand for. -/
def narrowMagnitude (n : Nat) : ℚ :=
  if narrowExponent n = 0 then narrowFraction n * 2 ^ (-149 : ℤ)
  else (narrowFraction n + 2 ^ 23) * 2 ^ ((narrowExponent n : ℤ) - 150)

/-- The number is the one that thirty-two bits stand for: it has their sign, it has their absolute
value if they are finite, and otherwise it is an infinity or no number if they are. -/
structure Widens (n : Nat) (x : Binary64) : Prop where
  negative : x.negative = decide (2 ^ 31 ≤ n)
  magnitude : narrowExponent n ≠ 0xFF → x.magnitude = narrowMagnitude n
  infinite : x.isInfinite = true ↔ narrowExponent n = 0xFF ∧ narrowFraction n = 0
  noNumber : x.isNaN = true ↔ narrowExponent n = 0xFF ∧ narrowFraction n ≠ 0

theorem toNat_bits_ofSign (h : rest < 2 ^ 63) :
    (ofSign negative rest).bits.toNat = (if negative then 2 ^ 63 else 0) + rest := by
  rw [ofSign, UInt64.toNat_ofNat']
  cases negative with
  | false =>
      rw [if_neg Bool.false_ne_true, if_neg Bool.false_ne_true, Nat.zero_add]
      exact Nat.mod_eq_of_lt (by omega)
  | true =>
      rw [if_pos rfl, if_pos rfl, Nat.pow_eq]
      exact Nat.mod_eq_of_lt (by omega)

theorem negative_ofSign (h : rest < 2 ^ 63) : (ofSign negative rest).negative = negative := by
  rw [Binary64.negative, toNat_bits_ofSign h]
  cases negative with
  | false => simpa using h
  | true => simp

/-- The fields are those that the sixty-three bits were put together from. -/
theorem fields_ofSign (he : exponent < 2 ^ 11) (hf : fraction < 2 ^ 52) :
    (ofSign negative (exponent * 2 ^ 52 + fraction)).exponent = exponent ∧
      (ofSign negative (exponent * 2 ^ 52 + fraction)).fraction = fraction := by
  rw [Binary64.exponent, Binary64.fraction, toNat_bits_ofSign (by omega)]
  cases negative <;> simp <;> omega

theorem magnitude_ofSign (he : exponent < 2 ^ 11) (hf : fraction < 2 ^ 52) :
    (ofSign negative (exponent * 2 ^ 52 + fraction)).magnitude
      = if exponent = 0 then (fraction : ℚ) * 2 ^ (-1074 : ℤ)
        else (fraction + 2 ^ 52) * 2 ^ ((exponent : ℤ) - 1075) := by
  obtain ⟨hexponent, hfraction⟩ := @fields_ofSign negative _ _ he hf
  rw [magnitude, parts, hexponent, hfraction]
  split
  · rfl
  · norm_num

/-! ### Widening -/

theorem narrowFraction_lt (n : Nat) : narrowFraction n < 2 ^ 23 :=
  Nat.mod_lt _ (by norm_num)

theorem narrowExponent_lt (n : Nat) : narrowExponent n < 2 ^ 8 :=
  Nat.mod_lt _ (by norm_num)

/-- The wide exponent and fraction that come of thirty-two bits. -/
def wideFields (n : Nat) : Nat × Nat :=
  if narrowExponent n = 0xFF then (0x7FF, narrowFraction n * 2 ^ 29)
  else if narrowExponent n ≠ 0 then (narrowExponent n + 896, narrowFraction n * 2 ^ 29)
  else if narrowFraction n = 0 then (0, 0)
  else ((narrowFraction n).log2 + 874,
    (narrowFraction n - 2 ^ (narrowFraction n).log2) * 2 ^ (52 - (narrowFraction n).log2))

theorem widen_eq (n : Nat) :
    widen n = ofSign (decide (2 ^ 31 ≤ n)) ((wideFields n).1 * 2 ^ 52 + (wideFields n).2) := by
  unfold widen wideFields narrowExponent narrowFraction infinityBits
  simp only [Nat.pow_eq]
  split_ifs <;> simp only [Nat.zero_mul, Nat.add_zero]

/-- A fraction that starts with its highest bit, moved to the front of fifty-two. -/
theorem shifted_fraction {f : Nat} (h : f ≠ 0) (hlt : f < 2 ^ 23) :
    f.log2 < 23 ∧ (f - 2 ^ f.log2) * 2 ^ (52 - f.log2) + 2 ^ 52 = f * 2 ^ (52 - f.log2) := by
  have hlog : f.log2 < 23 := (Nat.log2_lt h).mpr hlt
  have hle : 2 ^ f.log2 ≤ f := Nat.log2_self_le h
  refine ⟨hlog, ?_⟩
  calc (f - 2 ^ f.log2) * 2 ^ (52 - f.log2) + 2 ^ 52
      = (f - 2 ^ f.log2) * 2 ^ (52 - f.log2) + 2 ^ f.log2 * 2 ^ (52 - f.log2) := by
        rw [← pow_add, Nat.add_sub_of_le (by omega)]
    _ = f * 2 ^ (52 - f.log2) := by rw [← Nat.add_mul, Nat.sub_add_cancel hle]

theorem wideFields_lt (n : Nat) : (wideFields n).1 < 2 ^ 11 ∧ (wideFields n).2 < 2 ^ 52 := by
  have hfraction := narrowFraction_lt n
  have hexponent := narrowExponent_lt n
  unfold wideFields
  split_ifs with hspecial hnormal hzero
  · exact ⟨by norm_num, by omega⟩
  · exact ⟨by omega, by omega⟩
  · exact ⟨by norm_num, by norm_num⟩
  · obtain ⟨hlog, hshift⟩ := shifted_fraction hzero hfraction
    refine ⟨by dsimp only; omega, ?_⟩
    have hlt : narrowFraction n * 2 ^ (52 - (narrowFraction n).log2) < 2 ^ 53 := by
      calc narrowFraction n * 2 ^ (52 - (narrowFraction n).log2)
          < 2 ^ ((narrowFraction n).log2 + 1) * 2 ^ (52 - (narrowFraction n).log2) :=
            Nat.mul_lt_mul_of_pos_right Nat.lt_log2_self (by positivity)
        _ = 2 ^ 53 := by rw [← pow_add]; congr 1; omega
    dsimp only
    omega

theorem two_pow_mul_zpow {a : Nat} {b c : ℤ} (h : (a : ℤ) + b = c) :
    (2 : ℚ) ^ a * 2 ^ b = 2 ^ c := by
  rw [← zpow_natCast, ← zpow_add₀ two_ne_zero, h]

/-- **Widening rounds nothing.** -/
theorem magnitude_widen (h : narrowExponent n ≠ 0xFF) :
    (widen n).magnitude = narrowMagnitude n := by
  obtain ⟨hexponent, hfraction⟩ := wideFields_lt n
  rw [widen_eq, magnitude_ofSign hexponent hfraction, narrowMagnitude]
  unfold wideFields
  rw [if_neg h]
  by_cases hsmall : narrowExponent n = 0
  · -- a number below the normal ones becomes normal, its highest bit the one that is not written
    rw [if_neg (not_not_intro hsmall), if_pos hsmall]
    by_cases hzero : narrowFraction n = 0
    · simp [hzero]
    · obtain ⟨hlog, hshift⟩ := shifted_fraction hzero (narrowFraction_lt n)
      have hcast : (((narrowFraction n - 2 ^ (narrowFraction n).log2)
          * 2 ^ (52 - (narrowFraction n).log2) : ℕ) : ℚ) + 2 ^ 52
          = narrowFraction n * 2 ^ (52 - (narrowFraction n).log2) := by
        exact_mod_cast hshift
      have hpower : (2 : ℚ) ^ (52 - (narrowFraction n).log2)
          * 2 ^ ((((narrowFraction n).log2 + 874 : ℕ) : ℤ) - 1075) = 2 ^ (-149 : ℤ) :=
        two_pow_mul_zpow (by omega)
      rw [if_neg hzero, if_neg (Nat.succ_ne_zero _), hcast, mul_assoc, hpower]
  · have hpower : (2 : ℚ) ^ 29 * 2 ^ (((narrowExponent n + 896 : ℕ) : ℤ) - 1075)
        = 2 ^ ((narrowExponent n : ℤ) - 150) :=
      two_pow_mul_zpow (by omega)
    rw [if_pos hsmall, if_neg (by dsimp only; omega), if_neg hsmall, ← hpower]
    push_cast
    ring

/-- Widening keeps the sign. -/
theorem negative_widen (n : Nat) : (widen n).negative = decide (2 ^ 31 ≤ n) := by
  obtain ⟨hexponent, hfraction⟩ := wideFields_lt n
  rw [widen_eq, negative_ofSign (by omega)]

/-- Among the wide exponents, the largest comes of the largest alone. -/
theorem wideFields_eq_largest_iff : (wideFields n).1 = 0x7FF ↔ narrowExponent n = 0xFF := by
  have hexponent := narrowExponent_lt n
  have hfraction := narrowFraction_lt n
  unfold wideFields
  split_ifs with hspecial hnormal hzero
  · exact iff_of_true rfl hspecial
  · exact iff_of_false (by dsimp only; omega) hspecial
  · exact iff_of_false (by norm_num) hspecial
  · have hlog := (shifted_fraction hzero hfraction).1
    exact iff_of_false (by dsimp only; omega) hspecial

/-- **Widening keeps the number.** -/
theorem widens_widen (n : Nat) : Widens n (widen n) := by
  obtain ⟨hexponent, hfraction⟩ := wideFields_lt n
  obtain ⟨he, hf⟩ := @fields_ofSign (decide (2 ^ 31 ≤ n)) _ _ hexponent hfraction
  -- the fraction tells infinities from what is no number, and stays zero or not
  have hspecial : narrowExponent n = 0xFF → ((wideFields n).2 = 0 ↔ narrowFraction n = 0) := by
    intro h
    simp [wideFields, h]
  refine ⟨negative_widen n, magnitude_widen, ?_, ?_⟩
  · rw [isInfinite, widen_eq, he, hf, Bool.and_eq_true, decide_eq_true_iff, decide_eq_true_iff,
      wideFields_eq_largest_iff]
    exact and_congr_right hspecial
  · rw [isNaN, widen_eq, he, hf, Bool.and_eq_true, decide_eq_true_iff, bne_iff_ne,
      wideFields_eq_largest_iff]
    exact and_congr_right fun h => not_congr (hspecial h)

end Binary64

namespace Bytecode

/-- What the number in a field means as a constant: itself, unless the field has a sign or holds a
floating-point number. -/
def Field.Means (n : Nat) : Field → Literal → Prop
  | .s16, .int v => v = (BitVec.ofNat 16 n).toInt
  | .f32, .float x => Binary64.Widens n x
  | .u8, .int v | .u16, .int v | .u24, .int v | .u32, .int v => v = n
  | _, _ => False

namespace Context

/-- **A constant is what the number in its field means.** -/
theorem means_literalOf {field : Field} {n : Nat} (h : n < 256 ^ field.width) :
    field.Means n (literalOf field n) := by
  cases field with
  | s16 => exact signed16_eq_toInt h
  | f32 => exact Binary64.widens_widen n
  | u8 | u16 | u24 | u32 => rfl

/-- **A name has a character for each byte**: the byte itself if it is ASCII, and otherwise the
mark for what cannot be read. -/
theorem toNat_asciiName (bs : List UInt8) :
    (asciiName bs).toList.map Char.toNat
      = bs.map fun b => if b.toNat < 0x80 then b.toNat else 0xFFFD := by
  rw [asciiName, String.toList_ofList, List.map_map]
  refine List.map_congr_left fun b _ => ?_
  by_cases h : b.toNat < 0x80
  · simp only [Function.comp_apply, if_pos h]
    rw [Char.toNat_ofNat, if_pos (Or.inl (by omega))]
  · simp only [Function.comp_apply, if_neg h]
    rfl

end Context

end Bytecode

end ScriptLift
