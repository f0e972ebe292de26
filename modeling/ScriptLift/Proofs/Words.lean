import Mathlib
import ScriptLift.Arch

/-!
# Words in both byte orders

Writing a number and reading it back gives the number, as far as it fits the width
(`Arch.word_bytes`), and every word is what is written for its number (`Arch.bytes_word`).  The two
architectures write the same bytes in opposite orders (`Arch.bytes_other`).
-/

namespace ScriptLift

theorem length_toLittleEndian (width n : Nat) : (toLittleEndian width n).length = width := by
  induction width generalizing n with
  | zero => rfl
  | succ width ih => rw [toLittleEndian, List.length_cons, ih]

/-- A number that fits is read back from its bytes. -/
theorem littleEndian_toLittleEndian {width n : Nat} (h : n < 256 ^ width) :
    littleEndian (toLittleEndian width n) = n := by
  induction width generalizing n with
  | zero =>
      rw [pow_zero, Nat.lt_one_iff] at h
      rw [h]
      rfl
  | succ width ih =>
      have hdiv : n / 256 < 256 ^ width := Nat.div_lt_of_lt_mul (by rwa [pow_succ'] at h)
      rw [toLittleEndian, littleEndian, ih hdiv, UInt8.toNat_ofNat']
      exact Nat.mod_add_div n 256

/-- Bytes are written back from the number they read as. -/
theorem toLittleEndian_littleEndian (bs : List UInt8) :
    toLittleEndian bs.length (littleEndian bs) = bs := by
  induction bs with
  | nil => rfl
  | cons b bs ih =>
      have hb : b.toNat < 256 := b.toNat_lt
      have hdiv : (b.toNat + 256 * littleEndian bs) / 256 = littleEndian bs := by omega
      have hmod : UInt8.ofNat (b.toNat + 256 * littleEndian bs) = b := by
        apply UInt8.toNat_inj.mp
        rw [UInt8.toNat_ofNat']
        omega
      rw [List.length_cons, littleEndian, toLittleEndian, hdiv, hmod, ih]

/-- The number that bytes read as fits in as many bytes. -/
theorem littleEndian_lt (bs : List UInt8) : littleEndian bs < 256 ^ bs.length := by
  induction bs with
  | nil => simp [littleEndian]
  | cons b bs ih =>
      have hb : b.toNat < 256 := b.toNat_lt
      rw [littleEndian, List.length_cons, pow_succ]
      omega

namespace Arch

variable {arch : Arch} {width n : Nat} {bs : List UInt8}

/-- A word takes its width on either platform. -/
@[simp]
theorem length_bytes (arch : Arch) (width n : Nat) : (arch.bytes width n).length = width := by
  cases arch with
  | console => rw [bytes, List.length_reverse, length_toLittleEndian]
  | pc => exact length_toLittleEndian width n

/-- **What is written is read back.** -/
theorem word_bytes (h : n < 256 ^ width) : arch.word (arch.bytes width n) = n := by
  cases arch with
  | console => rw [word, bytes, List.reverse_reverse, littleEndian_toLittleEndian h]
  | pc => exact littleEndian_toLittleEndian h

/-- **Every word is what is written for its number.** -/
theorem bytes_word (h : bs.length = width) : arch.bytes width (arch.word bs) = bs := by
  subst h
  cases arch with
  | console =>
      rw [word, bytes, ← List.length_reverse, toLittleEndian_littleEndian, List.reverse_reverse]
  | pc => exact toLittleEndian_littleEndian bs

theorem word_lt (h : bs.length = width) : arch.word bs < 256 ^ width := by
  subst h
  cases arch with
  | console =>
      rw [word, ← List.length_reverse]
      exact littleEndian_lt _
  | pc => exact littleEndian_lt bs

/-- The architecture with the other byte order. -/
def other : Arch → Arch
  | console => pc
  | pc => console

@[simp]
theorem other_other (arch : Arch) : arch.other.other = arch := by
  cases arch <;> rfl

/-- The other platform writes a word the other way round. -/
theorem bytes_other (arch : Arch) (width n : Nat) :
    arch.other.bytes width n = (arch.bytes width n).reverse := by
  cases arch with
  | console => rw [other, bytes, bytes, List.reverse_reverse]
  | pc => rfl

/-- Bytes turned round read the same on the other platform. -/
theorem word_other (arch : Arch) (bs : List UInt8) : arch.other.word bs.reverse = arch.word bs := by
  cases arch with
  | console => rfl
  | pc => rw [other, word, word, List.reverse_reverse]

end Arch

end ScriptLift
