import Mathlib
import ScriptLift.Zlib.Inflate
import ScriptLift.Proofs.Words

/-!
# Streams without compression

What is stored is what is inflated: a stream that holds bytes as they are inflates to these bytes
(`Zlib.inflate?_store`).  Whole bytes are read from their bits as they were written
(`takeNumber_bitsOf`, `takeBytes_bitsOf`), so a block gives its bytes back (`inflateStored_block`),
and so do the blocks of a stream, one after the other (`inflateBlocks_storedBlocks`).  Behind them a
wrong checksum is refused (`inflate?_storedBlocks`).
-/

namespace ScriptLift.Zlib

/-! ### Bits -/

theorem bitsOf_cons (b : UInt8) (bs : List UInt8) : bitsOf (b :: bs) = byteBits b ++ bitsOf bs :=
  List.flatMap_cons

theorem bitsOf_append (bs cs : List UInt8) : bitsOf (bs ++ cs) = bitsOf bs ++ bitsOf cs :=
  List.flatMap_append

theorem length_bitsOf (bs : List UInt8) : (bitsOf bs).length = 8 * bs.length := by
  induction bs with
  | nil => rfl
  | cons b bs ih =>
      rw [bitsOf_cons, List.length_append, ih, byteBits, List.length_map, List.length_range,
        List.length_cons]
      omega

theorem takeNumber_cons (n : Nat) (b : Bool) (bits : List Bool) :
    takeNumber (n + 1) (b :: bits)
      = (takeNumber n bits).map fun found => (b.toNat + 2 * found.1, found.2) := by
  rw [takeNumber]
  cases takeNumber n bits <;> rfl

/-- The lowest bits of a number are read back as what they add up to. -/
theorem takeNumber_testBits (n x : Nat) (rest : List Bool) :
    takeNumber n ((List.range n).map x.testBit ++ rest) = some (x % 2 ^ n, rest) := by
  induction n generalizing x with
  | zero => simp [takeNumber, Nat.mod_one]
  | succ n ih =>
      have htail : (List.range n).map (x.testBit ∘ Nat.succ) = (List.range n).map (x / 2).testBit :=
        List.map_congr_left fun i _ => Nat.testBit_succ ..
      rw [List.range_succ_eq_map, List.map_cons, List.map_map, htail, List.cons_append,
        takeNumber_cons, ih, Option.map_some, Nat.toNat_testBit, pow_zero, Nat.div_one, pow_succ',
        Nat.mod_mul]

theorem takeNumber_byteBits (b : UInt8) (rest : List Bool) :
    takeNumber 8 (byteBits b ++ rest) = some (b.toNat, rest) := by
  rw [byteBits, takeNumber_testBits, Nat.mod_eq_of_lt b.toNat_lt]

/-- Bits are read in one go or in two. -/
theorem takeNumber_add (m n : Nat) (bits : List Bool) :
    takeNumber (m + n) bits = (takeNumber m bits).bind fun low =>
      (takeNumber n low.2).map fun high => (low.1 + 2 ^ m * high.1, high.2) := by
  induction m generalizing bits with
  | zero =>
      rw [Nat.zero_add, takeNumber, Option.bind_some]
      cases takeNumber n bits <;> simp
  | succ m ih =>
      cases bits with
      | nil => rw [Nat.add_right_comm, takeNumber, takeNumber, Option.bind_none]
      | cons b bits =>
          rw [Nat.add_right_comm, takeNumber_cons, takeNumber_cons, ih]
          cases takeNumber m bits with
          | none => rfl
          | some low =>
              cases h : takeNumber n low.2 with
              | none => simp [h]
              | some high =>
                  simp only [Option.bind_some, Option.map_some, h, pow_succ']
                  congr 2
                  ring

/-- The bits of whole bytes are the number that the bytes stand for. -/
theorem takeNumber_bitsOf (bs : List UInt8) (rest : List Bool) :
    takeNumber (8 * bs.length) (bitsOf bs ++ rest) = some (littleEndian bs, rest) := by
  induction bs with
  | nil => rfl
  | cons b bs ih =>
      rw [List.length_cons, Nat.mul_succ, Nat.add_comm, takeNumber_add, bitsOf_cons,
        List.append_assoc, takeNumber_byteBits, Option.bind_some, ih]
      rfl

theorem takeBytes_bitsOf (bs : List UInt8) (rest : List Bool) :
    takeBytes bs.length (bitsOf bs ++ rest) = some (bs, rest) := by
  induction bs with
  | nil => rfl
  | cons b bs ih =>
      rw [List.length_cons, takeBytes, bitsOf_cons, List.append_assoc, takeNumber_byteBits]
      simp [ih]

/-- Less than a byte before whole bytes is skipped. -/
theorem align_bitsOf {front : List Bool} (h : front.length < 8) (bs : List UInt8) :
    align (front ++ bitsOf bs) = bitsOf bs := by
  have hmod : (front ++ bitsOf bs).length % 8 = front.length := by
    rw [List.length_append, length_bitsOf, Nat.add_mul_mod_self_left, Nat.mod_eq_of_lt h]
  rw [align, hmod, List.drop_left]

/-! ### Blocks -/

variable {bs rest : List UInt8} {out : Array UInt8}

/-- The number of bytes in a block, written in two bytes. -/
theorem takeNumber_word {n : Nat} (h : n ≤ blockLimit) (bits : List Bool) :
    takeNumber 16 (bitsOf [UInt8.ofNat n, UInt8.ofNat (n / 256)] ++ bits) = some (n, bits) := by
  have hword : littleEndian [UInt8.ofNat n, UInt8.ofNat (n / 256)] = n :=
    @littleEndian_toLittleEndian 2 n (h.trans_lt (by decide))
  have hread := takeNumber_bitsOf [UInt8.ofNat n, UInt8.ofNat (n / 256)] bits
  rwa [hword] at hread

/-- What is behind the first byte of a block. -/
theorem inflateStored_block {front : List Bool} (hfront : front.length < 8)
    (h : bs.length ≤ blockLimit) :
    inflateStored out (front ++ bitsOf ((storedBlock true bs).tail ++ rest))
      = some (out ++ bs.toArray, bitsOf rest) := by
  have hbytes : (storedBlock true bs).tail
      = [UInt8.ofNat bs.length, UInt8.ofNat (bs.length / 256)]
        ++ ([UInt8.ofNat (blockLimit - bs.length), UInt8.ofNat ((blockLimit - bs.length) / 256)]
          ++ bs) := rfl
  rw [inflateStored, align_bitsOf hfront, hbytes, List.append_assoc, List.append_assoc,
    bitsOf_append, takeNumber_word h, bitsOf_append, bitsOf_append]
  have hsum : bs.length + (blockLimit - bs.length) = 0xFFFF := Nat.add_sub_cancel' h
  simp [takeNumber_word (Nat.sub_le _ _), takeBytes_bitsOf, hsum]

theorem byteBits_flag (last : Bool) :
    byteBits (if last then 1 else 0) = last :: List.replicate 7 false := by
  cases last <;> decide

/-- **A block gives its bytes back.** -/
theorem inflateBlocks_storedBlock (fuel : Nat) (last : Bool) (h : bs.length ≤ blockLimit) :
    inflateBlocks (fuel + 1) out (bitsOf (storedBlock last bs ++ rest))
      = if last then some (out ++ bs.toArray, bitsOf rest)
        else inflateBlocks fuel (out ++ bs.toArray) (bitsOf rest) := by
  have hsplit : bitsOf (storedBlock last bs ++ rest)
      = last :: false :: false :: (List.replicate 5 false
        ++ bitsOf ((storedBlock true bs).tail ++ rest)) := by
    change bitsOf ((if last then 1 else 0) :: ((storedBlock true bs).tail ++ rest)) = _
    rw [bitsOf_cons, byteBits_flag]
    rfl
  have hlast : ∀ bits, takeNumber 1 (last :: bits) = some (last.toNat, bits) := fun _ => rfl
  have hform : ∀ bits, takeNumber 2 (false :: false :: bits) = some (0, bits) := fun _ => rfl
  have hblock : inflateBlock 0 out (List.replicate 5 false
      ++ bitsOf ((storedBlock true bs).tail ++ rest)) = some (out ++ bs.toArray, bitsOf rest) :=
    inflateStored_block (by decide) h
  rw [hsplit, inflateBlocks]
  simp only [Option.bind_eq_bind, hlast, hform, hblock, Option.bind_some]
  cases last <;> rfl

theorem length_le_storedBlocks (bs : List UInt8) : bs.length ≤ (storedBlocks bs).length := by
  fun_induction storedBlocks bs with
  | case1 bs h => exact Nat.le_add_right _ 5
  | case2 bs h ih =>
      rw [List.length_drop] at ih
      simp only [storedBlock, List.length_append, List.length_take]
      omega

/-- **The blocks of a stream give its bytes back.**  There is at most one block more than there are
bytes. -/
theorem inflateBlocks_storedBlocks {fuel : Nat} (hfuel : bs.length < fuel) :
    inflateBlocks fuel out (bitsOf (storedBlocks bs ++ rest))
      = some (out ++ bs.toArray, bitsOf rest) := by
  obtain ⟨fuel, rfl⟩ := Nat.exists_eq_add_one_of_ne_zero (Nat.ne_zero_of_lt hfuel)
  fun_induction storedBlocks bs generalizing fuel out with
  | case1 bs h => rw [inflateBlocks_storedBlock fuel true h, if_pos rfl]
  | case2 bs h ih =>
      have hlimit : (bs.take blockLimit).length ≤ blockLimit := List.length_take_le ..
      have hless : (bs.drop blockLimit).length < fuel := by
        rw [List.length_drop]
        have : 0 < blockLimit := by decide
        omega
      obtain ⟨fuel, rfl⟩ := Nat.exists_eq_add_one_of_ne_zero (Nat.ne_zero_of_lt hless)
      have hbytes : (bs.take blockLimit).toArray ++ (bs.drop blockLimit).toArray = bs.toArray := by
        simp
      rw [List.append_assoc, inflateBlocks_storedBlock _ false hlimit, if_neg Bool.false_ne_true,
        ih fuel hless, Array.append_assoc, hbytes]

/-! ### The checksum -/

theorem adler32_lt (bs : List UInt8) : adler32 bs < 2 ^ 32 := by
  unfold adler32
  generalize hsums : List.foldl _ (1, 0) bs = sums
  -- both sums stay below the modulus
  have hbound : sums.1 < 65521 ∧ sums.2 < 65521 := by
    rw [← hsums]
    refine List.foldlRecOn (motive := fun sums : Nat × Nat => sums.1 < 65521 ∧ sums.2 < 65521) bs _
      ⟨by decide, by decide⟩ fun sums _ x _ => ?_
    exact ⟨Nat.mod_lt _ (by decide), Nat.mod_lt _ (by decide)⟩
  change sums.2 * 65536 + sums.1 < 2 ^ 32
  omega

/-- The checksum behind the blocks is read back. -/
theorem foldl_checksum {n : Nat} (h : n < 2 ^ 32) :
    [UInt8.ofNat (n / 0x1000000), UInt8.ofNat (n / 0x10000), UInt8.ofNat (n / 0x100),
      UInt8.ofNat n].foldl (fun n b => 256 * n + b.toNat) 0 = n := by
  simp only [List.foldl_cons, List.foldl_nil, UInt8.toNat_ofNat']
  omega

/-- **Stored bytes are given back if their checksum is right,** and nothing is otherwise. -/
theorem inflate?_storedBlocks (start : List UInt8) (hstart : start.length = 2) (bs : List UInt8)
    (sum : List UInt8) (hsum : sum.length = 4) :
    inflate? (start ++ storedBlocks bs ++ sum)
      = if sum.foldl (fun n b => 256 * n + b.toNat) 0 = adler32 bs then some bs else none := by
  have hstream : (start ++ storedBlocks bs ++ sum).drop 2 = storedBlocks bs ++ sum := by
    rw [List.append_assoc, List.drop_left' hstart]
  have hfuel : bs.length < (bitsOf (storedBlocks bs ++ sum)).length + 1 := by
    have := length_le_storedBlocks bs
    rw [length_bitsOf, List.length_append]
    omega
  have hblocks : inflateBlocks ((bitsOf (storedBlocks bs ++ sum)).length + 1) #[]
      (bitsOf (storedBlocks bs ++ sum)) = some (bs.toArray, bitsOf sum) := by
    rw [inflateBlocks_storedBlocks hfuel, Array.empty_append]
  have hread : takeBytes 4 (align (bitsOf sum)) = some (sum, []) := by
    have halign : align (bitsOf sum) = bitsOf sum := align_bitsOf (by decide : [].length < 8) sum
    rw [halign, ← List.append_nil (bitsOf sum), ← hsum]
    exact takeBytes_bitsOf sum []
  rw [inflate?, hstream]
  simp only [hblocks, hread, Option.bind_eq_bind, Option.bind_some]

/-- **What is stored is what is inflated.** -/
theorem inflate?_store (bs : List UInt8) : inflate? (store bs) = some bs := by
  rw [store, inflate?_storedBlocks _ rfl bs _ rfl, foldl_checksum (adler32_lt bs), if_pos rfl]

end ScriptLift.Zlib
