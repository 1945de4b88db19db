import ChunkStrings.Proofs.KeystreamMask
import Mathlib.Algebra.Ring.Nat

/-!
# Keys that double

The keys of a buffer can be told without running through its counter, as long as the counter does
not wrap. It grows by its own remainder by 255, so what is left of it by 255 doubles at every turn
(`Keystream.tally_mod`): the key at an index is the number of bytes less one, times a power of two,
by 255. From this form it can be seen that the keys come back after eight turns, since 256 leaves
one, and that they are either all zero or none of them is, since two and 255 have no factor in
common.

That the counter does not wrap is a matter of adding up. A turn adds 254 at most, and there is one
turn for every byte but the first, so the counter never comes to more than 255 times what it
starts with (`Keystream.tally_le`). `Keystream.tally` is the counter as a number without an end;
while it stays below the sign bit, the word of 32 bits is the same number
(`Keystream.iterate_advance`).
-/

namespace ChunkStrings.Keystream

/-- **The counter as a number**, at the start of a buffer of so many bytes and after as many
turns. -/
def tally (length : Nat) : (turn : Nat) → Nat
  | 0 => length - 1
  | turn + 1 => tally length turn + tally length turn % 255

variable {length turn count : Nat}

/-! ### The number -/

/-- A turn adds 254 at most. -/
theorem tally_le (length turn : Nat) : tally length turn ≤ length - 1 + 254 * turn := by
  induction turn with
  | zero => exact Nat.le_refl _
  | succ turn ih =>
    have hkey := Nat.mod_lt (tally length turn) (show 0 < 255 by decide)
    rw [tally]
    omega

/-- In a short buffer, the number stays below the sign bit to the last turn. -/
theorem tally_lt (hshort : 255 * (length - 1) < 2 ^ 31) (hturn : turn ≤ length - 1) :
    tally length turn < 2 ^ 31 := by
  have hle := tally_le length turn
  omega

/-- **What is left by 255 doubles at every turn**, since it is what is added. -/
theorem tally_mod (length turn : Nat) :
    tally length turn % 255 = (length - 1) * 2 ^ turn % 255 := by
  induction turn with
  | zero => rw [tally, Nat.pow_zero, Nat.mul_one]
  | succ turn ih =>
    calc tally length (turn + 1) % 255
        = (tally length turn % 255 + tally length turn % 255) % 255 := by rw [tally]; omega
      _ = ((length - 1) * 2 ^ turn % 255 + (length - 1) * 2 ^ turn % 255) % 255 := by rw [ih]
      _ = (length - 1) * 2 ^ turn * 2 % 255 := by omega
      _ = (length - 1) * 2 ^ (turn + 1) % 255 := by rw [Nat.mul_assoc, ← Nat.pow_succ]

/-- Eight turns multiply by 256, which leaves one by 255. -/
theorem tally_add_eight_mod (length turn : Nat) :
    tally length (turn + 8) % 255 = tally length turn % 255 := by
  rw [tally_mod, tally_mod, Nat.pow_add, ← Nat.mul_assoc]
  omega

/-- A power of two takes no factor out of 255. -/
theorem tally_mod_eq_zero_iff : tally length turn % 255 = 0 ↔ 255 ∣ length - 1 := by
  have hcoprime : Nat.Coprime 255 (2 ^ turn) := Nat.Coprime.pow_right turn (by decide)
  rw [tally_mod, ← Nat.dvd_iff_mod_eq_zero]
  exact ⟨hcoprime.dvd_of_dvd_mul_right, fun h => Nat.dvd_mul_right_of_dvd h _⟩

/-! ### The word -/

/-- The key of a counter that is no negative number is what is left of it. -/
theorem key_ofNat (h : count < 2 ^ 31) : key (Int32.ofNat count) = UInt8.ofNat (count % 255) := by
  have hmod : Int32.ofNat count % 255 = Int32.ofNat (count % 255) :=
    (Int32.ofNat_mod h (by decide)).symm
  rw [key, hmod, Int32.toUInt32_ofNat', UInt32.toUInt8_ofNat']

theorem advance_ofNat (h : count < 2 ^ 31) :
    advance (Int32.ofNat count) = Int32.ofNat (count + count % 255) := by
  have hbyte : count % 255 < UInt8.size :=
    Nat.lt_trans (Nat.mod_lt count (by decide)) (by decide)
  rw [advance, key_ofNat h, UInt8.toUInt32_ofNat' hbyte, UInt32.toInt32_ofNat', Int32.ofNat_add]

/-- **In a short buffer, the counter is the number**: the induction is on the turns, and the number
is below the sign bit at each of them. -/
theorem iterate_advance (hpos : 0 < length) (hshort : 255 * (length - 1) < 2 ^ 31)
    (hturn : turn ≤ length - 1) : advance^[turn] (start length) = Int32.ofNat (tally length turn) := by
  induction turn with
  | zero => exact (Int32.ofNat_sub length 1 hpos).symm
  | succ turn ih =>
    have hbefore : turn ≤ length - 1 := Nat.le_of_succ_le hturn
    rw [Function.iterate_succ_apply', ih hbefore, advance_ofNat (tally_lt hshort hbefore), tally]

theorem toInt_iterate_advance (hpos : 0 < length) (hshort : 255 * (length - 1) < 2 ^ 31)
    (hturn : turn ≤ length - 1) : (advance^[turn] (start length)).toInt = tally length turn := by
  rw [iterate_advance hpos hshort hturn, Int32.toInt_ofNat_of_lt (tally_lt hshort hturn)]

theorem key_iterate_advance (hpos : 0 < length) (hshort : 255 * (length - 1) < 2 ^ 31)
    (hturn : turn ≤ length - 1) :
    key (advance^[turn] (start length)) = UInt8.ofNat (tally length turn % 255) := by
  rw [iterate_advance hpos hshort hturn, key_ofNat (tally_lt hshort hturn)]

/-- What is left by 255 is told by one byte. -/
theorem toNat_ofNat_mod (count : Nat) : (UInt8.ofNat (count % 255)).toNat = count % 255 :=
  UInt8.toNat_ofNat_of_lt' (Nat.lt_trans (Nat.mod_lt count (by decide)) (by decide))

/-! ### What it comes to -/

/-- **The keys of a short buffer double by 255.** The counter starts with the number of bytes less
one, is never negative, and every sum that it takes is that of the numbers, so it never wraps. The
key at every turn is the start times a power of two, by 255, and every byte behind the first is
combined with the key of its turn. Hence the keys come back after eight turns; and the buffer
stays as it is if 255 divides the start, while all bytes behind the first change if it does
not. -/
theorem apply_doubling (buffer : ByteArray) (hpos : 0 < buffer.size)
    (hshort : 255 * (buffer.size - 1) < 2 ^ 31) :
    let length := buffer.size
    let counter := fun turn : Nat => advance^[turn] (start length)
    -- the counter
    ((counter 0).toInt = (length - 1 : Nat) ∧
      ∀ turn < length - 1, 0 ≤ (counter turn).toInt ∧
        (counter (turn + 1)).toInt = (counter turn).toInt + (key (counter turn)).toNat) ∧
    -- the keys
    (∀ turn < length - 1, (key (counter turn)).toNat = (length - 1) * 2 ^ turn % 255) ∧
    (∀ turn, turn + 8 < length - 1 → key (counter (turn + 8)) = key (counter turn)) ∧
    -- the bytes
    (∀ i, 1 ≤ i → ∀ (h : i < buffer.size) (hi : i < (apply buffer).size),
      (apply buffer)[i] = buffer[i] ^^^ key (counter (i - 1)) ∧
        (apply buffer)[i] = buffer[i] ^^^ UInt8.ofNat ((length - 1) * 2 ^ (i - 1) % 255)) ∧
    (255 ∣ length - 1 → apply buffer = buffer) ∧
    (¬255 ∣ length - 1 → ∀ i, 1 ≤ i → ∀ (h : i < buffer.size) (hi : i < (apply buffer).size),
      (apply buffer)[i] ≠ buffer[i]) := by
  intro length counter
  have hcounter : ∀ turn ≤ length - 1, (counter turn).toInt = tally length turn :=
    fun turn => toInt_iterate_advance hpos hshort
  have hkey : ∀ turn ≤ length - 1, key (counter turn) = UInt8.ofNat (tally length turn % 255) :=
    fun turn => key_iterate_advance hpos hshort
  have hbyte : ∀ i, 1 ≤ i → ∀ (h : i < buffer.size) (hi : i < (apply buffer).size),
      (apply buffer)[i] = buffer[i] ^^^ key (counter (i - 1)) := by
    intro i hone h hi
    obtain ⟨turn, rfl⟩ := Nat.exists_eq_add_of_le' hone
    exact getElem_apply hi h
  refine ⟨⟨hcounter 0 (Nat.zero_le _), fun turn hturn => ?_⟩, fun turn hturn => ?_,
    fun turn hturn => ?_, fun i hone h hi => ?_, fun hdvd => ?_, fun hdvd i hone h hi heq => ?_⟩
  · rw [hcounter turn (by omega), hcounter (turn + 1) hturn, hkey turn (by omega), toNat_ofNat_mod,
      tally, Int.natCast_add]
    exact ⟨Int.natCast_nonneg _, rfl⟩
  · rw [hkey turn (by omega), toNat_ofNat_mod, tally_mod]
  · rw [hkey (turn + 8) (by omega), hkey turn (by omega), tally_add_eight_mod]
  · refine ⟨hbyte i hone h hi, ?_⟩
    rw [hbyte i hone h hi, hkey (i - 1) (by omega), tally_mod]
  · refine ByteArray.ext_getElem (size_apply buffer) fun i hi h => ?_
    rcases Nat.eq_zero_or_pos i with rfl | hone
    · rw [getElem_apply hi h, mask, UInt8.xor_zero]
    · rw [hbyte i hone h hi, hkey (i - 1) (by omega), tally_mod_eq_zero_iff.mpr hdvd]
      exact UInt8.xor_zero
  · -- a byte that stays as it is was combined with zero
    have hzero : key (counter (i - 1)) = 0 :=
      (UInt8.xor_right_inj buffer[i]).mp (by rw [← hbyte i hone h hi, heq, UInt8.xor_zero])
    have hmod := toNat_ofNat_mod (tally length (i - 1))
    rw [← hkey (i - 1) (by omega), hzero] at hmod
    exact hdvd (tally_mod_eq_zero_iff.mp hmod.symm)

/-- Of four letters, the last one is combined with three times four; of 256, none is changed. -/
theorem apply_doubling_letters :
    let letters := [0x41, 0x42, 0x43, 0x44].toByteArray
    (0 < letters.size ∧ 255 * (letters.size - 1) < 2 ^ 31 ∧
      ∀ (h : 3 < letters.size) (hi : 3 < (apply letters).size),
        (apply letters).get 3 hi = letters.get 3 h ^^^ 12 ∧
          (apply letters).get 3 hi ≠ letters.get 3 h) ∧
      apply ⟨Array.replicate 256 0x41⟩ = ⟨Array.replicate 256 0x41⟩ := by
  intro letters
  have hpos : 0 < letters.size := by decide
  have hshort : 255 * (letters.size - 1) < 2 ^ 31 := by decide
  obtain ⟨-, -, -, hkeyed, -, hother⟩ := apply_doubling letters hpos hshort
  refine ⟨⟨hpos, hshort, fun h hi => ⟨?_, ?_⟩⟩, ?_⟩
  · exact (hkeyed 3 (by decide) h hi).2
  · exact hother (by decide) 3 (by decide) h hi
  · have hsize : (⟨Array.replicate 256 0x41⟩ : ByteArray).size = 256 := Array.size_replicate
    refine (apply_doubling _ ?_ ?_).2.2.2.2.1 ?_ <;> rw [hsize] <;> decide

end ChunkStrings.Keystream
