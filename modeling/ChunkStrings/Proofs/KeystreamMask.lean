import ChunkStrings.Keystream
import Mathlib.Logic.Function.Iterate

/-!
# The mask of a keystream

The pass over a buffer takes a counter along, and nothing that it finds in the buffer goes into
the counter. What is combined with a byte is therefore known from the number of bytes and the
index of the byte alone, whatever the bytes are: this is `Keystream.mask`, and
`Keystream.getElem_apply` says that the pass does nothing else. The counter may wrap and turn
negative on the way; where it goes does not matter here, only that it goes the same way in
every buffer of the same length.

A second pass combines every byte with the same mask again, so it undoes the first
(`Keystream.apply_apply`). In two buffers of one length the mask is the same, so they differ after
the pass where they did before, and by the same (`Keystream.xor_getElem_apply`).
-/

namespace ChunkStrings.Keystream

/-- **What is combined with the byte at an index** of a buffer of so many bytes: nothing at the
first one, and behind it the key of the counter after as many turns. -/
def mask (length : Nat) : (index : Nat) → UInt8
  | 0 => 0
  | turn + 1 => key (advance^[turn] (start length))

/-! ### One turn of the pass -/

section Turn

variable {buffer : ByteArray} {index i : Nat} {key : UInt8}

theorem getElem_combineAt_self (hi : i < (combineAt buffer i key).size) (h : i < buffer.size) :
    (combineAt buffer i key)[i] = buffer[i] ^^^ key := by
  simp only [combineAt, dif_pos h]
  exact Array.getElem_set_self h

/-- A turn leaves all other bytes alone. -/
theorem getElem_combineAt_of_ne (hne : index ≠ i) (hi : i < (combineAt buffer index key).size)
    (h : i < buffer.size) : (combineAt buffer index key)[i] = buffer[i] := by
  by_cases hindex : index < buffer.size
  · simp only [combineAt, dif_pos hindex]
    exact Array.getElem_set_ne hindex h hne
  · simp only [combineAt, dif_neg hindex]

end Turn

/-! ### The whole pass -/

variable {count index i : Nat} {counter : Int32} {buffer : ByteArray}

/-- The bytes in front of where the pass begins stay what they are. -/
theorem getElem_applyFrom_of_lt (hlt : i < index)
    (hi : i < (applyFrom count index counter buffer).size) (h : i < buffer.size) :
    (applyFrom count index counter buffer)[i] = buffer[i] := by
  induction count generalizing index counter buffer with
  | zero => rfl
  | succ count ih =>
    have hcombine : i < (combineAt buffer index (key counter)).size := by
      rwa [size_combineAt]
    exact (ih (Nat.lt_succ_of_lt hlt) hi hcombine).trans
      (getElem_combineAt_of_ne (Nat.ne_of_gt hlt) hcombine h)

/-- **A byte is combined with the key of its own turn.** The induction is on the number of turns,
with the counter and the buffer left general: the byte of the first turn is in front of where
the others begin. -/
theorem getElem_applyFrom {turn : Nat} (hturn : turn < count) (heq : i = index + turn)
    (hi : i < (applyFrom count index counter buffer).size) (h : i < buffer.size) :
    (applyFrom count index counter buffer)[i] = buffer[i] ^^^ key (advance^[turn] counter) := by
  induction count generalizing index counter buffer turn with
  | zero => exact absurd hturn (Nat.not_lt_zero _)
  | succ count ih =>
    have hcombine : i < (combineAt buffer index (key counter)).size := by
      rwa [size_combineAt]
    cases turn with
    | zero =>
      subst heq
      exact (getElem_applyFrom_of_lt (Nat.lt_succ_self _) hi hcombine).trans
        (getElem_combineAt_self hcombine h)
    | succ turn =>
      have hrest := ih (Nat.lt_of_succ_lt_succ hturn) (by omega) hi hcombine
      rw [getElem_combineAt_of_ne (by omega) hcombine h] at hrest
      exact hrest

/-- **The pass combines every byte with its mask**, and does nothing else. -/
theorem getElem_apply (hi : i < (apply buffer).size) (h : i < buffer.size) :
    (apply buffer)[i] = buffer[i] ^^^ mask buffer.size i := by
  cases i with
  | zero =>
    have hfirst := getElem_applyFrom_of_lt Nat.one_pos hi h
    rw [mask, UInt8.xor_zero]
    exact hfirst
  | succ turn => exact getElem_applyFrom (by omega) (Nat.add_comm _ _) hi h

/-- **The pass undoes itself.** -/
@[simp] theorem apply_apply (buffer : ByteArray) : apply (apply buffer) = buffer := by
  refine ByteArray.ext_getElem (by simp) fun i hi h => ?_
  have honce : i < (apply buffer).size := by rwa [size_apply]
  rw [getElem_apply hi honce, getElem_apply honce h, size_apply, UInt8.xor_assoc, UInt8.xor_self,
    UInt8.xor_zero]

section SameLength

variable {a b : ByteArray}

/-- **Where buffers of one length differ, they differ by the same after the pass**: the mask is the
same for both, and cancels out. -/
theorem xor_getElem_apply (hsize : a.size = b.size) (hi : i < (apply a).size)
    (hi' : i < (apply b).size) (h : i < a.size) (h' : i < b.size) :
    (apply a)[i] ^^^ (apply b)[i] = a[i] ^^^ b[i] := by
  rw [getElem_apply hi h, getElem_apply hi' h', ← hsize]
  calc a[i] ^^^ mask a.size i ^^^ (b[i] ^^^ mask a.size i)
      = a[i] ^^^ b[i] ^^^ (mask a.size i ^^^ mask a.size i) := by ac_rfl
    _ = a[i] ^^^ b[i] := by rw [UInt8.xor_self, UInt8.xor_zero]

/-- They differ at the same places, then. -/
theorem getElem_apply_inj (hsize : a.size = b.size) (hi : i < (apply a).size)
    (hi' : i < (apply b).size) (h : i < a.size) (h' : i < b.size) :
    (apply a)[i] = (apply b)[i] ↔ a[i] = b[i] := by
  rw [← UInt8.xor_eq_zero_iff, xor_getElem_apply hsize hi hi' h h', UInt8.xor_eq_zero_iff]

/-- If one byte is changed, it comes out changed, and no other one does. -/
theorem getElem_apply_set_ne_iff {changed : Nat} {byte : UInt8} (h : changed < buffer.size)
    (hbyte : byte ≠ buffer[changed]) (hi : i < (apply (buffer.set changed byte h)).size)
    (hi' : i < (apply buffer).size) :
    (apply (buffer.set changed byte h))[i] ≠ (apply buffer)[i] ↔ i = changed := by
  have hsize : (buffer.set changed byte h).size = buffer.size := Array.size_set _
  have hset : i < (buffer.set changed byte h).size := by rwa [size_apply] at hi
  have hin : i < buffer.size := by rwa [hsize] at hset
  rw [Ne, getElem_apply_inj hsize hi hi' hset hin]
  constructor
  · intro hdiffers
    by_contra hne
    exact hdiffers (Array.getElem_set_ne h hin (Ne.symm hne))
  · rintro rfl hsame
    exact hbyte ((Array.getElem_set_self h).symm.trans hsame)

end SameLength

/-- What is stored for a content is determined by it, and the other way around. -/
theorem apply_eq_iff {content : ByteArray} : apply buffer = content ↔ buffer = apply content := by
  constructor
  · rintro rfl
    exact (apply_apply buffer).symm
  · rintro rfl
    exact apply_apply content

end ChunkStrings.Keystream
