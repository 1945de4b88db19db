import ChunkStrings.Proofs.Emission
import ChunkStrings.Proofs.MachineWords

/-!
# Lengths, and how they count

A length is a value together with a width that it fits into. It is made of the two, or of a size
in the width of a chunk, or read. Where it is made, the value is checked; where it is read, it is
not, since as many bytes as the width asks for never spell a number that is too large for it. So
the check could stand behind the read as well and would let everything pass
(`LengthInt.decode_eq_checked`).

What a length is for, besides being stored, is to count: `LengthInt.iterate` calls an action once
for every index below the value. The action may do anything with its state, and it may fail. Which
calls this comes to is said without the loop: `Succeeds` names the states in between, one for
every call. A loop that ends is all of its calls, one that fails is the calls up to the first that
does (`LengthInt.run_forIndexes_eq_ok`, `LengthInt.run_forIndexes_eq_error`); and an action that
takes down the index of every call finds them in order, without a gap.
-/

namespace ChunkStrings

/-! ### Calls in turn -/

section Calls

variable {ε σ : Type} {action : Nat → EStateM ε σ Unit} {start count : Nat}
  {before between after : σ} {fault : ε}

/-- **The calls with so many indexes from the first on succeed**, each in the state that the one
before it has left. -/
def Succeeds (action : Nat → EStateM ε σ Unit) (start count : Nat) (before after : σ) : Prop :=
  ∃ states : Nat → σ, states 0 = before ∧ states count = after ∧
    ∀ i < count, (action (start + i)).run (states i) = .ok () (states (i + 1))

theorem succeeds_zero_iff : Succeeds action start 0 before after ↔ before = after := by
  constructor
  · rintro ⟨states, rfl, rfl, -⟩
    rfl
  · rintro rfl
    exact ⟨fun _ => before, rfl, rfl, nofun⟩

/-- The states of some calls, with one more in front. -/
def precede (first : σ) (states : Nat → σ) : Nat → σ
  | 0 => first
  | i + 1 => states i

/-- **One call more is one call, and then the others**. -/
theorem succeeds_succ_iff : Succeeds action start (count + 1) before after ↔
    ∃ between, (action start).run before = .ok () between ∧
      Succeeds action (start + 1) count between after := by
  constructor
  · rintro ⟨states, rfl, rfl, h⟩
    refine ⟨states 1, h 0 (Nat.succ_pos count), fun i => states (i + 1), rfl, rfl, fun i hi => ?_⟩
    rw [Nat.add_right_comm]
    exact h (i + 1) (Nat.succ_lt_succ hi)
  · rintro ⟨_, hcall, states, rfl, rfl, h⟩
    refine ⟨precede before states, rfl, rfl, fun i hi => ?_⟩
    cases i with
    | zero => exact hcall
    | succ i =>
      have hi := h i (Nat.lt_of_succ_lt_succ hi)
      rwa [Nat.add_right_comm] at hi

/-- The action, which also takes down the index that it is called with. -/
def recorded (action : Nat → EStateM ε σ Unit) (index : Nat) : EStateM ε (σ × List Nat) Unit
  | (state, calls) =>
    match (action index).run state with
    | .ok () after => .ok () (after, calls ++ [index])
    | .error fault after => .error fault (after, calls ++ [index])

theorem run_recorded_eq_ok {index : Nat} {calls calls' : List Nat} :
    (recorded action index).run (before, calls) = .ok () (after, calls') ↔
      (action index).run before = .ok () after ∧ calls' = calls ++ [index] := by
  simp only [recorded, EStateM.run]
  cases action index before <;> simp [eq_comm]

theorem run_recorded_eq_error {index : Nat} {calls calls' : List Nat} :
    (recorded action index).run (before, calls) = .error fault (after, calls') ↔
      (action index).run before = .error fault after ∧ calls' = calls ++ [index] := by
  simp only [recorded, EStateM.run]
  cases action index before <;> simp [eq_comm, and_assoc]

/-- **The indexes of calls that succeed are taken down in order**, without a gap. The induction is
on the number of the calls. -/
theorem succeeds_recorded_iff {calls calls' : List Nat} :
    Succeeds (recorded action) start count (before, calls) (after, calls') ↔
      Succeeds action start count before after ∧ calls' = calls ++ List.range' start count := by
  induction count generalizing start before calls with
  | zero => simp [succeeds_zero_iff, eq_comm]
  | succ count ih =>
    rw [succeeds_succ_iff, succeeds_succ_iff]
    constructor
    · rintro ⟨⟨between, taken⟩, hfirst, hothers⟩
      obtain ⟨hcall, rfl⟩ := run_recorded_eq_ok.mp hfirst
      obtain ⟨hrest, rfl⟩ := ih.mp hothers
      refine ⟨⟨between, hcall, hrest⟩, ?_⟩
      rw [List.range'_succ, List.append_assoc, List.singleton_append]
    · rintro ⟨⟨between, hcall, hrest⟩, rfl⟩
      refine ⟨(between, calls ++ [start]), run_recorded_eq_ok.mpr ⟨hcall, rfl⟩, ih.mpr ⟨hrest, ?_⟩⟩
      rw [List.range'_succ, List.append_assoc, List.singleton_append]

end Calls

namespace LengthInt

/-! ### The loop -/

section Loop

variable {ε σ : Type} {action : Nat → EStateM ε σ Unit} {start count : Nat} {before after : σ}
  {fault : ε}

/-- **A loop that ends has made all of its calls.** The induction is on the number of turns. -/
theorem run_forIndexes_eq_ok : (forIndexes action count start).run before = .ok () after ↔
    Succeeds action start count before after := by
  induction count generalizing start before with
  | zero =>
    rw [succeeds_zero_iff, forIndexes, EStateM.run_pure]
    simp
  | succ count ih =>
    rw [succeeds_succ_iff, forIndexes, EStateM.run_bind]
    cases hcall : (action start).run before with
    | ok _ between => simp [ih]
    | error fault between => simp

/-- **A loop that fails has made its calls up to the first that fails**, and its failure is the
loop's. -/
theorem run_forIndexes_eq_error :
    (forIndexes action count start).run before = .error fault after ↔
      ∃ turn < count, ∃ between, Succeeds action start turn before between ∧
        (action (start + turn)).run between = .error fault after := by
  induction count generalizing start before with
  | zero =>
    rw [forIndexes, EStateM.run_pure]
    simp
  | succ count ih =>
    rw [forIndexes, EStateM.run_bind]
    constructor
    · intro h
      cases hcall : (action start).run before with
      | ok _ next =>
        rw [hcall] at h
        obtain ⟨turn, hturn, between, hearlier, hfail⟩ := ih.mp h
        rw [Nat.add_right_comm] at hfail
        exact ⟨turn + 1, Nat.succ_lt_succ hturn, between,
          succeeds_succ_iff.mpr ⟨next, hcall, hearlier⟩, hfail⟩
      | error fault' next =>
        rw [hcall] at h
        cases h
        exact ⟨0, Nat.succ_pos count, before, succeeds_zero_iff.mpr rfl, hcall⟩
    · rintro ⟨turn, hturn, between, hearlier, hfail⟩
      cases turn with
      | zero =>
        cases succeeds_zero_iff.mp hearlier
        rw [Nat.add_zero] at hfail
        rw [hfail]
      | succ turn =>
        obtain ⟨next, hcall, hearlier⟩ := succeeds_succ_iff.mp hearlier
        rw [hcall]
        refine ih.mpr ⟨turn, Nat.lt_of_succ_lt_succ hturn, between, hearlier, ?_⟩
        rwa [Nat.add_right_comm]

/-- The loop over the indexes below a value, with every call taken down. -/
theorem run_iterate_recorded_eq_ok (length : LengthInt) {calls : List Nat} :
    (length.iterate (recorded action)).run (before, []) = .ok () (after, calls) ↔
      Succeeds action 0 length.value before after ∧ calls = List.range length.value := by
  rw [iterate, run_forIndexes_eq_ok, succeeds_recorded_iff, List.nil_append,
    List.range_eq_range']

theorem run_iterate_recorded_eq_error (length : LengthInt) {calls : List Nat} :
    (length.iterate (recorded action)).run (before, []) = .error fault (after, calls) ↔
      ∃ turn < length.value, ∃ between, Succeeds action 0 turn before between ∧
        (action turn).run between = .error fault after ∧ calls = List.range (turn + 1) := by
  rw [iterate, run_forIndexes_eq_error]
  simp only [Nat.zero_add]
  constructor
  · rintro ⟨turn, hturn, ⟨between, taken⟩, hcalls, hlast⟩
    obtain ⟨hearlier, rfl⟩ := succeeds_recorded_iff.mp hcalls
    obtain ⟨hfail, rfl⟩ := run_recorded_eq_error.mp hlast
    refine ⟨turn, hturn, between, hearlier, hfail, ?_⟩
    rw [List.nil_append, ← List.range_eq_range', List.range_succ]
  · rintro ⟨turn, hturn, between, hearlier, hfail, rfl⟩
    refine ⟨turn, hturn, (between, List.range turn), succeeds_recorded_iff.mpr ⟨hearlier, ?_⟩,
      run_recorded_eq_error.mpr ⟨hfail, List.range_succ⟩⟩
    rw [List.nil_append, List.range_eq_range']

end Loop

/-- **The index above a word that is below another is a word**, so that counting up to a word never
wraps around. -/
theorem toNat_add_one_of_lt {index stop : UInt64} (h : index < stop) :
    (index + 1).toNat = index.toNat + 1 := by
  have hlt := UInt64.lt_iff_toNat_lt.mp h
  have hstop := stop.toNat_lt
  have hone : (1 : UInt64).toNat = 1 := rfl
  rw [UInt64.toNat_add, hone]
  exact Nat.mod_eq_of_lt (by omega)

/-- Runs an action for the indexes from this one on that are below the end, in order. The indexes
are words. -/
def forWords {m : Type → Type} [Monad m] (action : UInt64 → m Unit) (index stop : UInt64) :
    m Unit :=
  if h : index < stop then do
    action index
    forWords action (index + 1) stop
  else pure ()
termination_by stop.toNat - index.toNat
decreasing_by
  have hlt := UInt64.lt_iff_toNat_lt.mp h
  rw [toNat_add_one_of_lt h]
  omega

/-- Counting in words is counting. The induction is on the number of turns that are left. -/
theorem forWords_eq {m : Type → Type} [Monad m] (action : UInt64 → m Unit) (index stop : UInt64) :
    forWords action index stop =
      forIndexes (fun index => action (UInt64.ofNat index)) (stop.toNat - index.toNat)
        index.toNat := by
  fun_induction forWords action index stop with
  | case1 index h ih =>
    have hlt := UInt64.lt_iff_toNat_lt.mp h
    obtain ⟨turns, hturns⟩ : ∃ turns, stop.toNat - index.toNat = turns + 1 :=
      Nat.exists_eq_add_one.mpr (by omega)
    have hrest : stop.toNat - (index.toNat + 1) = turns := by omega
    rw [ih, toNat_add_one_of_lt h, hrest, hturns, forIndexes, UInt64.ofNat_toNat]
  | case2 index h =>
    have hnone : stop.toNat - index.toNat = 0 :=
      Nat.sub_eq_zero_of_le (Nat.not_lt.mp (mt UInt64.lt_iff_toNat_lt.mpr h))
    rw [hnone, forIndexes]

/-! ### How lengths are made -/

section Making

variable {value width : Nat} {length : LengthInt} {format : ChunkFormat}
  {before after : DecodeState}

theorem value_lt_pow (length : LengthInt) : length.value < 256 ^ length.width.bytes :=
  length.width.limit_eq_pow ▸ length.fits

theorem ofParts_of_mem (hwidth : 1 ≤ width ∧ width ≤ 8) :
    ofParts value width = ofValue value ⟨width, hwidth.1, hwidth.2⟩ := by
  rw [ofParts, Width.ofNat_of_mem hwidth]
  rfl

theorem ofParts_eq_ok : ofParts value width = .ok length ↔
    length.value = value ∧ length.width.bytes = width := by
  constructor
  · intro h
    by_cases hwidth : 1 ≤ width ∧ width ≤ 8
    · rw [ofParts_of_mem hwidth, ofValue] at h
      split at h <;> cases h
      exact ⟨rfl, rfl⟩
    · rw [ofParts, Width.ofNat_of_not_mem hwidth] at h
      cases h
  · rintro ⟨rfl, rfl⟩
    rw [ofParts_of_mem ⟨length.width.one_le, length.width.le_eight⟩]
    exact dif_pos length.fits

/-- A value and a width make a length exactly if the value fits. -/
theorem exists_ofParts_eq_ok : (∃ length, ofParts value width = .ok length) ↔
    (1 ≤ width ∧ width ≤ 8) ∧ value < 256 ^ width := by
  constructor
  · rintro ⟨length, h⟩
    obtain ⟨rfl, rfl⟩ := ofParts_eq_ok.mp h
    exact ⟨⟨length.width.one_le, length.width.le_eight⟩, length.value_lt_pow⟩
  · rintro ⟨hwidth, hvalue⟩
    have hfits : value < byteLimit width := byteLimit_eq_pow width ▸ hvalue
    exact ⟨⟨value, ⟨width, hwidth.1, hwidth.2⟩, hfits⟩, ofParts_eq_ok.mpr ⟨rfl, rfl⟩⟩

theorem ofLength_eq (value : Nat) (format : ChunkFormat) :
    ofLength value format = ofParts value format.width.bytes :=
  (ofParts_of_mem ⟨format.width.one_le, format.width.le_eight⟩).symm

/-- **A check behind the read would let everything pass.** -/
theorem decode_eq_checked (format : ChunkFormat) : decode format = (do
    let value ← Decode.uint format.width.bytes format.order
    liftExcept (ofParts value format.width.bytes)) := by
  rw [Decode.uint_eq]
  funext before
  change (decode format).run before = ((decode format >>= _) >>= _ : Decode LengthInt).run before
  rw [EStateM.run_bind, EStateM.run_bind]
  cases hrun : (decode format).run before with
  | error fault after => rfl
  | ok length after =>
    have hwidth := congrArg Width.bytes (run_decode_eq_ok.mp hrun).1
    have hmade : ofParts length.value format.width.bytes = .ok length :=
      ofParts_eq_ok.mpr ⟨rfl, hwidth⟩
    simp only [EStateM.run_pure, hmade]
    rfl

/-- What a read comes to always passes the check. -/
theorem lt_pow_of_run_uint
    (h : (Decode.uint format.width.bytes format.order).run before = .ok value after) :
    value < 256 ^ format.width.bytes ∧ ∃ length : LengthInt, length.value = value ∧
      length.width = format.width ∧ (decode format).run before = .ok length after := by
  rw [Decode.uint_eq] at h
  obtain ⟨length, between, hrun, hvalue⟩ := Decode.run_bind_eq_ok.mp h
  cases hvalue
  have hwidth := (run_decode_eq_ok.mp hrun).1
  have hlt := length.value_lt_pow
  rw [hwidth] at hlt
  exact ⟨hlt, length, rfl, hwidth, hrun⟩

end Making

/-! ### How lengths are stored -/

/-- The bytes that a length is stored in, in this order. -/
def field (length : LengthInt) (order : ByteOrder) : ByteArray :=
  (order.encode length.width.bytes length.value).toByteArray

theorem size_field (length : LengthInt) (order : ByteOrder) :
    (length.field order).size = length.width.bytes := by
  simp [field]

/-- A length has a width of its own, and fits into it whatever the width of the chunk is. -/
theorem run_write_growing (length : LengthInt) (format : ChunkFormat) (written : ByteArray) :
    (length.write format).run (.growing written) =
      .ok () (.growing (written ++ length.field format.order)) := by
  let own : ChunkFormat := { format with width := length.width }
  have hfits : length.value < own.width.limit := length.fits
  have hwrite : length.write format = Emit.bytes (own.field length.value) := write_eq hfits
  rw [hwrite, Emit.run_bytes_growing]
  rfl

/-- **A length is read back where it is stored**, in a format of its width. -/
theorem run_decode_field {length : LengthInt} {format : ChunkFormat}
    (hwidth : format.width = length.width) (front rest scratch : ByteArray)
    (log : Array LogLine) :
    (decode format).run ⟨.between front (length.field format.order ++ rest), scratch, log⟩ =
      .ok length ⟨.between (front ++ length.field format.order) rest, scratch, log⟩ := by
  have hfield : length.field format.order = format.field length.value := by
    rw [field, ChunkFormat.field, hwidth]
  rw [hfield]
  exact run_decode_eq_ok.mpr ⟨hwidth.symm, _, Cursor.passes_between _ _ _, rfl⟩

/-! ### What it all comes to -/

/-- **Every length is in its range, is read back as it is written, and counts as far as it says.** A
length that is made of a value and a width, or of a size and the width of a chunk, has this value
and this width, and it is made exactly if the value fits. A length that is read has the value of
the integer that stands there, which nothing checks; a check would let all of them pass, and in
machine words they are the same. So every length has a width from one to eight bytes, and a value
below the power of 256 to their number. A buffer that grows takes as many bytes for it as the width
says, and where these stand in some data, a reader whose format has this width and order gets the
length back and moves over them.

A loop over the indexes below the value ends well exactly if there are states, from the first to the
last, such that the call with each index in turn succeeds in one of them and leaves the next; and
the indexes are called in order. It fails exactly if there is an index below the value such that the
calls with those before it do so, and its own fails; no index after it is called, and the fault
and the state are those of this call. Counting in machine words is the same. -/
theorem in_range_and_counted {ε σ : Type} :
    -- how lengths are made
    (∀ value width length, ofParts value width = .ok length ↔
      length.value = value ∧ length.width.bytes = width) ∧
    (∀ value width, (∃ length, ofParts value width = .ok length) ↔
      (1 ≤ width ∧ width ≤ 8) ∧ value < 256 ^ width) ∧
    (∀ value format, ofLength value format = ofParts value format.width.bytes) ∧
    (∀ format : ChunkFormat,
      (decode format = (do
        let value ← Decode.uint format.width.bytes format.order
        liftExcept (ofParts value format.width.bytes))) ∧
      (∀ before value after,
        (Decode.uint format.width.bytes format.order).run before = .ok value after →
        value < 256 ^ format.width.bytes ∧ ∃ length : LengthInt, length.value = value ∧
          length.width = format.width ∧ (decode format).run before = .ok length after) ∧
      Refines (fun word length => word.toNat = length.value) (WordDecode.length format)
        (decode format)) ∧
    ∀ length : LengthInt,
      -- what holds of each of them
      ((1 ≤ length.width.bytes ∧ length.width.bytes ≤ 8) ∧
        length.value < 256 ^ length.width.bytes) ∧
      -- how it is stored
      (∀ format : ChunkFormat,
        let bytes := length.field format.order
        bytes.size = length.width.bytes ∧
        (∀ written, (length.write format).run (.growing written) =
          .ok () (.growing (written ++ bytes))) ∧
        ∀ reader : ChunkFormat, reader.width = length.width → reader.order = format.order →
          ∀ front rest scratch log,
            (decode reader).run ⟨.between front (bytes ++ rest), scratch, log⟩ =
              .ok length ⟨.between (front ++ bytes) rest, scratch, log⟩) ∧
      -- how it counts
      (∀ (action : Nat → EStateM ε σ Unit) (before : σ),
        (∀ after, (length.iterate action).run before = .ok () after ↔
          Succeeds action 0 length.value before after) ∧
        (∀ fault after, (length.iterate action).run before = .error fault after ↔
          ∃ failed < length.value, ∃ between, Succeeds action 0 failed before between ∧
            (action failed).run between = .error fault after) ∧
        (∀ after calls,
          (length.iterate (recorded action)).run (before, []) = .ok () (after, calls) ↔
          Succeeds action 0 length.value before after ∧ calls = List.range length.value) ∧
        ∀ fault after calls,
          (length.iterate (recorded action)).run (before, []) = .error fault (after, calls) ↔
          ∃ failed < length.value, ∃ between, Succeeds action 0 failed before between ∧
            (action failed).run between = .error fault after ∧
            calls = List.range (failed + 1)) ∧
      ∀ action : UInt64 → EStateM ε σ Unit,
        (UInt64.ofNat length.value).toNat = length.value ∧
        forWords action 0 (UInt64.ofNat length.value) =
          length.iterate fun index => action (UInt64.ofNat index) := by
  refine ⟨fun _ _ _ => ofParts_eq_ok, fun _ _ => exists_ofParts_eq_ok, ofLength_eq,
    fun format => ⟨decode_eq_checked format, fun _ _ _ => lt_pow_of_run_uint,
      WordDecode.refines_length format⟩, fun length => ⟨?_, fun format => ?_,
    fun action before => ⟨fun after => run_forIndexes_eq_ok, fun fault after => ?_,
      fun _ _ => run_iterate_recorded_eq_ok length,
      fun _ _ _ => run_iterate_recorded_eq_error length⟩, fun action => ?_⟩⟩
  · exact ⟨⟨length.width.one_le, length.width.le_eight⟩, length.value_lt_pow⟩
  · refine ⟨length.size_field format.order, length.run_write_growing format, ?_⟩
    intro reader hwidth horder front rest scratch log
    rw [← horder]
    exact run_decode_field hwidth front rest scratch log
  · rw [iterate, run_forIndexes_eq_error]
    simp only [Nat.zero_add]
  · have hvalue : (UInt64.ofNat length.value).toNat = length.value :=
      toNat_ofNat_of_lt (Nat.lt_of_lt_of_le length.fits length.width.limit_le)
    refine ⟨hvalue, ?_⟩
    rw [forWords_eq, hvalue]
    rfl

/-- A length of two bytes that is read where it is written, and a loop that adds up its indexes and
gives up at the fourth. -/
theorem in_range_and_counted_givenUp :
    let format : ChunkFormat := ⟨0x54, ⟨2, by decide, by decide⟩, .big, false⟩
    let length : LengthInt := ⟨5, format.width, by decide⟩
    let front : ByteArray := [9].toByteArray
    let bytes : ByteArray := [0, 5].toByteArray
    let rest : ByteArray := [7].toByteArray
    let before : DecodeState := ⟨.between front (bytes ++ rest), .empty, #[]⟩
    let after : DecodeState := ⟨.between (front ++ bytes) rest, .empty, #[]⟩
    let action : Nat → EStateM String Nat Unit := fun index =>
      if index = 3 then throw "enough" else modify (· + index)
    ofParts 5 2 = .ok length ∧ (Decode.uint 2 .big).run before = .ok 5 after ∧ 5 < 256 ^ 2 ∧
      (length.write format).run (.growing front) = .ok () (.growing (front ++ bytes)) ∧
      (decode (format.withTracing true)).run before = .ok length after ∧
      (length.iterate (recorded action)).run (10, []) = .error "enough" (13, [0, 1, 2, 3]) := by
  intro format length front bytes rest before after action
  have hbytes : length.field format.order = bytes := by decide
  have hcalls : Succeeds action 0 3 10 13 := run_forIndexes_eq_ok.mp rfl
  obtain ⟨hparts, -, -, hread, hlength⟩ := @in_range_and_counted String Nat
  obtain ⟨-, hstored, hcounted, -⟩ := hlength length
  obtain ⟨-, hwrite, hback⟩ := hstored format
  obtain ⟨-, -, -, hfails⟩ := hcounted action 10
  rw [hbytes] at hwrite hback
  have huint : (Decode.uint format.width.bytes format.order).run before = .ok 5 after := by
    rw [Decode.uint_eq, EStateM.run_bind, hback format rfl rfl]
    rfl
  refine ⟨(hparts 5 2 length).mpr (by decide), huint, ((hread format).2.1 _ _ _ huint).1,
    hwrite front, hback (format.withTracing true) rfl rfl front rest .empty #[], ?_⟩
  exact (hfails _ _ _).mpr ⟨3, by decide, 13, hcalls, rfl, by decide⟩

end LengthInt

end ChunkStrings
