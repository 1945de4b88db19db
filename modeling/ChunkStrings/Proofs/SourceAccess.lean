import ChunkStrings.Proofs.MachineWords
import ChunkStrings.Source

/-!
# Two ways to the bytes of a source

The bytes of a source are reached by naming a range of them, or with a cursor that is moved to a
position and reads from there. Each way asks on its own whether the bytes are there. A range is
looked at where it ends, and the end is a sum; a cursor looks at how many bytes remain, which is
a difference, and before that at its position. This file shows that both accept the same pairs of
an offset and a length and come to the same bytes, and which fault each of them ends in where it
does not.

Numbers are never too large for a sum. In machine words (`WordDecode`) the end of a range may not
be a word, and the sum that comes out for it then is a small one, inside of the data. So the sum
is formed with a check of its own (`WordDecode.sum?`), and with it the range is accepted for the
same pairs as in numbers (`WordDecode.run_range_eq_ok`). The cursor needs no such check, since it
only subtracts (`WordDecode.run_takeAt_eq_ok`).
-/

namespace ChunkStrings

/-! ### Reading at a cursor -/

namespace Decode

variable {data bytes : ByteArray} {offset length : Nat} {hpos : offset ≤ data.size}
  {scratch : ByteArray} {log : Array LogLine} {after : DecodeState} {fault : Fault}

/-- **What is read at a cursor** are the bytes that a range with the same offset has, and the cursor
ends where this range does. -/
theorem run_take_at_eq_ok :
    (take length).run ⟨⟨data, offset, hpos⟩, scratch, log⟩ = .ok bytes after ↔
      ∃ h : offset + length ≤ data.size, bytes = data.extract offset (offset + length) ∧
        after = ⟨⟨data, offset + length, h⟩, scratch, log⟩ := by
  rcases Nat.lt_or_ge (data.size - offset) length with hlt | hle
  · rw [run_take_of_lt hlt]
    exact ⟨nofun, fun ⟨h, _⟩ => absurd h (by omega)⟩
  · rw [run_take_of_le hle]
    constructor
    · rintro ⟨⟩
      exact ⟨Nat.add_le_of_le_sub' hpos hle, rfl, rfl⟩
    · rintro ⟨_, rfl, rfl⟩
      rfl

/-- Where there are too few bytes, the cursor stays. -/
theorem run_take_at_eq_error :
    (take length).run ⟨⟨data, offset, hpos⟩, scratch, log⟩ = .error fault after ↔
      data.size < offset + length ∧ fault = .truncated length (data.size - offset) ∧
        after = ⟨⟨data, offset, hpos⟩, scratch, log⟩ := by
  rcases Nat.lt_or_ge (data.size - offset) length with hlt | hle
  · rw [run_take_of_lt hlt]
    constructor
    · rintro ⟨⟩
      exact ⟨by omega, rfl, rfl⟩
    · rintro ⟨-, rfl, rfl⟩
      rfl
  · rw [run_take_of_le hle]
    exact ⟨nofun, fun ⟨h, _⟩ => absurd h (by omega)⟩

/-- Moves to a position and reads so many bytes there. -/
def takeAt (offset length : Nat) : Decode ByteArray := do
  seek offset
  take length

theorem run_takeAt_eq_ok : (takeAt offset length).run (.start data) = .ok bytes after ↔
    ∃ h : offset + length ≤ data.size, bytes = data.extract offset (offset + length) ∧
      after = ⟨⟨data, offset + length, h⟩, .empty, #[]⟩ := by
  rcases Nat.lt_or_ge data.size offset with hlt | hle
  · rw [takeAt, EStateM.run_bind, run_seek_of_lt hlt]
    exact ⟨nofun, fun ⟨h, _⟩ => absurd h (by omega)⟩
  · rw [takeAt, EStateM.run_bind, run_seek_of_le hle]
    exact run_take_at_eq_ok

/-- A position that is none of the data is refused before anything is read; at any other position,
the cursor stays if there are too few bytes behind it. -/
theorem run_takeAt_eq_error : (takeAt offset length).run (.start data) = .error fault after ↔
    (data.size < offset ∧ fault = .outOfBounds ∧ after = .start data) ∨
    ∃ h : offset ≤ data.size, data.size < offset + length ∧
      fault = .truncated length (data.size - offset) ∧
      after = ⟨⟨data, offset, h⟩, .empty, #[]⟩ := by
  rcases Nat.lt_or_ge data.size offset with hlt | hle
  · rw [takeAt, EStateM.run_bind, run_seek_of_lt hlt]
    constructor
    · rintro ⟨⟩
      exact .inl ⟨hlt, rfl, rfl⟩
    · rintro (⟨-, rfl, rfl⟩ | ⟨hle, -⟩)
      · rfl
      · exact absurd hle (Nat.not_le.mpr hlt)
  · rw [takeAt, EStateM.run_bind, run_seek_of_le hle]
    refine run_take_at_eq_error.trans ⟨fun h => .inr ⟨hle, h⟩, ?_⟩
    rintro (⟨hlt, -⟩ | ⟨_, h⟩)
    · exact absurd hle (Nat.not_le.mpr hlt)
    · exact h

end Decode

/-! ### In machine words -/

namespace WordDecode

/-- The sum of two words, unless it has come out smaller than one of them. -/
def sum? (a b : UInt64) : Option UInt64 :=
  if a + b < a then none else some (a + b)

/-- The bytes of a range, if all of it lies inside of the data. -/
def range (offset length : UInt64) : WordDecode ByteArray := do
  let state ← get
  match sum? offset length with
  | none => throw (.fault .outOfBounds)
  | some stop =>
    if UInt64.ofNat state.data.size < stop then throw (.fault .outOfBounds)
    else slice offset stop

/-- Moves to a position and reads so many bytes there. -/
def takeAt (offset length : UInt64) : WordDecode ByteArray := do
  seek offset
  take length

/-- A sum that is a word is not smaller than what was added up. -/
theorem sum?_of_lt {a b : UInt64} (h : a.toNat + b.toNat < byteLimit 8) :
    sum? a b = some (UInt64.ofNat (a.toNat + b.toNat)) := by
  have hsum : a + b = UInt64.ofNat (a.toNat + b.toNat) := by
    rw [UInt64.ofNat_add, UInt64.ofNat_toNat, UInt64.ofNat_toNat]
  have hnot : ¬a + b < a := by
    rw [hsum, UInt64.lt_iff_toNat_lt, toNat_ofNat_of_lt h]
    omega
  rw [sum?, if_neg hnot, hsum]

/-- **A sum that is no word is found out** by what comes out for it: the limit is taken off, and
that is more than either of the words. -/
theorem sum?_of_le {a b : UInt64} (h : byteLimit 8 ≤ a.toNat + b.toNat) : sum? a b = none := by
  have ha : a.toNat < byteLimit 8 := a.toNat_lt
  have hb : b.toNat < byteLimit 8 := b.toNat_lt
  have hsum : (a + b).toNat = a.toNat + b.toNat - byteLimit 8 := by
    rw [UInt64.toNat_add]
    exact (Nat.mod_eq_sub_mod h).trans (Nat.mod_eq_of_lt (by omega))
  have hlt : a + b < a := by
    rw [UInt64.lt_iff_toNat_lt, hsum]
    omega
  exact if_pos hlt

variable {data bytes : ByteArray} {offset length : UInt64} {halt : Halt} {after : WordState}

/-- The state at the start of the data. -/
def start (data : ByteArray) : WordState := ⟨data, 0, .empty⟩

/-- Where the end of a range is a word, it is compared with the size of the data. -/
theorem run_range_of_some {stop : UInt64} (h : sum? offset length = some stop) :
    (range offset length).run (start data) =
      (if UInt64.ofNat data.size < stop then throw (.fault .outOfBounds)
        else slice offset stop : WordDecode ByteArray).run (start data) := by
  simp only [range, h]
  rfl

theorem run_range_of_le (hsize : data.size < byteLimit 8)
    (h : offset.toNat + length.toNat ≤ data.size) :
    (range offset length).run (start data) =
      .ok (data.extract offset.toNat (offset.toNat + length.toNat)) (start data) := by
  have hlt : offset.toNat + length.toNat < byteLimit 8 := Nat.lt_of_le_of_lt h hsize
  have hnot : ¬UInt64.ofNat data.size < UInt64.ofNat (offset.toNat + length.toNat) := by
    rw [UInt64.lt_iff_toNat_lt, toNat_ofNat_of_lt hsize, toNat_ofNat_of_lt hlt]
    omega
  have hslice : (slice (UInt64.ofNat offset.toNat) (UInt64.ofNat (offset.toNat + length.toNat))).run
      (InWords.inWords (DecodeState.start data)) = _ :=
    run_slice hsize (Nat.le_add_right _ _) h
  rw [UInt64.ofNat_toNat] at hslice
  rw [run_range_of_some (sum?_of_lt hlt), if_neg hnot]
  exact hslice

/-- **A range that ends past the data is refused**, whether or not its end is a word. -/
theorem run_range_of_lt (hsize : data.size < byteLimit 8)
    (h : data.size < offset.toNat + length.toNat) :
    (range offset length).run (start data) = .error (.fault .outOfBounds) (start data) := by
  rcases Nat.lt_or_ge (offset.toNat + length.toNat) (byteLimit 8) with hlt | hge
  · have hbeyond : UInt64.ofNat data.size < UInt64.ofNat (offset.toNat + length.toNat) := by
      rw [UInt64.lt_iff_toNat_lt, toNat_ofNat_of_lt hsize, toNat_ofNat_of_lt hlt]
      exact h
    rw [run_range_of_some (sum?_of_lt hlt), if_pos hbeyond]
    rfl
  · simp only [range, sum?_of_le hge]
    rfl

theorem run_range_eq_ok (hsize : data.size < byteLimit 8) :
    (range offset length).run (start data) = .ok bytes after ↔
      offset.toNat + length.toNat ≤ data.size ∧
        bytes = data.extract offset.toNat (offset.toNat + length.toNat) ∧
        after = start data := by
  rcases Nat.lt_or_ge data.size (offset.toNat + length.toNat) with hlt | hle
  · rw [run_range_of_lt hsize hlt]
    exact ⟨nofun, fun ⟨h, _⟩ => absurd h (Nat.not_le.mpr hlt)⟩
  · rw [run_range_of_le hsize hle]
    constructor
    · rintro ⟨⟩
      exact ⟨hle, rfl, rfl⟩
    · rintro ⟨-, rfl, rfl⟩
      rfl

theorem run_range_eq_error (hsize : data.size < byteLimit 8) :
    (range offset length).run (start data) = .error halt after ↔
      data.size < offset.toNat + length.toNat ∧ halt = .fault .outOfBounds ∧
        after = start data := by
  rcases Nat.lt_or_ge data.size (offset.toNat + length.toNat) with hlt | hle
  · rw [run_range_of_lt hsize hlt]
    constructor
    · rintro ⟨⟩
      exact ⟨hlt, rfl, rfl⟩
    · rintro ⟨-, rfl, rfl⟩
      rfl
  · rw [run_range_of_le hsize hle]
    exact ⟨nofun, fun ⟨h, _⟩ => absurd h (Nat.not_lt.mpr hle)⟩

/-- Moving and reading do in words what they do in numbers. -/
theorem refines_takeAt (offset length : UInt64) :
    Refines Eq (takeAt offset length) (Decode.takeAt offset.toNat length.toNat) := by
  have hseek : Refines Eq (seek (UInt64.ofNat offset.toNat)) (Decode.seek offset.toNat) :=
    refines_seek offset.toNat_lt
  rw [UInt64.ofNat_toNat] at hseek
  exact hseek.bind fun _ _ _ => refines_take length

/-- **The position behind what is read is a sum that is a word**, although nothing has asked whether
it is. -/
theorem run_takeAt_eq_ok (hsize : data.size < byteLimit 8) :
    (takeAt offset length).run (start data) = .ok bytes after ↔
      offset.toNat + length.toNat ≤ data.size ∧
        bytes = data.extract offset.toNat (offset.toNat + length.toNat) ∧
        ∃ stop : UInt64, stop.toNat = offset.toNat + length.toNat ∧
          after = { start data with pos := stop } := by
  have hnumbers : (takeAt offset length).run (InWords.inWords (DecodeState.start data)) =
      .ok bytes after ↔ _ := (refines_takeAt offset length).run_eq_ok_iff hsize
  refine hnumbers.trans ?_
  constructor
  · rintro ⟨state, hrun, rfl⟩
    obtain ⟨h, rfl, rfl⟩ := Decode.run_takeAt_eq_ok.mp hrun
    exact ⟨h, rfl, _, toNat_ofNat_of_lt (Nat.lt_of_le_of_lt h hsize), rfl⟩
  · rintro ⟨h, rfl, stop, hstop, rfl⟩
    refine ⟨_, Decode.run_takeAt_eq_ok.mpr ⟨h, rfl, rfl⟩, ?_⟩
    have hword : stop = UInt64.ofNat (offset.toNat + length.toNat) := by
      rw [← hstop, UInt64.ofNat_toNat]
    rw [hword]
    rfl

theorem run_takeAt_eq_error (hsize : data.size < byteLimit 8) :
    (takeAt offset length).run (start data) = .error halt after ↔
      (data.size < offset.toNat ∧ halt = .fault .outOfBounds ∧ after = start data) ∨
      offset.toNat ≤ data.size ∧ data.size < offset.toNat + length.toNat ∧
        halt = .fault (.truncated length.toNat (data.size - offset.toNat)) ∧
        after = { start data with pos := offset } := by
  have hnumbers : (takeAt offset length).run (InWords.inWords (DecodeState.start data)) =
      .error halt after ↔ _ := (refines_takeAt offset length).run_eq_error_iff hsize
  have hpos : { start data with pos := UInt64.ofNat offset.toNat } =
      { start data with pos := offset } := by
    rw [UInt64.ofNat_toNat]
  refine hnumbers.trans ?_
  constructor
  · rintro ⟨fault, state, hrun, rfl, rfl⟩
    rcases Decode.run_takeAt_eq_error.mp hrun with ⟨hlt, rfl, rfl⟩ | ⟨hle, hlack, rfl, rfl⟩
    · exact .inl ⟨hlt, rfl, rfl⟩
    · exact .inr ⟨hle, hlack, rfl, hpos⟩
  · rintro (⟨hlt, rfl, rfl⟩ | ⟨hle, hlack, rfl, rfl⟩)
    · exact ⟨_, _, Decode.run_takeAt_eq_error.mpr (.inl ⟨hlt, rfl, rfl⟩), rfl, rfl⟩
    · exact ⟨_, _, Decode.run_takeAt_eq_error.mpr (.inr ⟨hle, hlack, rfl, rfl⟩), rfl, hpos.symm⟩

end WordDecode

/-! ### The two ways agree -/

namespace Source

/-- **A range and a cursor reach the same bytes of a source**, whether these were given directly or
are those of a file; there is at least one, and a source is refused exactly if there is none. A
range has bytes exactly if the sum of its offset and its length is not past the end, and so has a
cursor that is made at this offset and reads so many bytes; it ends where the range does. What is
wrong with a range is that it is out of bounds. So it is for the cursor if its position is none of
the data; else bytes are lacking, the fault tells how many there are, and the cursor stays. In
machine words all of this is the same for every two words, also if their sum is none: no sum that
is formed is relied on without being a word, and no range is looked up that is none of the data. -/
theorem slice_agrees_cursorAt {data : ByteArray} {source : Source}
    (hsource : ofBytes data = .ok source ∨ load (.file data) = .ok source) :
    -- what there is
    (source.data = data ∧ 0 < data.size ∧ load (.file data) = ofBytes data ∧
      ∀ given fault, ofBytes given = .error fault ↔ given.size = 0 ∧ fault = .emptyInput) ∧
    -- in numbers
    (∀ offset length,
      (∀ bytes, source.slice offset length = .ok bytes ↔
        offset + length ≤ data.size ∧ bytes = data.extract offset (offset + length)) ∧
      (∀ fault, source.slice offset length = .error fault ↔
        data.size < offset + length ∧ fault = .outOfBounds) ∧
      (∀ bytes, source.slice offset length = .ok bytes ↔
        ∃ cursor after, source.cursorAt offset = .ok cursor ∧
          (Decode.take length).run ⟨cursor, .empty, #[]⟩ = .ok bytes after) ∧
      (∀ fault, source.cursorAt offset = .error fault ↔
        data.size < offset ∧ fault = .outOfBounds) ∧
      ∀ cursor scratch log, source.cursorAt offset = .ok cursor →
        cursor.data = data ∧ cursor.pos = offset ∧
        (∀ bytes after, (Decode.take length).run ⟨cursor, scratch, log⟩ = .ok bytes after ↔
          ∃ h : offset + length ≤ data.size, bytes = data.extract offset (offset + length) ∧
            after = ⟨⟨data, offset + length, h⟩, scratch, log⟩) ∧
        ∀ fault after, (Decode.take length).run ⟨cursor, scratch, log⟩ = .error fault after ↔
          data.size < offset + length ∧ fault = .truncated length (data.size - offset) ∧
            after = ⟨cursor, scratch, log⟩) ∧
    -- in machine words
    (data.size < byteLimit 8 → ∀ offset length : UInt64,
      let start := WordDecode.start data
      (∀ bytes after, (WordDecode.range offset length).run start = .ok bytes after ↔
        offset.toNat + length.toNat ≤ data.size ∧
          bytes = data.extract offset.toNat (offset.toNat + length.toNat) ∧ after = start) ∧
      (∀ halt after, (WordDecode.range offset length).run start = .error halt after ↔
        data.size < offset.toNat + length.toNat ∧ halt = .fault .outOfBounds ∧ after = start) ∧
      (∀ bytes after, (WordDecode.takeAt offset length).run start = .ok bytes after ↔
        offset.toNat + length.toNat ≤ data.size ∧
          bytes = data.extract offset.toNat (offset.toNat + length.toNat) ∧
          ∃ stop : UInt64, stop.toNat = offset.toNat + length.toNat ∧
            after = { start with pos := stop }) ∧
      ∀ halt after, (WordDecode.takeAt offset length).run start = .error halt after ↔
        (data.size < offset.toNat ∧ halt = .fault .outOfBounds ∧ after = start) ∨
        offset.toNat ≤ data.size ∧ data.size < offset.toNat + length.toNat ∧
          halt = .fault (.truncated length.toNat (data.size - offset.toNat)) ∧
          after = { start with pos := offset }) := by
  obtain rfl : source.data = data := hsource.elim ofBytes_eq_ok.mp ofBytes_eq_ok.mp
  refine ⟨⟨rfl, source.nonempty, rfl, fun _ _ => ofBytes_eq_error⟩,
    fun offset length => ⟨fun _ => slice_eq_ok, fun _ => slice_eq_error, fun bytes => ?_,
      fun _ => cursorAt_eq_error, ?_⟩, ?_⟩
  · rw [slice_eq_ok]
    constructor
    · rintro ⟨h, rfl⟩
      exact ⟨_, _, cursorAt_eq_ok.mpr ⟨Nat.le_of_add_right_le h, rfl⟩,
        Decode.run_take_at_eq_ok.mpr ⟨h, rfl, rfl⟩⟩
    · rintro ⟨cursor, after, hcursor, htake⟩
      obtain ⟨hle, rfl⟩ := cursorAt_eq_ok.mp hcursor
      obtain ⟨h, rfl, -⟩ := Decode.run_take_at_eq_ok.mp htake
      exact ⟨h, rfl⟩
  · intro cursor scratch log hcursor
    obtain ⟨hle, rfl⟩ := cursorAt_eq_ok.mp hcursor
    exact ⟨rfl, rfl, fun _ _ => Decode.run_take_at_eq_ok, fun _ _ => Decode.run_take_at_eq_error⟩
  · intro hsize offset length
    exact ⟨fun _ _ => WordDecode.run_range_eq_ok hsize,
      fun _ _ => WordDecode.run_range_eq_error hsize,
      fun _ _ => WordDecode.run_takeAt_eq_ok hsize,
      fun _ _ => WordDecode.run_takeAt_eq_error hsize⟩

/-- The last position of three bytes has a range without bytes. With the largest words, the end of a
range comes out as a position of the data. -/
theorem slice_agrees_cursorAt_wrapped :
    let data : ByteArray := [7, 8, 9].toByteArray
    let source : Source := ⟨data, by decide⟩
    let last : UInt64 := 0xffffffffffffffff
    load (.file data) = .ok source ∧ data.size < byteLimit 8 ∧
      source.slice 3 0 = .ok .empty ∧ 2 + last = 1 ∧
      (WordDecode.range 2 last).run (WordDecode.start data) =
        .error (.fault .outOfBounds) (WordDecode.start data) ∧
      (WordDecode.takeAt 2 last).run (WordDecode.start data) =
        .error (.fault (.truncated last.toNat 1)) ⟨data, 2, .empty⟩ := by
  intro data source last
  have hsource : load (.file data) = .ok source := by decide
  have hsize : data.size < byteLimit 8 := by decide
  obtain ⟨-, hnumbers, hwords⟩ := slice_agrees_cursorAt (.inr hsource)
  obtain ⟨-, hrange, -, htake⟩ := hwords hsize 2 last
  refine ⟨hsource, hsize, ((hnumbers 3 0).1 .empty).mpr (by decide), by decide, ?_, ?_⟩
  · exact (hrange _ _).mpr ⟨by decide, rfl, rfl⟩
  · exact (htake _ _).mpr (.inr ⟨by decide, by decide, rfl, rfl⟩)

end Source

end ChunkStrings
