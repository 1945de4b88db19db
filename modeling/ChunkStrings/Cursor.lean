import ChunkStrings.StoredUInt

/-!
# Cursors

A cursor is a position in a run of bytes, and never lies past their end: the bound is part of
the type, so no operation has to ask for it or can lose it. A cursor moves in two ways only:
to a position that is asked for (`Cursor.seek`), or over bytes that are read (`Cursor.take`,
`Cursor.next`). Each of them either succeeds or says what is missing, and the data stays what
it was.
-/

namespace ChunkStrings

/-- A position in a run of bytes. -/
structure Cursor where
  /-- The bytes. -/
  data : ByteArray
  /-- The position of the next byte. -/
  pos : Nat
  /-- The position is not past the end. -/
  pos_le : pos ≤ data.size
  deriving DecidableEq

namespace Cursor

/-- The cursor at the first byte. -/
def start (data : ByteArray) : Cursor := ⟨data, 0, Nat.zero_le _⟩

/-- The number of bytes from the position to the end. -/
def remaining (cursor : Cursor) : Nat := cursor.data.size - cursor.pos

/-- Whether there is a byte left to read. -/
def hasMore (cursor : Cursor) : Bool := cursor.pos < cursor.data.size

/-- Moves to a position of the data, of which the end is one. -/
def seek (cursor : Cursor) (pos : Nat) : Except Fault Cursor :=
  if h : pos ≤ cursor.data.size then .ok { cursor with pos, pos_le := h }
  else .error .outOfBounds

/-- Checks that so many bytes are left. -/
def ensure (cursor : Cursor) (needed : Nat) : Except Fault Unit :=
  if needed ≤ cursor.remaining then .ok () else .error (.truncated needed cursor.remaining)

/-- Moves over bytes that are there. -/
def advance (cursor : Cursor) (count : Nat) (h : count ≤ cursor.remaining) : Cursor where
  data := cursor.data
  pos := cursor.pos + count
  pos_le := by
    have := cursor.pos_le
    unfold remaining at h
    omega

/-- Reads so many bytes and moves over them. -/
def take (cursor : Cursor) (count : Nat) : Except Fault (ByteArray × Cursor) :=
  if h : count ≤ cursor.remaining then
    .ok (cursor.data.extract cursor.pos (cursor.pos + count), cursor.advance count h)
  else .error (.truncated count cursor.remaining)

/-- Reads one byte and moves over it. -/
def next (cursor : Cursor) : Except Fault (UInt8 × Cursor) :=
  if h : cursor.pos < cursor.data.size then
    .ok (cursor.data[cursor.pos], { cursor with pos := cursor.pos + 1, pos_le := h })
  else .error (.truncated 1 cursor.remaining)

@[simp] theorem pos_start (data : ByteArray) : (start data).pos = 0 := rfl

@[simp] theorem data_start (data : ByteArray) : (start data).data = data := rfl

/-- The position and what remains add up to the whole. -/
theorem pos_add_remaining (cursor : Cursor) :
    cursor.pos + cursor.remaining = cursor.data.size := by
  have := cursor.pos_le
  unfold remaining
  omega

/-- There is a byte to read exactly when something remains. -/
theorem hasMore_iff (cursor : Cursor) : cursor.hasMore ↔ 0 < cursor.remaining := by
  simp only [hasMore, remaining, decide_eq_true_eq]
  omega

/-- Cursors in the same data differ by their positions only. -/
theorem ext_pos {c d : Cursor} (hdata : c.data = d.data) (hpos : c.pos = d.pos) : c = d := by
  cases c
  cases d
  cases hdata
  cases hpos
  rfl

end Cursor

end ChunkStrings
