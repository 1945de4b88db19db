import ChunkStrings.Cursor

/-!
# Where the bytes of a chunk come from

A source holds the bytes of one chunk, of which there is at least one. They are given directly,
or are those of a file; once a source is there, it does not matter which. Its bytes are
reached by naming a range (`Source.slice`) or with a cursor (`Source.cursorAt`).
-/

namespace ChunkStrings

/-- What stands behind a file name. -/
inductive DiskEntry where
  /-- Nothing. -/
  | missing
  /-- Nothing, and nothing could: the name is too long. -/
  | nameTooLong
  /-- Something without bytes of its own. -/
  | directory
  /-- A file with these bytes. -/
  | file (bytes : ByteArray)
  deriving DecidableEq

/-- The bytes of a chunk. -/
structure Source where
  /-- The bytes. -/
  data : ByteArray
  /-- There is at least one. -/
  nonempty : 0 < data.size
  deriving DecidableEq

namespace Source

/-- The source of these bytes. -/
def ofBytes (data : ByteArray) : Except Fault Source :=
  if h : 0 < data.size then .ok ⟨data, h⟩ else .error .emptyInput

/-- The source of the bytes behind a file name. -/
def load : DiskEntry → Except Fault Source
  | .missing => .error .fileNotFound
  | .nameTooLong => .error .fileNameTooLong
  | .directory => .error .fileNotMappable
  | .file bytes => ofBytes bytes

/-- The bytes of a range, if all of it lies inside of the data. -/
def slice (source : Source) (offset length : Nat) : Except Fault ByteArray :=
  if offset + length ≤ source.data.size then
    .ok (source.data.extract offset (offset + length))
  else .error .outOfBounds

/-- The cursor at a position of the data. -/
def cursorAt (source : Source) (offset : Nat) : Except Fault Cursor :=
  (Cursor.start source.data).seek offset

/-! ### What each of them comes to -/

variable {source : Source} {data bytes : ByteArray} {offset length : Nat} {cursor : Cursor}
  {fault : Fault}

/-- A source holds the bytes that it was made of. -/
theorem ofBytes_eq_ok : ofBytes data = .ok source ↔ source.data = data := by
  rw [ofBytes]
  constructor
  · intro h
    split at h <;> cases h
    rfl
  · rintro rfl
    exact dif_pos source.nonempty

/-- Only no bytes at all are refused. -/
theorem ofBytes_eq_error :
    ofBytes data = .error fault ↔ data.size = 0 ∧ fault = .emptyInput := by
  rw [ofBytes, ← Nat.le_zero, ← Nat.not_lt]
  split <;> simp [*, eq_comm]

/-- **What is loaded are the bytes of a file.** -/
theorem load_eq_ok {entry : DiskEntry} : load entry = .ok source ↔ entry = .file source.data := by
  constructor
  · intro h
    cases entry with
    | file bytes => rw [ofBytes_eq_ok.mp h]
    | missing | nameTooLong | directory => cases h
  · rintro rfl
    exact ofBytes_eq_ok.mpr rfl

/-- A range has bytes exactly if it ends inside of the data, or with them. -/
theorem slice_eq_ok : source.slice offset length = .ok bytes ↔
    offset + length ≤ source.data.size ∧
      bytes = source.data.extract offset (offset + length) := by
  rw [slice]
  split <;> simp [*, eq_comm]

theorem slice_eq_error : source.slice offset length = .error fault ↔
    source.data.size < offset + length ∧ fault = .outOfBounds := by
  rw [slice, ← Nat.not_le]
  split <;> simp [*, eq_comm]

theorem cursorAt_eq (source : Source) (offset : Nat) : source.cursorAt offset =
    if h : offset ≤ source.data.size then .ok ⟨source.data, offset, h⟩
    else .error .outOfBounds :=
  rfl

theorem cursorAt_eq_ok : source.cursorAt offset = .ok cursor ↔
    ∃ h : offset ≤ source.data.size, cursor = ⟨source.data, offset, h⟩ := by
  rw [cursorAt_eq]
  split <;> simp [*, eq_comm]

theorem cursorAt_eq_error : source.cursorAt offset = .error fault ↔
    source.data.size < offset ∧ fault = .outOfBounds := by
  rw [cursorAt_eq, ← Nat.not_le]
  split <;> simp [*, eq_comm]

end Source

end ChunkStrings
