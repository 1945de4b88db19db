import ChunkStrings.Proofs.Passage
import ChunkStrings.RecordTable
import Mathlib.Algebra.Group.Nat.Defs

/-!
# What a record is written as

Writing a record is to settle whether its length fits, and then to write a few runs of bytes one
after another: what the layout puts in front of a string, the string, what it puts behind.
`Layout.pieces` gives these runs as data, or the fault where the length does not fit, for all
layouts by one rule; `Layout.write_eq` says that writing is writing the pieces and nothing else.

The rule has one bound for all layouts. The compact layout does not ask for it where the size
byte alone is enough, and need not: a size that one byte spells fits into every width
(`Compact.lt_limit_of_short`).

In a buffer that grows, the pieces arrive as the bytes of `Layout.encode`, behind what was there
before (`Layout.run_write_growing`), and a constant that does not fit leaves no trace.
-/

namespace ChunkStrings

/-! ### Writing pieces -/

namespace Emit

theorem liftExcept_ok {α : Type} (result : α) :
    (liftExcept (Except.ok result : Except Fault α) : Emit α) = pure result :=
  rfl

theorem liftExcept_error {α : Type} (fault : Fault) :
    (liftExcept (Except.error fault : Except Fault α) : Emit α) = throw fault :=
  rfl

theorem throw_bind {α β : Type} (fault : Fault) (next : α → Emit β) :
    (throw fault : Emit α) >>= next = throw fault :=
  rfl

/-- Writes runs of bytes one after another. -/
def all : List ByteArray → Emit Unit
  | [] => pure ()
  | run :: runs => do
    bytes run
    all runs

theorem all_singleton (run : ByteArray) : all [run] = bytes run := by
  rw [all, all]
  exact bind_pure (bytes run)

/-- A buffer that grows takes all pieces. -/
theorem run_all_growing (pieces : List ByteArray) (written : ByteArray) :
    (all pieces).run (.growing written) = .ok () (.growing (written ++ joinBytes pieces)) := by
  induction pieces generalizing written with
  | nil => rw [all, EStateM.run_pure, joinBytes_nil, ByteArray.append_empty]
  | cons run runs ih =>
    rw [all, EStateM.run_bind, run_bytes_growing, joinBytes_cons, ← ByteArray.append_assoc]
    exact ih (written ++ run)

end Emit

/-! ### The length in front -/

namespace LengthInt

variable {format : ChunkFormat} {value : Nat}

theorem ofLength_of_lt (h : value < format.width.limit) :
    ofLength value format = .ok ⟨value, format.width, h⟩ :=
  dif_pos h

theorem ofLength_of_le (h : format.width.limit ≤ value) :
    ofLength value format = .error (.valueTooLarge value format.width.bytes) :=
  dif_neg (Nat.not_lt.mpr h)

/-- A length is written as its field. -/
theorem write_eq (h : value < format.width.limit) :
    (⟨value, format.width, h⟩ : LengthInt).write format = Emit.bytes (format.field value) := by
  have hfits : StoredUInt.fits value format.width.bytes = true := decide_eq_true h
  simp only [write, StoredUInt.write, Width.ofNat_bytes, Emit.liftExcept_ok, pure_bind, hfits,
    if_true]
  rfl

end LengthInt

/-- The numbers that so many bytes are enough for are those below this power of 256. -/
theorem byteLimit_eq_pow (width : Nat) : byteLimit width = 256 ^ width := by
  induction width with
  | zero => rfl
  | succ width ih => rw [byteLimit, ih, Nat.pow_succ, Nat.mul_comm]

/-- The numbers that fit into a width are those below the power of 256 to the number of bytes. -/
theorem Width.limit_eq_pow (width : Width) : width.limit = 256 ^ width.bytes :=
  byteLimit_eq_pow width.bytes

/-- A size that the size byte spells by itself fits into every width. -/
theorem Compact.lt_limit_of_short {size : Nat} (h : size < Compact.extended.toNat)
    (width : Width) : size < width.limit :=
  Nat.lt_of_lt_of_le (Nat.lt_trans h (by decide)) (byteLimit_mono width.one_le)

/-! ### The pieces of a record -/

namespace Layout

/-- What stands for the absent string. -/
def absent (layout : Layout) (format : ChunkFormat) : ByteArray :=
  match layout with
  | legacy | modern => format.field 0
  | compact => [0].toByteArray

/-- What stands in front of a string that is announced with this size. -/
def lead (layout : Layout) (format : ChunkFormat) (size : Nat) : List ByteArray :=
  match layout with
  | legacy | modern => [format.field size]
  | compact =>
    if size < Compact.extended.toNat then [[UInt8.ofNat size].toByteArray]
    else [[Compact.extended].toByteArray, format.field size]

/-- What stands behind a string. -/
def trail : Layout → List ByteArray
  | legacy => [[0].toByteArray]
  | compact | modern => []

/-- **The pieces that a record is written in**, or why it cannot be written: a string is announced
with one byte more than it has, and that size has to fit into the width. -/
def pieces (layout : Layout) (format : ChunkFormat) : StringConst → Except Fault (List ByteArray)
  | .null => .ok [layout.absent format]
  | .present content _ =>
    if content.size + 1 < format.width.limit then
      .ok (layout.lead format (content.size + 1) ++ content :: layout.trail)
    else .error (.valueTooLarge (content.size + 1) format.width.bytes)

variable {layout : Layout} {format : ChunkFormat}

theorem pieces_of_lt {content : ByteArray} {trailing : Option UInt8}
    (h : content.size + 1 < format.width.limit) : layout.pieces format (.present content trailing) =
      .ok (layout.lead format (content.size + 1) ++ content :: layout.trail) :=
  if_pos h

theorem pieces_of_le {content : ByteArray} {trailing : Option UInt8}
    (h : format.width.limit ≤ content.size + 1) :
    layout.pieces format (.present content trailing) =
      .error (.valueTooLarge (content.size + 1) format.width.bytes) :=
  if_neg (Nat.not_lt.mpr h)

/-- The absent string is written as what stands for it. -/
theorem write_null : layout.write format .null = Emit.all [layout.absent format] := by
  rw [Emit.all_singleton]
  have hzero := LengthInt.ofLength_of_lt format.width.limit_pos
  cases layout with
  | legacy =>
    rw [write, Legacy.write, hzero, Emit.liftExcept_ok, pure_bind, LengthInt.write_eq, absent]
  | compact => rfl
  | modern =>
    rw [write, Modern.write, hzero, Emit.liftExcept_ok, pure_bind, LengthInt.write_eq, absent]

/-- A string whose length fits is announced, written and closed, in this order. -/
theorem write_present_of_lt {content : ByteArray} {trailing : Option UInt8}
    (h : content.size + 1 < format.width.limit) : layout.write format (.present content trailing) =
      Emit.all (layout.lead format (content.size + 1) ++ content :: layout.trail) := by
  have hlength := LengthInt.ofLength_of_lt h
  cases layout with
  | legacy =>
    rw [write, Legacy.write, hlength, Emit.liftExcept_ok, pure_bind, LengthInt.write_eq]
    simp [lead, trail, Emit.all, Emit.byte]
  | compact =>
    rw [write, Compact.write]
    by_cases hshort : content.size + 1 < Compact.extended.toNat
    · simp [lead, trail, hshort, Emit.all, Emit.byte]
    · simp [lead, trail, hshort, Emit.all, Emit.byte, hlength, LengthInt.write_eq,
        Emit.liftExcept_ok]
  | modern =>
    rw [write, Modern.write, hlength, Emit.liftExcept_ok, pure_bind, LengthInt.write_eq]
    simp [lead, trail, Emit.all]

/-- A string whose length does not fit is not written at all, not even its first byte. -/
theorem write_present_of_le {content : ByteArray} {trailing : Option UInt8}
    (h : format.width.limit ≤ content.size + 1) :
    layout.write format (.present content trailing) =
      throw (.valueTooLarge (content.size + 1) format.width.bytes) := by
  have hlength := LengthInt.ofLength_of_le h
  cases layout with
  | legacy => rw [write, Legacy.write, hlength, Emit.liftExcept_error, Emit.throw_bind]
  | compact =>
    have hlong : ¬content.size + 1 < Compact.extended.toNat := fun hshort =>
      absurd (Compact.lt_limit_of_short hshort format.width) (Nat.not_lt.mpr h)
    rw [write, Compact.write]
    simp only [hlong, if_false, hlength, Emit.liftExcept_error, Emit.throw_bind]
  | modern => rw [write, Modern.write, hlength, Emit.liftExcept_error, Emit.throw_bind]

/-- **Writing a record is writing its pieces.** -/
theorem write_eq (constant : StringConst) : layout.write format constant =
    liftExcept (layout.pieces format constant) >>= Emit.all := by
  cases constant with
  | null => exact write_null
  | present content trailing =>
    rcases Nat.lt_or_ge (content.size + 1) format.width.limit with hlt | hle
    · rw [write_present_of_lt hlt, pieces_of_lt hlt, Emit.liftExcept_ok, pure_bind]
    · rw [write_present_of_le hle, pieces_of_le hle, Emit.liftExcept_error, Emit.throw_bind]

/-! ### The bytes of a record -/

/-- The bytes of a record are its pieces, one after another. -/
theorem encode_eq (constant : StringConst) :
    layout.encode format constant = (layout.pieces format constant).map joinBytes := by
  rw [encode, write_eq]
  cases layout.pieces format constant with
  | ok pieces =>
    rw [Emit.liftExcept_ok, pure_bind, Emit.run_all_growing]
    exact congrArg Except.ok ByteArray.empty_append
  | error fault => rfl

/-- **A buffer that grows takes a whole record, or is left as it was.** -/
theorem run_write_growing (constant : StringConst) (written : ByteArray) :
    (layout.write format constant).run (.growing written) =
      match layout.encode format constant with
      | .ok bytes => .ok () (.growing (written ++ bytes))
      | .error fault => .error fault (.growing written) := by
  rw [encode_eq, write_eq]
  cases layout.pieces format constant with
  | ok pieces => rw [Emit.liftExcept_ok, pure_bind, Emit.run_all_growing, Except.map]
  | error fault => rfl

end Layout

end ChunkStrings
