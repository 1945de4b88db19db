import ChunkStrings.Bytes
import ChunkStrings.Fault

/-!
# Widths of stored integers

A chunk declares once how many bytes its lengths take, from one to eight. `Width` is a count of
bytes in that range, so that whatever holds a `Width` needs no check of its own; `Width.ofNat`
is the one place where a declared count is checked.
-/

namespace ChunkStrings

/-- A count of bytes from one to eight. -/
structure Width where
  /-- The count. -/
  bytes : Nat
  /-- An integer takes a byte at least. -/
  one_le : 1 ≤ bytes
  /-- An integer takes eight bytes at most. -/
  le_eight : bytes ≤ 8
  deriving DecidableEq, Repr

namespace Width

instance : Inhabited Width := ⟨⟨8, by decide, by decide⟩⟩

/-- The width of this many bytes. -/
def ofNat (bytes : Nat) : Except Fault Width :=
  if h : 1 ≤ bytes ∧ bytes ≤ 8 then .ok ⟨bytes, h.1, h.2⟩
  else .error (.unsupportedWidth bytes)

/-- The first value that does not fit into integers of this width. -/
def limit (width : Width) : Nat := byteLimit width.bytes

theorem ofNat_of_mem {bytes : Nat} (h : 1 ≤ bytes ∧ bytes ≤ 8) :
    ofNat bytes = .ok ⟨bytes, h.1, h.2⟩ :=
  dif_pos h

theorem ofNat_of_not_mem {bytes : Nat} (h : ¬(1 ≤ bytes ∧ bytes ≤ 8)) :
    ofNat bytes = .error (.unsupportedWidth bytes) :=
  dif_neg h

/-- A width is accepted as it is declared. -/
theorem ofNat_bytes (width : Width) : ofNat width.bytes = .ok width :=
  ofNat_of_mem ⟨width.one_le, width.le_eight⟩

theorem ofNat_eq_ok_iff {bytes : Nat} {width : Width} :
    ofNat bytes = .ok width ↔ width.bytes = bytes := by
  constructor
  · intro h
    unfold ofNat at h
    split at h
    · cases h
      rfl
    · cases h
  · rintro rfl
    exact ofNat_bytes width

/-- Only counts outside of the range are refused, each by its own number. -/
theorem ofNat_eq_error_iff {bytes : Nat} {fault : Fault} :
    ofNat bytes = .error fault ↔
      ¬ (1 ≤ bytes ∧ bytes ≤ 8) ∧ fault = .unsupportedWidth bytes := by
  unfold ofNat
  split
  · rename_i h
    constructor
    · intro hok
      cases hok
    · rintro ⟨hnot, -⟩
      exact absurd h hnot
  · rename_i h
    constructor
    · intro herror
      cases herror
      exact ⟨h, rfl⟩
    · rintro ⟨-, rfl⟩
      rfl

/-- Zero is a value of every width. -/
theorem limit_pos (width : Width) : 0 < width.limit :=
  byteLimit_pos width.bytes

/-- Every value of a width fits into eight bytes. -/
theorem limit_le (width : Width) : width.limit ≤ 0x10000000000000000 :=
  byteLimit_mono width.le_eight

end Width

end ChunkStrings
