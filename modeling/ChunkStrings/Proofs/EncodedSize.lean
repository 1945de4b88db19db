import ChunkStrings.Proofs.Emission

/-!
# The size of what is written

Two questions about a record can be asked before a byte of it is written: whether it can be
written at all, and how many bytes it will take. The layouts answer both for themselves, and the
compact one settles in two places, once for the writing and once for the size, whether a size
byte is enough.

The pieces of a record answer both at once. Whether there are any is one bound for all layouts
(`Layout.exists_encode_iff`), and their sizes add up to the size that the layout announces
(`Layout.size_present`), where the two decisions of the compact layout meet. That the writing
is the writing of the pieces is known from `Layout.encode_eq`, so nothing here looks at a sink.
-/

namespace ChunkStrings.Layout

variable {layout : Layout} {format : ChunkFormat}

/-! ### Whether a record can be written -/

/-- The absent string can always be written. -/
theorem encode_null : layout.encode format .null = .ok (layout.absent format) := by
  rw [encode_eq, pieces, Except.map, joinBytes_cons, joinBytes_nil, ByteArray.append_empty]

/-- A string that does not fit is refused with the size that was too large. -/
theorem encode_of_le {content : ByteArray} {trailing : Option UInt8}
    (h : format.width.limit ≤ content.size + 1) :
    layout.encode format (.present content trailing) =
      .error (.valueTooLarge (content.size + 1) format.width.bytes) := by
  rw [encode_eq, pieces_of_le h]
  rfl

/-- **A string can be written exactly if its size and one more fit into the width**, whatever the
layout. -/
theorem exists_encode_iff {content : ByteArray} {trailing : Option UInt8} :
    (∃ bytes, layout.encode format (.present content trailing) = .ok bytes) ↔
      content.size + 1 < format.width.limit := by
  rcases Nat.lt_or_ge (content.size + 1) format.width.limit with hlt | hle
  · rw [encode_eq, pieces_of_lt hlt]
    exact iff_of_true ⟨_, rfl⟩ hlt
  · refine iff_of_false ?_ (Nat.not_lt.mpr hle)
    rintro ⟨bytes, h⟩
    rw [encode_of_le hle] at h
    cases h

/-- What a string is written as does not depend on the byte that was stored behind it. -/
theorem encode_trailing (content : ByteArray) (trailing trailing' : Option UInt8) :
    layout.encode format (.present content trailing) =
      layout.encode format (.present content trailing') := by
  rw [encode_eq, encode_eq]
  rfl

/-! ### How many bytes a record takes -/

/-- The absent string takes as many bytes as are announced for it. -/
theorem size_absent : (layout.absent format).size = layout.encodedSize format .null := by
  cases layout with
  | legacy => exact format.size_field 0
  | compact => rfl
  | modern => exact format.size_field 0

/-- **The pieces of a string have the size that is announced for it**: the compact layout decides
between its two forms in the same way for the one and for the other. -/
theorem size_present (content : ByteArray) (trailing : Option UInt8) :
    (joinBytes (layout.lead format (content.size + 1) ++ content :: layout.trail)).size =
      layout.encodedSize format (.present content trailing) := by
  cases layout with
  | legacy => simp [lead, trail, encodedSize, Legacy.encodedSize, Nat.add_assoc]
  | compact =>
    by_cases hshort : content.size + 1 < Compact.extended.toNat
    · simp [lead, trail, encodedSize, Compact.encodedSize, hshort]
    · simp [lead, trail, encodedSize, Compact.encodedSize, hshort, Nat.add_assoc]
  | modern => simp [lead, trail, encodedSize, Modern.encodedSize]

/-- **What is written has the announced size.** -/
theorem size_encode {constant : StringConst} {bytes : ByteArray}
    (h : layout.encode format constant = .ok bytes) :
    bytes.size = layout.encodedSize format constant := by
  cases constant with
  | null =>
    rw [encode_null] at h
    cases h
    exact size_absent
  | present content trailing =>
    have hlt := exists_encode_iff.mp ⟨bytes, h⟩
    rw [encode_eq, pieces_of_lt hlt] at h
    cases h
    exact size_present content trailing

/-- What stands around a string takes nine bytes at most. -/
theorem encodedSize_present_le (content : ByteArray) (trailing : Option UInt8) :
    layout.encodedSize format (.present content trailing) ≤ content.size + 9 := by
  have hwidth := format.width.le_eight
  cases layout with
  | legacy =>
    rw [encodedSize, Legacy.encodedSize]
    omega
  | compact =>
    rw [encodedSize, Compact.encodedSize]
    split <;> omega
  | modern =>
    rw [encodedSize, Modern.encodedSize]
    omega

/-! ### Both questions at once -/

/-- **Which records can be written, and how many bytes they take.** The absent string can always be
written. A string can be written exactly if its size and one more fit into the width, in every
layout alike, and is refused with that number otherwise; what stood behind it when it was read
makes no difference. What is written has the announced size, which eight bytes are enough to
count. -/
theorem encode_fits (layout : Layout) (format : ChunkFormat) :
    let width := format.width.bytes
    (∃ bytes, layout.encode format .null = .ok bytes) ∧
    (∀ (content : ByteArray) (trailing : Option UInt8),
      let encoded := layout.encode format (.present content trailing)
      ((∃ bytes, encoded = .ok bytes) ↔ content.size + 1 < 256 ^ width) ∧
      (¬content.size + 1 < 256 ^ width →
        encoded = .error (.valueTooLarge (content.size + 1) width)) ∧
      (∀ trailing', layout.encode format (.present content trailing') = encoded) ∧
      (content.size < 2 ^ 63 →
        layout.encodedSize format (.present content trailing) < 2 ^ 64)) ∧
    ∀ constant bytes, layout.encode format constant = .ok bytes →
      bytes.size = layout.encodedSize format constant := by
  intro width
  have hlimit : format.width.limit = 256 ^ width := format.width.limit_eq_pow
  refine ⟨⟨_, encode_null⟩, fun content trailing => ?_, fun constant bytes => size_encode⟩
  rw [← hlimit]
  refine ⟨exists_encode_iff, fun hover => encode_of_le (Nat.not_lt.mp hover),
    fun trailing' => encode_trailing content trailing' trailing, fun hsize => ?_⟩
  have hle : layout.encodedSize format (.present content trailing) ≤ content.size + 9 :=
    encodedSize_present_le content trailing
  omega

/-- With lengths of one byte, 254 bytes can be written in every layout and 255 in none, although
the size byte of the compact layout has an end of its own just there. -/
theorem encode_fits_narrow :
    let format : ChunkFormat := ⟨0x53, ⟨1, by decide, by decide⟩, .big, false⟩
    let content : ByteArray := ⟨Array.replicate 254 0x61⟩
    ∀ layout : Layout,
      (∃ bytes, layout.encode format (.ofBytes content) = .ok bytes ∧
        bytes.size = layout.encodedSize format (.ofBytes content)) ∧
      layout.encode format (.ofBytes (content.push 0x61)) = .error (.valueTooLarge 256 1) := by
  intro format content layout
  have hsize : content.size = 254 := Array.size_replicate
  obtain ⟨-, hpresent, hexact⟩ := encode_fits layout format
  obtain ⟨bytes, hbytes⟩ := (hpresent content none).1.mpr (by rw [hsize]; decide)
  have hover := (hpresent (content.push 0x61) none).2.1 (by rw [ByteArray.size_push, hsize]; decide)
  rw [ByteArray.size_push, hsize] at hover
  exact ⟨⟨bytes, hbytes, hexact _ _ hbytes⟩, hover⟩

end ChunkStrings.Layout
