import ChunkStrings.Proofs.EncodedSize
import Mathlib.InformationTheory.Coding.UniquelyDecodable

/-!
# What is written can be told apart

The compact reader does not read back what the compact writer writes, but that is the reader's
doing: nothing is lost in the writing. This file says so of every layout, without any reader:
records that are written one after another can be told apart again, up to the byte that was
stored behind a string when it was read, which no layout writes.

The reason is in the front of a record. Every layout announces a size there, one byte more than
the string has, and zero for the absent string (`Layout.encode_eq_ok_iff`); and what announces
one size is never the beginning of what announces another (`Layout.lead_append_inj`). In the
compact layout, this is where the two ways to announce a size meet: a size byte announces all
sizes below the greatest one, and the greatest one is a size byte of its own. So the first record
in a run of bytes is settled (`Layout.encode_append_inj`), and by induction all of them are.
-/

namespace ChunkStrings

/-- Runs of one size at the beginning of the same bytes are the same, and so is what is behind. -/
theorem append_inj_of_size {run run' rest rest' : ByteArray} (h : run ++ rest = run' ++ rest')
    (hsize : run.size = run'.size) : run = run' ∧ rest = rest' := by
  obtain rfl := ByteArray.append_inj_left h hsize
  exact ⟨rfl, (ByteArray.append_right_inj _).mp h⟩

namespace Layout

variable {layout : Layout} {format : ChunkFormat} {rest rest' : ByteArray}

/-! ### What announces a size -/

/-- The absent string is what is announced with no byte at all. -/
theorem absent_eq : layout.absent format = joinBytes (layout.lead format 0) := by
  cases layout <;> simp [absent, lead, Compact.extended]

/-- No size is announced by nothing. -/
theorem size_lead_pos (size : Nat) : 0 < (joinBytes (layout.lead format size)).size := by
  have hwidth : 0 < format.width.bytes := format.width.one_le
  cases layout with
  | legacy => simpa [lead] using hwidth
  | compact =>
    rw [lead]
    split
    · simp
    · simp only [joinBytes_cons, ByteArray.size_append, List.size_toByteArray,
        List.length_singleton]
      omega
  | modern => simpa [lead] using hwidth

/-- The size byte that announces a size by itself, or says that the size comes behind it. -/
theorem lead_compact (size : Nat) : joinBytes (compact.lead format size) =
    [UInt8.ofNat (min size Compact.extended.toNat)].toByteArray ++
      if size < Compact.extended.toNat then .empty else format.field size := by
  rw [lead]
  split
  case isTrue hshort =>
    rw [Nat.min_eq_left (Nat.le_of_lt hshort)]
    simp
  case isFalse hlong =>
    rw [Nat.min_eq_right (Nat.not_lt.mp hlong), UInt8.ofNat_toNat]
    simp

/-- **What announces a size is not the beginning of what announces another.** -/
theorem lead_append_inj {size size' : Nat} (h : size < format.width.limit)
    (h' : size' < format.width.limit)
    (heq : joinBytes (layout.lead format size) ++ rest =
      joinBytes (layout.lead format size') ++ rest') : size = size' ∧ rest = rest' := by
  have hfield {rest rest' : ByteArray} (heq : format.field size ++ rest =
      format.field size' ++ rest') : size = size' ∧ rest = rest' := by
    obtain ⟨hfields, hrest⟩ := append_inj_of_size heq (by simp)
    exact ⟨ChunkFormat.field_injective h h' hfields, hrest⟩
  cases layout with
  | legacy => exact hfield (by simpa [lead] using heq)
  | modern => exact hfield (by simpa [lead] using heq)
  | compact =>
    rw [lead_compact, lead_compact, ByteArray.append_assoc, ByteArray.append_assoc] at heq
    obtain ⟨hbyte, hbehind⟩ := append_inj_of_size heq (by simp)
    have hval : Compact.extended.toNat = 255 := rfl
    have hmin : min size Compact.extended.toNat = min size' Compact.extended.toNat := by
      have hnat := congrArg UInt8.toNat (List.head_eq_of_cons_eq (List.toByteArray_inj.mp hbyte))
      rwa [UInt8.toNat_ofNat_of_lt' (show min size _ < 256 by omega),
        UInt8.toNat_ofNat_of_lt' (show min size' _ < 256 by omega)] at hnat
    by_cases hshort : size < Compact.extended.toNat
    · obtain rfl : size = size' := by omega
      rw [if_pos hshort] at hbehind
      exact ⟨rfl, (ByteArray.append_right_inj _).mp hbehind⟩
    · rw [if_neg hshort, if_neg (by omega)] at hbehind
      exact hfield hbehind

end Layout

/-! ### Records -/

/-- The size that is announced for a constant: one byte more than the string has. -/
def StringConst.announcedSize : StringConst → Nat
  | null => 0
  | present content _ => content.size + 1

namespace Layout

variable {layout : Layout} {format : ChunkFormat} {rest rest' : ByteArray}

/-- What is written for a constant behind the announced size. -/
def stored (layout : Layout) : StringConst → ByteArray
  | .null => .empty
  | .present content _ => content ++ joinBytes layout.trail

/-- **A record is what announces a size, and so many bytes behind it.** -/
theorem encode_eq_ok_iff {constant : StringConst} {bytes : ByteArray} :
    layout.encode format constant = .ok bytes ↔
      constant.announcedSize < format.width.limit ∧
        bytes = joinBytes (layout.lead format constant.announcedSize) ++ layout.stored constant := by
  cases constant with
  | null =>
    rw [encode_null, absent_eq, StringConst.announcedSize, stored, ByteArray.append_empty,
      Except.ok.injEq, eq_comm]
    exact (and_iff_right format.width.limit_pos).symm
  | present content trailing =>
    rw [StringConst.announcedSize, stored, encode_eq]
    rcases Nat.lt_or_ge (content.size + 1) format.width.limit with hlt | hle
    · rw [pieces_of_lt hlt, Except.map, joinBytes_append, joinBytes_cons, Except.ok.injEq, eq_comm]
      exact (and_iff_right hlt).symm
    · rw [pieces_of_le hle, Except.map]
      exact iff_of_false nofun fun h => absurd h.1 (Nat.not_lt.mpr hle)

/-- Behind the same size, what is written for a string settles it. -/
theorem stored_append_inj {constant constant' : StringConst}
    (hsize : constant.announcedSize = constant'.announcedSize)
    (heq : layout.stored constant ++ rest = layout.stored constant' ++ rest') :
    constant.content? = constant'.content? ∧ layout.stored constant = layout.stored constant' ∧
      rest = rest' := by
  cases constant with
  | null =>
    cases constant' with
    | null => exact ⟨rfl, rfl, (ByteArray.append_right_inj _).mp heq⟩
    | present content' trailing' => cases hsize
  | present content trailing =>
    cases constant' with
    | null => cases hsize
    | present content' trailing' =>
      rw [stored, stored, ByteArray.append_assoc, ByteArray.append_assoc] at heq
      obtain ⟨rfl, hbehind⟩ := append_inj_of_size heq (Nat.succ.inj hsize)
      exact ⟨rfl, rfl, (ByteArray.append_right_inj _).mp hbehind⟩

variable {constant constant' : StringConst} {bytes bytes' : ByteArray}

/-- **The first record in a run of bytes is settled by them**, and so is what comes behind it. -/
theorem encode_append_inj (h : layout.encode format constant = .ok bytes)
    (h' : layout.encode format constant' = .ok bytes') (heq : bytes ++ rest = bytes' ++ rest') :
    constant.content? = constant'.content? ∧ bytes = bytes' ∧ rest = rest' := by
  obtain ⟨hfits, rfl⟩ := encode_eq_ok_iff.mp h
  obtain ⟨hfits', rfl⟩ := encode_eq_ok_iff.mp h'
  rw [ByteArray.append_assoc, ByteArray.append_assoc] at heq
  obtain ⟨hsize, hbehind⟩ := lead_append_inj hfits hfits' heq
  obtain ⟨hcontent, hstored, hrest⟩ := stored_append_inj hsize hbehind
  exact ⟨hcontent, by rw [hsize, hstored], hrest⟩

/-- No record is written as nothing. -/
theorem size_encode_pos (h : layout.encode format constant = .ok bytes) : 0 < bytes.size := by
  obtain ⟨-, rfl⟩ := encode_eq_ok_iff.mp h
  rw [ByteArray.size_append]
  exact Nat.add_pos_left (size_lead_pos _) _

/-- What is written for a constant is what is written for its string. -/
theorem encode_content? (constant : StringConst) :
    layout.encode format (constant.content?.elim .null .ofBytes) =
      layout.encode format constant := by
  cases constant with
  | null => rfl
  | present content trailing => exact encode_trailing content none trailing

/-! ### Records in a row -/

/-- Records in a row are nothing only if there are none. -/
theorem eq_nil_of_joinBytes {constants : List StringConst} {records : List ByteArray}
    (h : constants.map (layout.encode format) = records.map .ok)
    (hnil : joinBytes records = .empty) : records = [] := by
  cases records with
  | nil => rfl
  | cons record records =>
    obtain ⟨constant, constants, rfl, hrecord, -⟩ := List.map_eq_cons_iff.mp h
    have hpos := size_encode_pos hrecord
    have hsize := congrArg ByteArray.size hnil
    rw [joinBytes_cons, ByteArray.size_append, ByteArray.size_empty] at hsize
    omega

/-- **Records in a row are settled by their bytes.** The induction is on the constants of the one
row, with those of the other left general. -/
theorem joinBytes_encode_inj {left right : List StringConst} {records records' : List ByteArray}
    (h : left.map (layout.encode format) = records.map .ok)
    (h' : right.map (layout.encode format) = records'.map .ok)
    (heq : joinBytes records = joinBytes records') :
    records = records' ∧ left.map StringConst.content? = right.map StringConst.content? := by
  induction left generalizing right records records' with
  | nil =>
    obtain rfl := List.map_eq_nil_iff.mp h.symm
    obtain rfl := eq_nil_of_joinBytes h' heq.symm
    obtain rfl := List.map_eq_nil_iff.mp h'
    exact ⟨rfl, rfl⟩
  | cons constant left ih =>
    obtain ⟨record, rest, rfl, hrecord, hrest⟩ := List.map_eq_cons_iff.mp h.symm
    cases right with
    | nil =>
      obtain rfl := List.map_eq_nil_iff.mp h'.symm
      cases eq_nil_of_joinBytes h heq
    | cons constant' right =>
      obtain ⟨record', rest', rfl, hrecord', hrest'⟩ := List.map_eq_cons_iff.mp h'.symm
      obtain ⟨hcontent, rfl, hbehind⟩ := encode_append_inj hrecord.symm hrecord'.symm heq
      obtain ⟨rfl, hcontents⟩ := ih hrest.symm hrest'.symm hbehind
      exact ⟨rfl, by rw [List.map_cons, List.map_cons, hcontent, hcontents]⟩

/-- What is written for constants in a row is settled by their strings. -/
theorem map_encode_eq (constants : List StringConst) :
    constants.map (layout.encode format) = (constants.map StringConst.content?).map fun content? =>
      layout.encode format (content?.elim .null .ofBytes) := by
  rw [List.map_map]
  exact List.map_congr_left fun constant _ => (encode_content? constant).symm

/-- The words that a layout writes for constants, as lists of bytes. -/
def codewords (layout : Layout) (format : ChunkFormat) : Set (List UInt8) :=
  {word | ∃ constant bytes, layout.encode format constant = .ok bytes ∧
    word = bytes.data.toList}

/-- Words in a row are those of some constants. -/
theorem exists_constants_of_codewords {words : List (List UInt8)}
    (h : ∀ word ∈ words, word ∈ layout.codewords format) :
    ∃ (constants : List StringConst) (records : List ByteArray),
      constants.map (layout.encode format) = records.map .ok ∧
      words = records.map (·.data.toList) ∧ words.flatten = (joinBytes records).data.toList := by
  induction words with
  | nil => exact ⟨[], [], rfl, rfl, rfl⟩
  | cons word words ih =>
    obtain ⟨hword, hwords⟩ := List.forall_mem_cons.mp h
    obtain ⟨constant, bytes, hbytes, rfl⟩ := hword
    obtain ⟨constants, records, hrecords, rfl, hflatten⟩ := ih hwords
    refine ⟨constant :: constants, bytes :: records, ?_, rfl, ?_⟩
    · rw [List.map_cons, List.map_cons, hbytes, hrecords]
    · rw [List.flatten_cons, hflatten]
      simp

/-- **The records of a layout are a uniquely decodable code.** Where records that were written one
after another make up the same bytes, there were as many of them, each for the same string or for
none; and conversely, for only the byte that stood behind a string is not written. This holds of
the compact layout no less than of the others, although its reader does not read its records. -/
theorem encode_uniquelyDecodable (layout : Layout) (format : ChunkFormat) :
    InformationTheory.UniquelyDecodable (layout.codewords format) ∧
    ∀ (left right : List StringConst) (records records' : List ByteArray),
      left.map (layout.encode format) = records.map .ok →
      right.map (layout.encode format) = records'.map .ok →
      (joinBytes records = joinBytes records' ↔
        left.map StringConst.content? = right.map StringConst.content?) := by
  refine ⟨fun words words' h h' heq => ?_, fun left right records records' h h' => ?_⟩
  · obtain ⟨left, records, hrecords, rfl, hflatten⟩ := exists_constants_of_codewords h
    obtain ⟨right, records', hrecords', rfl, hflatten'⟩ := exists_constants_of_codewords h'
    rw [hflatten, hflatten'] at heq
    have hjoin : joinBytes records = joinBytes records' :=
      ByteArray.ext (Array.ext' heq)
    obtain ⟨rfl, -⟩ := joinBytes_encode_inj hrecords hrecords' hjoin
    rfl
  · refine ⟨fun heq => (joinBytes_encode_inj h h' heq).2, fun hcontents => ?_⟩
    rw [map_encode_eq, hcontents, ← map_encode_eq, h'] at h
    rw [(List.map_inj_right fun _ _ => Except.ok.inj).mp h]

/-- Two rows of compact records around the greatest size byte: a string of 253 bytes has it
neither in front nor behind, one of 254 bytes has it in front, and the byte that was stored behind
a string is not to be seen. -/
theorem encode_uniquelyDecodable_compact :
    let format : ChunkFormat := ⟨0x53, ⟨2, by decide, by decide⟩, .big, false⟩
    let content : ByteArray := ⟨Array.replicate 253 0xff⟩
    let left : List StringConst := [.null, .ofBytes content, .ofBytes (content.push 0xff)]
    let right : List StringConst :=
      [.null, .present content (some 7), .present (content.push 0xff) (some 0)]
    let records := [[0].toByteArray, [0xfe].toByteArray ++ content,
      [0xff, 0, 0xff].toByteArray ++ content.push 0xff]
    left.map (compact.encode format) = records.map .ok ∧
      right.map (compact.encode format) = records.map .ok ∧
      left.map StringConst.content? = right.map StringConst.content? := by
  intro format content left right records
  have hsize : content.size = 253 := Array.size_replicate
  have hpush : (content.push 0xff).size = 254 := ByteArray.size_push.trans (congrArg (· + 1) hsize)
  have hshort (trailing) : compact.encode format (.present content trailing) =
      .ok ([0xfe].toByteArray ++ content) := by
    rw [encode_eq, pieces_of_lt (by rw [hsize]; decide), hsize, Except.map]
    simp [lead, trail, Compact.extended]
  have hlong (trailing) : compact.encode format (.present (content.push 0xff) trailing) =
      .ok ([0xff, 0, 0xff].toByteArray ++ content.push 0xff) := by
    have hlead : joinBytes (compact.lead format 255) = [0xff, 0, 0xff].toByteArray := by decide
    rw [encode_eq, pieces_of_lt (by rw [hpush]; decide), hpush, Except.map, joinBytes_append, hlead]
    simp [trail]
  have hleft : left.map (compact.encode format) = records.map .ok := by
    simp only [left, records, List.map_cons, List.map_nil, StringConst.ofBytes, hshort, hlong]
    rfl
  have hright : right.map (compact.encode format) = records.map .ok := by
    simp only [right, records, List.map_cons, List.map_nil, hshort, hlong]
    rfl
  exact ⟨hleft, hright,
    ((encode_uniquelyDecodable compact format).2 left right records records hleft hright).mp rfl⟩

end Layout

end ChunkStrings
