import ChunkStrings.Proofs.Emission
import ChunkStrings.Proofs.KeystreamMask
import ChunkStrings.Proofs.Record
import Mathlib.Data.Set.Insert

/-!
# The spellings of a compact string

Which runs of bytes are read as a given constant. Reading finds records and nothing else, so
these are the bytes of the records that stand for the constant (`Layout.mem_spellings_iff`), and
what is left is to count such records in the compact layout.

The stored bytes of a string are settled by its content, since the pass of the keystream undoes
itself; what may differ is only how their number is announced. A size byte announces the sizes
between zero, which stands for the absent string, and the greatest size byte, which announces a
size of its own. Behind that one any size may stand that fits into the width, also one that the
size byte could have announced: so short strings have two spellings, and the empty string, whose
size byte is taken, has one (`Layout.spellings_compact`).
-/

namespace ChunkStrings

variable {format : ChunkFormat}

/-! ### Spellings are the bytes of records -/

/-- In front of everything there is nothing to pass over. -/
theorem Cursor.between_empty (data : ByteArray) : between .empty (data ++ .empty) = start data :=
  ext_pos (by simp [between, start]) rfl

namespace Layout

/-- **The spellings of a constant**: the runs of bytes that a read finds to be one record of the
constant, from the first byte to the last. -/
def spellings (layout : Layout) (format : ChunkFormat) (scratch : ByteArray)
    (log : Array LogLine) (constant : StringConst) : Set ByteArray :=
  {bytes | ∃ after, (layout.decodeTraced format).run ⟨.start bytes, scratch, log⟩ =
    .ok constant after ∧ after.cursor.pos = bytes.size}

variable {layout : Layout} {scratch bytes : ByteArray} {log : Array LogLine}
  {constant : StringConst}

/-- **The spellings of a constant are the bytes of its records.** What was in the scratch buffer or
in the log does not matter. -/
theorem mem_spellings_iff : bytes ∈ layout.spellings format scratch log constant ↔
    ∃ record : Record format layout, record.bytes = bytes ∧ record.value = constant := by
  constructor
  · rintro ⟨after, hrun, hpos⟩
    rw [← Cursor.between_empty] at hrun
    exact exists_record_of_run hrun (hpos.trans (Nat.zero_add _).symm)
  · rintro ⟨record, rfl, rfl⟩
    obtain ⟨after, hrun, hafter⟩ := record.exists_run_decodeTraced .empty .empty scratch log
    rw [Cursor.between_empty] at hrun
    refine ⟨after, hrun, ?_⟩
    rw [hafter, Cursor.pos_between, ByteArray.empty_append]

end Layout

/-! ### The compact forms of a string -/

/-- The field of zero is zero in all its bytes, in either order. -/
theorem ChunkFormat.field_zero (format : ChunkFormat) :
    format.field 0 = (List.replicate format.width.bytes 0).toByteArray := by
  have hdigits (width : Nat) : byteDigits width 0 = List.replicate width 0 := by
    induction width with
    | zero => rfl
    | succ width ih =>
      rw [byteDigits, Nat.zero_div, ih, List.replicate_succ]
      rfl
  rw [field]
  cases format.order with
  | little => rw [ByteOrder.encode, hdigits]
  | big => rw [ByteOrder.encode, hdigits, List.reverse_replicate]

namespace Compact

/-- The spelling whose size byte is the size of the string. -/
def shortForm (content : ByteArray) : ByteArray :=
  [UInt8.ofNat content.size].toByteArray ++ Keystream.apply content

/-- The spelling with the greatest size byte, the size of the string behind it. -/
def longForm (format : ChunkFormat) (content : ByteArray) : ByteArray :=
  [extended].toByteArray ++ (format.field content.size ++ Keystream.apply content)

variable {bytes content : ByteArray}

/-- The empty string is a field of zero behind the greatest size byte. -/
theorem longForm_empty (format : ChunkFormat) :
    longForm format .empty = (extended :: List.replicate format.width.bytes 0).toByteArray := by
  have hstored : Keystream.apply .empty = .empty := rfl
  rw [longForm, hstored, ByteArray.append_empty, ByteArray.size_empty, format.field_zero,
    ← List.toByteArray_append, List.singleton_append]

/-- The two forms of a short string differ in their first byte. -/
theorem shortForm_ne_longForm (hpos : 0 < content.size)
    (hshort : content.size < extended.toNat) : shortForm content ≠ longForm format content := by
  intro heq
  have hfirst := List.toByteArray_inj.mp (ByteArray.append_inj_left heq (by simp))
  obtain ⟨-, -, hext⟩ := toNat_ofNat_of_short hpos hshort
  exact hext (List.head_eq_of_cons_eq hfirst)

/-- The stored bytes of a record of a string are the string after another pass. -/
theorem apply_eq_of_ofBytes_eq {stored : ByteArray} {trailing : Option UInt8}
    (h : StringConst.ofBytes (Keystream.apply stored) = .present content trailing) :
    stored = Keystream.apply content ∧ trailing = none := by
  obtain ⟨hcontent, htrailing⟩ := StringConst.present.inj h
  exact ⟨Keystream.apply_eq_iff.mp hcontent, htrailing.symm⟩

/-- **The records of a string are its short and its long form**, each where its way to announce the
size has room for it. No record has a byte behind its string. -/
theorem exists_record_iff {trailing : Option UInt8} :
    (∃ record : Record format .compact,
        record.bytes = bytes ∧ record.value = .present content trailing) ↔
      trailing = none ∧
        (0 < content.size ∧ content.size < extended.toNat ∧ bytes = shortForm content ∨
          content.size < format.width.limit ∧ bytes = longForm format content) := by
  constructor
  · rintro ⟨record, rfl, hvalue⟩
    cases record with
    | compactNull => cases hvalue
    | compactShort stored hpos hshort =>
      obtain ⟨rfl, htrailing⟩ := apply_eq_of_ofBytes_eq hvalue
      rw [Keystream.size_apply] at hpos hshort
      refine ⟨htrailing, .inl ⟨hpos, hshort, ?_⟩⟩
      rw [Record.bytes, Keystream.size_apply, shortForm]
    | compactLong stored hfits =>
      obtain ⟨rfl, htrailing⟩ := apply_eq_of_ofBytes_eq hvalue
      rw [Keystream.size_apply] at hfits
      refine ⟨htrailing, .inr ⟨hfits, ?_⟩⟩
      rw [Record.bytes, Keystream.size_apply, longForm]
  · have hsize := Keystream.size_apply content
    have hvalue := congrArg StringConst.ofBytes (Keystream.apply_apply content)
    rintro ⟨rfl, ⟨hpos, hshort, rfl⟩ | ⟨hfits, rfl⟩⟩
    · rw [← hsize] at hpos hshort
      exact ⟨.compactShort _ hpos hshort, by rw [Record.bytes, hsize, shortForm], hvalue⟩
    · rw [← hsize] at hfits
      exact ⟨.compactLong _ hfits, by rw [Record.bytes, hsize, longForm], hvalue⟩

/-- The absent string has a single record. -/
theorem exists_record_null_iff : (∃ record : Record format .compact,
    record.bytes = bytes ∧ record.value = .null) ↔ bytes = [0].toByteArray := by
  constructor
  · rintro ⟨record, rfl, hvalue⟩
    cases record with
    | compactNull => rfl
    | compactShort stored hpos hshort => cases hvalue
    | compactLong stored hfits => cases hvalue
  · rintro rfl
    exact ⟨.compactNull, rfl, rfl⟩

end Compact

/-! ### The census -/

namespace Layout

variable {content scratch bytes : ByteArray} {log : Array LogLine}

/-- No spelling stands for a string with a byte behind it. -/
theorem spellings_trailing (content : ByteArray) (byte : UInt8) :
    compact.spellings format scratch log (.present content (some byte)) = ∅ := by
  refine Set.eq_empty_of_forall_notMem fun bytes h => ?_
  obtain ⟨htrailing, -⟩ := Compact.exists_record_iff.mp (mem_spellings_iff.mp h)
  cases htrailing

/-- A spelling of a string is in one of the two forms. -/
theorem mem_spellings_present_iff :
    bytes ∈ compact.spellings format scratch log (.present content none) ↔
      0 < content.size ∧ content.size < Compact.extended.toNat ∧
          bytes = Compact.shortForm content ∨
        content.size < format.width.limit ∧ bytes = Compact.longForm format content := by
  rw [mem_spellings_iff, Compact.exists_record_iff]
  exact and_iff_right rfl

/-- A string that the size byte can announce has both forms. -/
theorem spellings_of_short (hpos : 0 < content.size)
    (hshort : content.size < Compact.extended.toNat) :
    compact.spellings format scratch log (.present content none) =
      {Compact.shortForm content, Compact.longForm format content} := by
  have hfits := Compact.lt_limit_of_short hshort format.width
  refine Set.ext fun bytes => mem_spellings_present_iff.trans ?_
  rw [Set.mem_insert_iff, Set.mem_singleton_iff, and_iff_right hpos, and_iff_right hshort,
    and_iff_right hfits]

/-- The long form is the only one of a string that the size byte cannot announce. -/
theorem spellings_of_long (hlong : 0 < content.size → Compact.extended.toNat ≤ content.size)
    (hfits : content.size < format.width.limit) :
    compact.spellings format scratch log (.present content none) =
      {Compact.longForm format content} := by
  refine Set.ext fun bytes => mem_spellings_present_iff.trans ?_
  rw [Set.mem_singleton_iff, and_iff_right hfits]
  exact or_iff_right fun ⟨hpos, hshort, _⟩ => absurd hshort (Nat.not_lt.mpr (hlong hpos))

/-- A string whose size does not fit has no form at all, since a size byte spells no size that does
not fit. -/
theorem spellings_of_le (h : format.width.limit ≤ content.size) :
    compact.spellings format scratch log (.present content none) = ∅ := by
  refine Set.eq_empty_of_forall_notMem fun bytes hmem => Nat.not_lt.mpr h ?_
  rcases mem_spellings_present_iff.mp hmem with ⟨-, hshort, -⟩ | ⟨hfits, -⟩
  · exact Compact.lt_limit_of_short hshort format.width
  · exact hfits

/-- **The census of compact spellings.** The absent string is spelt by a zero byte alone. A string
of no byte has one spelling, its size behind the greatest size byte; a string that the size byte
can announce has two; a longer one has the long one alone, as long as its size fits into the
width, and none beyond that. No spelling stands for a string with a byte behind it. -/
theorem spellings_compact (format : ChunkFormat) (scratch : ByteArray) (log : Array LogLine) :
    let width := format.width.bytes
    let spellings := compact.spellings format scratch log
    let short := fun content : ByteArray =>
      [UInt8.ofNat content.size].toByteArray ++ Keystream.apply content
    let long := fun content : ByteArray =>
      [0xff].toByteArray ++ (format.field content.size ++ Keystream.apply content)
    spellings .null = {[0].toByteArray} ∧
    (∀ content byte, spellings (.present content (some byte)) = ∅) ∧
    spellings (.present .empty none) = {(0xff :: List.replicate width 0).toByteArray} ∧
    ∀ content : ByteArray,
      (1 ≤ content.size → content.size ≤ 254 → short content ≠ long content ∧
        spellings (.present content none) = {short content, long content}) ∧
      (255 ≤ content.size → content.size < 256 ^ width →
        spellings (.present content none) = {long content}) ∧
      (256 ^ width ≤ content.size → spellings (.present content none) = ∅) := by
  intro width spellings short long
  have hempty : spellings (.present .empty none) = {long .empty} :=
    spellings_of_long (fun hpos => absurd hpos (Nat.lt_irrefl 0)) format.width.limit_pos
  refine ⟨?_, spellings_trailing, ?_, fun content => ?_⟩
  · exact Set.ext fun bytes => mem_spellings_iff.trans Compact.exists_record_null_iff
  · exact hempty.trans (congrArg _ (Compact.longForm_empty format))
  · rw [← format.width.limit_eq_pow]
    refine ⟨fun hpos hle => ?_, fun hlong => spellings_of_long fun _ => hlong, spellings_of_le⟩
    have hshort : content.size < Compact.extended.toNat := Nat.lt_succ_of_le hle
    exact ⟨Compact.shortForm_ne_longForm hpos hshort, spellings_of_short hpos hshort⟩

/-- With lengths of one byte, two bytes have two spellings, the longest string that a length can
say has one, and a byte more is a string that no bytes stand for. -/
theorem spellings_compact_narrow :
    let format : ChunkFormat := ⟨0x53, ⟨1, by decide, by decide⟩, .big, false⟩
    let spellings := compact.spellings format .empty #[]
    let long : ByteArray := ⟨Array.replicate 255 0x61⟩
    spellings (.ofBytes [0x61, 0x62].toByteArray) =
        {[2, 0x61, 0x63].toByteArray, [0xff, 2, 0x61, 0x63].toByteArray} ∧
      spellings (.ofBytes long) =
        {[0xff].toByteArray ++ ([0xff].toByteArray ++ Keystream.apply long)} ∧
      spellings (.ofBytes (long.push 0x61)) = ∅ := by
  intro format spellings long
  obtain ⟨-, -, -, hcensus⟩ := spellings_compact format .empty #[]
  have hsize : long.size = 255 := Array.size_replicate
  have hshort : Compact.shortForm [0x61, 0x62].toByteArray = [2, 0x61, 0x63].toByteArray := by
    decide
  have hextended : Compact.longForm format [0x61, 0x62].toByteArray =
      [0xff, 2, 0x61, 0x63].toByteArray := by decide
  have hlong : Compact.longForm format long =
      [0xff].toByteArray ++ ([0xff].toByteArray ++ Keystream.apply long) := by
    rw [Compact.longForm, hsize, show format.field 255 = [0xff].toByteArray by decide]
    rfl
  refine ⟨?_, ?_, ?_⟩
  · rw [← hshort, ← hextended]
    exact ((hcensus [0x61, 0x62].toByteArray).1 (by decide) (by decide)).2
  · rw [← hlong]
    exact (hcensus long).2.1 (Nat.le_of_eq hsize.symm) (by rw [hsize]; decide)
  · exact (hcensus (long.push 0x61)).2.2 (by rw [ByteArray.size_push, hsize]; decide)

end Layout

end ChunkStrings
