import ChunkStrings.Proofs.Passage
import ChunkStrings.RecordReader

/-!
# Records, taken apart

The grammar of the three layouts, as data. A `Record` is one way to store a constant in a
layout: the bytes of the string as they are stored, and the form of the length in front of them
where the layout has a choice. It spells a run of bytes (`Record.bytes`) and stands for a
constant (`Record.value`), and a proof in it says that the length can be stored.

The main statement is that reading finds records and nothing else
(`Layout.yields_decode_iff`): a read succeeds exactly if the cursor can pass over a record of
the layout, and what it yields is what the record stands for. Everything about sequences of
records is a consequence of that equivalence, since it mentions neither the loop over the bytes
nor the scratch buffer that they are gathered in.
-/

namespace ChunkStrings

/-- What is logged about a constant once it is read. -/
def StringConst.lines (traced : Bool) : StringConst → List LogLine
  | null => []
  | present content _ => if traced then [.parsed content] else []

/-- A string and one more byte, stored together. -/
theorem StringConst.ofTerminated_append_singleton (content : ByteArray) (byte : UInt8) :
    ofTerminated (content ++ [byte].toByteArray) = present content (some byte) := by
  have hsize : (content ++ [byte].toByteArray).size = content.size + 1 := by simp
  have hpos : 0 < (content ++ [byte].toByteArray).size := by omega
  rw [ofTerminated, dif_pos hpos]
  congr 1
  · rw [hsize, Nat.add_sub_cancel, ByteArray.extract_append_eq_left rfl]
  · refine congrArg some ?_
    rw [ByteArray.getElem_append_right (by omega)]
    simp

/-! ### The forms of a record -/

/-- **A record of a layout**, with its parts named. -/
inductive Record (format : ChunkFormat) : Layout → Type where
  /-- A length, and as many bytes: none for the absent string, else the string and one more. -/
  | legacy (stored : ByteArray) (fits : stored.size < format.width.limit) :
      Record format .legacy
  /-- The length zero. -/
  | modernNull : Record format .modern
  /-- A length, and one byte less than it says. -/
  | modern (content : ByteArray) (fits : content.size + 1 < format.width.limit) :
      Record format .modern
  /-- The size byte zero. -/
  | compactNull : Record format .compact
  /-- A size byte, and as many bytes. -/
  | compactShort (stored : ByteArray) (pos : 0 < stored.size)
      (short : stored.size < Compact.extended.toNat) : Record format .compact
  /-- The greatest size byte, a length, and as many bytes. -/
  | compactLong (stored : ByteArray) (fits : stored.size < format.width.limit) :
      Record format .compact

namespace Record

variable {format : ChunkFormat} {layout : Layout}

/-- The bytes that a record is spelt with. -/
def bytes {layout : Layout} : Record format layout → ByteArray
  | legacy stored _ => format.field stored.size ++ stored
  | modernNull => format.field 0
  | modern content _ => format.field (content.size + 1) ++ content
  | compactNull => [0].toByteArray
  | compactShort stored _ _ => [UInt8.ofNat stored.size].toByteArray ++ stored
  | compactLong stored _ =>
    [Compact.extended].toByteArray ++ (format.field stored.size ++ stored)

/-- No record is empty: the absent string takes a byte at least, too. -/
theorem size_bytes_pos (record : Record format layout) : 0 < record.bytes.size := by
  have := format.width.one_le
  cases record <;> simp [bytes] <;> omega

/-- The constant that a record stands for. -/
def value {layout : Layout} : Record format layout → StringConst
  | legacy stored _ => .ofTerminated stored
  | modernNull => .null
  | modern content _ => .ofBytes content
  | compactNull => .null
  | compactShort stored _ _ => .ofBytes (Keystream.apply stored)
  | compactLong stored _ => .ofBytes (Keystream.apply stored)

/-- What reading a record logs on the way. -/
def notes {layout : Layout} : Record format layout → List LogLine
  | compactLong stored _ => [.extendedSize stored.size]
  | _ => []

/-- What reading a record logs altogether, which depends on whether the format is traced. -/
def lines (record : Record format layout) : List LogLine :=
  record.notes ++ record.value.lines format.traced

end Record

/-! ### Computations whose scratch buffer does not matter -/

namespace Decode

variable {α β : Type}

/-- The computation succeeds with this result, cursor and log, and leaves anything in the scratch
buffer. -/
def Yields (action : Decode α) (before : DecodeState) (result : α) (cursor : Cursor)
    (log : Array LogLine) : Prop :=
  ∃ scratch, action.run before = .ok result ⟨cursor, scratch, log⟩

variable {before after : DecodeState} {cursor : Cursor} {log : Array LogLine}

theorem yields_of_run {action : Decode α} {result : α} (h : action.run before = .ok result after) :
    action.Yields before result after.cursor after.log :=
  ⟨after.scratch, h⟩

theorem yields_bind_iff {action : Decode α} {next : α → Decode β} {result : β} :
    (action >>= next).Yields before result cursor log ↔
      ∃ value between, action.run before = .ok value between ∧
        (next value).Yields between result cursor log := by
  constructor
  · rintro ⟨scratch, h⟩
    obtain ⟨value, between, haction, hnext⟩ := run_bind_eq_ok.mp h
    exact ⟨value, between, haction, scratch, hnext⟩
  · rintro ⟨value, between, haction, scratch, hnext⟩
    exact ⟨scratch, run_bind_eq_ok.mpr ⟨value, between, haction, hnext⟩⟩

theorem yields_pure_iff {value result : α} :
    (pure value : Decode α).Yields before result cursor log ↔
      value = result ∧ before.cursor = cursor ∧ before.log = log := by
  constructor
  · rintro ⟨scratch, h⟩
    cases h
    exact ⟨rfl, rfl, rfl⟩
  · rintro ⟨rfl, rfl, rfl⟩
    exact ⟨before.scratch, rfl⟩

/-- A transaction succeeds as what is in it does. -/
theorem run_transaction_eq_ok {action : Decode α} {result : α} :
    (transaction action).run before = .ok result after ↔
      action.run before = .ok result after := by
  constructor
  · intro h
    rcases hrun : action.run before with ⟨value, between⟩ | ⟨fault, between⟩
    · rw [run_transaction_of_ok hrun] at h
      exact h
    · rw [run_transaction_of_error hrun] at h
      cases h
  · exact run_transaction_of_ok

theorem yields_transaction_iff {action : Decode α} {result : α} :
    (transaction action).Yields before result cursor log ↔
      action.Yields before result cursor log :=
  exists_congr fun _ => run_transaction_eq_ok

end Decode

/-! ### Reading finds records -/

section Reading

variable {format : ChunkFormat} {before : DecodeState} {constant : StringConst} {cursor : Cursor}
  {log : Array LogLine}

/-- Loops of as many turns whose actions agree turn by turn are the same loop. -/
theorem LengthInt.forIndexes_congr {m : Type → Type} [Monad m] {f g : Nat → m Unit}
    {count start start' : Nat} (h : ∀ i, f (start + i) = g (start' + i)) :
    forIndexes f count start = forIndexes g count start' := by
  induction count generalizing start start' with
  | zero => rfl
  | succ count ih =>
    rw [forIndexes, forIndexes, show f start = g start' from h 0]
    refine congrArg _ (funext fun _ => ih fun i => ?_)
    rw [Nat.add_assoc, Nat.add_assoc]
    exact h (1 + i)

/-- The legacy layout gathers as many bytes as the length says. -/
theorem Legacy.decode_eq : Legacy.decode format = do
    let length ← LengthInt.decode format
    let bytes ← Decode.gatherAll length.value
    return .ofTerminated bytes := by
  simp only [Legacy.decode, Decode.gatherAll, bind_assoc]
  rfl

/-- A loop whose first turn does nothing is a loop of one turn less. -/
theorem LengthInt.forIndexes_skipFirst {m : Type → Type} [Monad m] [LawfulMonad m] (action : m Unit)
    (count : Nat) : forIndexes (fun index => if 0 < index then action else pure ()) count 0 =
      forIndexes (fun _ => action) (count - 1) 0 := by
  cases count with
  | zero => rfl
  | succ count =>
    rw [forIndexes, if_neg (Nat.lt_irrefl 0), pure_bind]
    exact forIndexes_congr fun i => if_pos (by omega)

/-- The modern layout gathers one byte less than the length says, since the first turn of its
loop reads nothing. -/
theorem Modern.decode_eq : Modern.decode format = do
    let length ← LengthInt.decode format
    if length.value = 0 then
      return .null
    let bytes ← Decode.gatherAll (length.value - 1)
    return .ofBytes bytes := by
  rw [Modern.decode]
  refine congrArg _ (funext fun length => ?_)
  simp only [Decode.gatherAll, bind_assoc, ← LengthInt.forIndexes_skipFirst]
  split <;> rfl

theorem Legacy.yields_decode_iff : (Legacy.decode format).Yields before constant cursor log ↔
    ∃ record : Record format .legacy, record.value = constant ∧
      before.cursor.Passes record.bytes cursor ∧ log = before.log ++ record.notes := by
  rw [Legacy.decode_eq]
  constructor
  · rintro ⟨scratch, h⟩
    simp only [Decode.run_bind_eq_ok] at h
    obtain ⟨length, _, hlength, stored, _, hstored, hvalue⟩ := h
    obtain ⟨hwidth, c₁, hfield, rfl⟩ := LengthInt.run_decode_eq_ok.mp hlength
    obtain ⟨hsize, c₂, hpass, rfl⟩ := Decode.run_gatherAll_eq_ok.mp hstored
    cases hvalue
    have hfits := length.fits
    rw [hwidth, ← hsize] at hfits
    rw [← hsize] at hfield
    exact ⟨.legacy _ hfits, rfl, hfield.append hpass, by simp [Record.notes]⟩
  · rintro ⟨record, rfl, hpass, rfl⟩
    cases record with
    | legacy stored hfits =>
      obtain ⟨c₁, hfield, hstored⟩ := hpass.split
      refine ⟨stored, ?_⟩
      simp only [Decode.run_bind_eq_ok]
      refine ⟨⟨stored.size, format.width, hfits⟩, _,
        LengthInt.run_decode_eq_ok.mpr ⟨rfl, c₁, hfield, rfl⟩, stored, _,
        Decode.run_gatherAll_eq_ok.mpr ⟨rfl, cursor, hstored, rfl⟩, ?_⟩
      simp [Record.value, Record.notes]

theorem Modern.yields_decode_iff : (Modern.decode format).Yields before constant cursor log ↔
    ∃ record : Record format .modern, record.value = constant ∧
      before.cursor.Passes record.bytes cursor ∧ log = before.log ++ record.notes := by
  rw [Modern.decode_eq]
  constructor
  · rintro ⟨scratch, h⟩
    rw [Decode.run_bind_eq_ok] at h
    obtain ⟨length, _, hlength, h⟩ := h
    obtain ⟨hwidth, c₁, hfield, rfl⟩ := LengthInt.run_decode_eq_ok.mp hlength
    rcases hlen : length.value with _ | count
    · rw [if_pos hlen] at h
      cases h
      rw [hlen] at hfield
      exact ⟨.modernNull, rfl, hfield, by simp [Record.notes]⟩
    · rw [if_neg (by omega), Decode.run_bind_eq_ok, hlen, Nat.add_sub_cancel] at h
      obtain ⟨content, _, hcontent, hvalue⟩ := h
      obtain ⟨hsize, c₂, hpass, rfl⟩ := Decode.run_gatherAll_eq_ok.mp hcontent
      cases hvalue
      have hfits := length.fits
      rw [hwidth, hlen, ← hsize] at hfits
      rw [hlen, ← hsize] at hfield
      exact ⟨.modern _ hfits, rfl, hfield.append hpass, by simp [Record.notes]⟩
  · rintro ⟨record, rfl, hpass, rfl⟩
    cases record with
    | modernNull =>
      refine ⟨before.scratch, ?_⟩
      rw [Decode.run_bind_eq_ok]
      refine ⟨⟨0, format.width, format.width.limit_pos⟩, _,
        LengthInt.run_decode_eq_ok.mpr ⟨rfl, cursor, hpass, rfl⟩, ?_⟩
      simp [Record.value, Record.notes]
    | modern content hfits =>
      obtain ⟨c₁, hfield, hcontent⟩ := hpass.split
      refine ⟨content, ?_⟩
      rw [Decode.run_bind_eq_ok]
      refine ⟨⟨content.size + 1, format.width, hfits⟩, _,
        LengthInt.run_decode_eq_ok.mpr ⟨rfl, c₁, hfield, rfl⟩, ?_⟩
      rw [if_neg (Nat.succ_ne_zero _), Decode.run_bind_eq_ok]
      refine ⟨content, _, Decode.run_gatherAll_eq_ok.mpr ⟨rfl, cursor, hcontent, rfl⟩, ?_⟩
      simp [Record.value, Record.notes]

/-- Reads the bytes of a compact string, once their number is known. -/
def Compact.decodeContent (size : Nat) : Decode StringConst := do
  Decode.clear
  let stored ← Decode.take size
  Decode.keepAll stored
  Decode.changeKept Keystream.apply
  let bytes ← Decode.kept
  return .ofBytes bytes

/-- The compact layout reads a size byte, and unless it is zero, a size and as many bytes. -/
theorem Compact.decode_eq : Compact.decode format = (do
    let first ← Decode.byte
    if first = 0 then
      return .null
    let size ← Compact.decodeSize format first
    Compact.decodeContent size) :=
  rfl

/-- The bytes that a size announces are read all at once, and the keystream is undone. -/
theorem Compact.run_decodeContent_eq_ok {size : Nat} {after : DecodeState} :
    (Compact.decodeContent size).run before = .ok constant after ↔
      ∃ stored cursor, stored.size = size ∧ before.cursor.Passes stored cursor ∧
        constant = .ofBytes (Keystream.apply stored) ∧
        after = { before with cursor, scratch := Keystream.apply stored } := by
  rw [Compact.decodeContent]
  simp only [Decode.run_bind_eq_ok]
  constructor
  · rintro ⟨_, _, hclear, stored, _, htake, _, _, hkeep, _, _, hchange, _, _, hkept, hvalue⟩
    cases hclear
    obtain ⟨hsize, cursor, hpass, rfl⟩ := Decode.run_take_eq_ok.mp htake
    cases hkeep
    cases hchange
    cases hkept
    cases hvalue
    refine ⟨stored, cursor, hsize, hpass, ?_, ?_⟩ <;> rw [ByteArray.empty_append]
  · rintro ⟨stored, cursor, hsize, hpass, rfl, rfl⟩
    refine ⟨(), _, Decode.run_clear _, stored, _,
      Decode.run_take_eq_ok.mpr ⟨hsize, cursor, hpass, rfl⟩, (), _, Decode.run_keepAll _ _, (), _,
      Decode.run_changeKept _ _, _, _, Decode.run_kept _, ?_⟩
    rw [EStateM.run_pure, ByteArray.empty_append]

/-- The bytes of a string are all there or none of them is read. -/
theorem Compact.run_decodeContent_of_lt {size : Nat} (h : before.cursor.remaining < size) :
    (Compact.decodeContent size).run before =
      .error (.truncated size before.cursor.remaining) { before with scratch := .empty } := by
  have htake : (Decode.take size).run { before with scratch := .empty } = _ :=
    Decode.run_take_of_lt h
  rw [Compact.decodeContent, EStateM.run_bind, Decode.run_clear]
  change (Decode.take size >>= _).run { before with scratch := .empty } = _
  rw [EStateM.run_bind, htake]

/-- A size byte other than the greatest is the size. -/
theorem Compact.run_decodeSize_of_ne {first : UInt8} (h : first ≠ Compact.extended) :
    (Compact.decodeSize format first).run before = .ok first.toNat before := by
  rw [Compact.decodeSize, if_neg h, EStateM.run_pure]

/-- Behind the greatest size byte stands the field of the size, which is logged. -/
theorem Compact.run_decodeSize_extended_eq_ok {size : Nat} {after : DecodeState} :
    (Compact.decodeSize format Compact.extended).run before = .ok size after ↔
      size < format.width.limit ∧ ∃ cursor, before.cursor.Passes (format.field size) cursor ∧
        after = { before with cursor, log := before.log.push (.extendedSize size) } := by
  rw [Compact.decodeSize, if_pos rfl]
  simp only [Decode.run_bind_eq_ok]
  constructor
  · rintro ⟨length, _, hlength, _, _, hnote, hvalue⟩
    obtain ⟨hwidth, cursor, hfield, rfl⟩ := LengthInt.run_decode_eq_ok.mp hlength
    cases hnote
    obtain ⟨rfl, rfl⟩ := Decode.run_pure_eq_ok.mp hvalue
    have hfits := length.fits
    rw [hwidth] at hfits
    exact ⟨hfits, cursor, hfield, rfl⟩
  · rintro ⟨hfits, cursor, hfield, rfl⟩
    exact ⟨⟨size, format.width, hfits⟩, _,
      LengthInt.run_decode_eq_ok.mpr ⟨rfl, cursor, hfield, rfl⟩, (), _, Decode.run_note _ _, rfl⟩

/-- A size byte that is neither zero nor the greatest spells a size by itself. -/
theorem Compact.toNat_mem_short {first : UInt8} (hzero : first ≠ 0)
    (hext : first ≠ Compact.extended) :
    0 < first.toNat ∧ first.toNat < Compact.extended.toNat := by
  have hlt := UInt8.toNat_lt first
  have hpos : first.toNat ≠ 0 := fun h => hzero (UInt8.toNat_inj.mp h)
  have hne : first.toNat ≠ Compact.extended.toNat := fun h => hext (UInt8.toNat_inj.mp h)
  have hval : Compact.extended.toNat = 255 := rfl
  omega

/-- A size between zero and the greatest size byte is spelt by a size byte that is neither. -/
theorem Compact.toNat_ofNat_of_short {size : Nat} (hpos : 0 < size)
    (hshort : size < Compact.extended.toNat) : (UInt8.ofNat size).toNat = size ∧
      UInt8.ofNat size ≠ 0 ∧ UInt8.ofNat size ≠ Compact.extended := by
  have hval : Compact.extended.toNat = 255 := rfl
  have htoNat : (UInt8.ofNat size).toNat = size :=
    UInt8.toNat_ofNat_of_lt' (show size < 256 by omega)
  refine ⟨htoNat, fun h => ?_, fun h => ?_⟩
  · rw [h] at htoNat
    exact absurd htoNat (Nat.ne_of_lt hpos)
  · rw [h] at htoNat
    omega

theorem Compact.yields_decode_iff : (Compact.decode format).Yields before constant cursor log ↔
    ∃ record : Record format .compact, record.value = constant ∧
      before.cursor.Passes record.bytes cursor ∧ log = before.log ++ record.notes := by
  constructor
  · rintro ⟨scratch, h⟩
    rw [Compact.decode_eq, Decode.run_bind_eq_ok] at h
    obtain ⟨first, _, hfirst, h⟩ := h
    obtain ⟨c₁, hbyte, rfl⟩ := Decode.run_byte_eq_ok.mp hfirst
    by_cases hzero : first = 0
    · rw [if_pos hzero] at h
      cases h
      rw [hzero] at hbyte
      exact ⟨.compactNull, rfl, hbyte, by simp [Record.notes]⟩
    rw [if_neg hzero, Decode.run_bind_eq_ok] at h
    obtain ⟨size, _, hsize, h⟩ := h
    obtain ⟨stored, c₂, rfl, hstored, rfl, hafter⟩ := Compact.run_decodeContent_eq_ok.mp h
    by_cases hext : first = Compact.extended
    · rw [hext] at hsize hbyte
      obtain ⟨hfits, c₃, hfield, rfl⟩ := Compact.run_decodeSize_extended_eq_ok.mp hsize
      cases hafter
      exact ⟨.compactLong stored hfits, rfl, hbyte.append (hfield.append hstored),
        by simp [Record.notes]⟩
    · rw [Compact.run_decodeSize_of_ne hext] at hsize
      obtain ⟨hpos, hshort⟩ := Compact.toNat_mem_short hzero hext
      obtain ⟨hlen, rfl⟩ := EStateM.Result.ok.inj hsize
      rw [hlen] at hpos hshort
      cases hafter
      refine ⟨.compactShort stored hpos hshort, rfl, ?_, by simp [Record.notes]⟩
      rw [Record.bytes, ← hlen, UInt8.ofNat_toNat]
      exact hbyte.append hstored
  · rintro ⟨record, rfl, hpass, rfl⟩
    cases record with
    | compactNull =>
      refine ⟨before.scratch, ?_⟩
      rw [Compact.decode_eq, Decode.run_bind_eq_ok]
      refine ⟨0, _, Decode.run_byte_eq_ok.mpr ⟨cursor, hpass, rfl⟩, ?_⟩
      simp [Record.value, Record.notes]
    | compactShort stored hpos hshort =>
      obtain ⟨c₁, hbyte, hstored⟩ := hpass.split
      obtain ⟨hval, hzero, hext⟩ := Compact.toNat_ofNat_of_short hpos hshort
      refine ⟨Keystream.apply stored, ?_⟩
      rw [Compact.decode_eq, Decode.run_bind_eq_ok]
      refine ⟨_, _, Decode.run_byte_eq_ok.mpr ⟨c₁, hbyte, rfl⟩, ?_⟩
      rw [if_neg hzero, Decode.run_bind_eq_ok]
      refine ⟨_, _, Compact.run_decodeSize_of_ne hext, ?_⟩
      rw [hval]
      exact Compact.run_decodeContent_eq_ok.mpr
        ⟨stored, cursor, rfl, hstored, rfl, by simp [Record.notes]⟩
    | compactLong stored hfits =>
      obtain ⟨c₁, hbyte, hrest⟩ := hpass.split
      obtain ⟨c₂, hfield, hstored⟩ := hrest.split
      refine ⟨Keystream.apply stored, ?_⟩
      rw [Compact.decode_eq, Decode.run_bind_eq_ok]
      refine ⟨_, _, Decode.run_byte_eq_ok.mpr ⟨c₁, hbyte, rfl⟩, ?_⟩
      rw [if_neg (by decide), Decode.run_bind_eq_ok]
      refine ⟨_, _, Compact.run_decodeSize_extended_eq_ok.mpr ⟨hfits, c₂, hfield, rfl⟩, ?_⟩
      exact Compact.run_decodeContent_eq_ok.mpr
        ⟨stored, cursor, rfl, hstored, rfl, by simp [Record.notes]⟩

/-- **Reading finds records and nothing else.** -/
theorem Layout.yields_decode_iff {layout : Layout} :
    (layout.decode format).Yields before constant cursor log ↔
      ∃ record : Record format layout, record.value = constant ∧
        before.cursor.Passes record.bytes cursor ∧ log = before.log ++ record.notes := by
  cases layout with
  | legacy => exact Decode.yields_transaction_iff.trans Legacy.yields_decode_iff
  | compact => exact Decode.yields_transaction_iff.trans Compact.yields_decode_iff
  | modern => exact Decode.yields_transaction_iff.trans Modern.yields_decode_iff

/-- What reading a record logs in the end, once the record is found. -/
theorem Layout.run_decodeTraced_of_ok {layout : Layout} {after : DecodeState}
    (h : (layout.decode format).run before = .ok constant after) :
    (layout.decodeTraced format).run before =
      .ok constant { after with log := after.log ++ constant.lines format.traced } := by
  rw [Layout.decodeTraced, EStateM.run_bind, h]
  cases htraced : format.traced with
  | false => cases constant <;> simp [StringConst.lines]
  | true =>
    cases constant with
    | null => simp [StringConst.lines, StringConst.content?]
    | present content trailing =>
      simp only [StringConst.lines, StringConst.content?, if_true]
      rw [EStateM.run_bind, Decode.run_note]
      simp

theorem Layout.run_decodeTraced_of_error {layout : Layout} {after : DecodeState} {fault : Fault}
    (h : (layout.decode format).run before = .error fault after) :
    (layout.decodeTraced format).run before = .error fault after := by
  rw [Layout.decodeTraced, EStateM.run_bind, h]

/-- Reading with a log finds the same records, and logs the lines of each. -/
theorem Layout.yields_decodeTraced_iff {layout : Layout} :
    (layout.decodeTraced format).Yields before constant cursor log ↔
      ∃ record : Record format layout, record.value = constant ∧
        before.cursor.Passes record.bytes cursor ∧ log = before.log ++ record.lines := by
  constructor
  · rintro ⟨scratch, h⟩
    rcases hdecode : (layout.decode format).run before with ⟨value, after⟩ | ⟨fault, after⟩
    · rw [Layout.run_decodeTraced_of_ok hdecode] at h
      cases h
      obtain ⟨record, hvalue, hpass, hlog⟩ :=
        Layout.yields_decode_iff.mp (Decode.yields_of_run hdecode)
      refine ⟨record, hvalue, hpass, ?_⟩
      rw [hlog, Record.lines, hvalue]
      exact Array.ext' (by simp)
    · rw [Layout.run_decodeTraced_of_error hdecode] at h
      cases h
  · rintro ⟨record, rfl, hpass, rfl⟩
    obtain ⟨scratch, h⟩ := Layout.yields_decode_iff.mpr ⟨record, rfl, hpass, rfl⟩
    refine ⟨scratch, ?_⟩
    rw [Layout.run_decodeTraced_of_ok h, Record.lines]
    congr 2
    exact Array.ext' (by simp)

end Reading

/-- A record is read wherever it stands, whatever is in the scratch buffer. -/
theorem Record.exists_run_decodeTraced {layout : Layout} (record : Record format layout)
    (front rest scratch : ByteArray) (log : Array LogLine) : ∃ after,
      (layout.decodeTraced format).run ⟨.between front (record.bytes ++ rest), scratch, log⟩ =
        .ok record.value after ∧ after.cursor = .between (front ++ record.bytes) rest := by
  obtain ⟨scratch', hrun⟩ : (layout.decodeTraced format).Yields
      ⟨.between front (record.bytes ++ rest), scratch, log⟩ _ _ _ :=
    Layout.yields_decodeTraced_iff.mpr ⟨record, rfl, Cursor.passes_between _ _ _, rfl⟩
  exact ⟨_, hrun, rfl⟩

/-- What is read as a whole is a record. -/
theorem Layout.exists_record_of_run {layout : Layout} {front read rest scratch : ByteArray}
    {log : Array LogLine} {constant : StringConst} {after : DecodeState}
    (h : (layout.decodeTraced format).run ⟨.between front (read ++ rest), scratch, log⟩ =
      .ok constant after) (hpos : after.cursor.pos = front.size + read.size) :
    ∃ record : Record format layout, record.bytes = read ∧ record.value = constant := by
  obtain ⟨record, hvalue, hpass, -⟩ := yields_decodeTraced_iff.mp (Decode.yields_of_run h)
  have hread := Cursor.passes_between front read rest
  have hafter : after.cursor = .between (front ++ read) rest :=
    Cursor.ext_pos (hpass.data_eq.trans hread.data_eq.symm) (hpos.trans hread.pos_eq.symm)
  rw [hafter] at hpass
  exact ⟨record, hpass.run_unique hread, hvalue⟩

end ChunkStrings
