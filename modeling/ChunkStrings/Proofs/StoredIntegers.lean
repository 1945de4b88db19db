import ChunkStrings.Proofs.Delivery
import ChunkStrings.Proofs.MachineWords

/-!
# Integers of any width, written and read

A stored integer is written as a slice of the eight bytes of a word: the first of them if the
least significant byte comes first, and the last of them if it comes last. It is read by shifting
its bytes into a word, beginning at the other end. The library has one definition for both orders
and all widths instead, the digits of a number to the base 256 (`ByteOrder.encode`,
`ByteOrder.decode`). Here the slices are shown to be these digits
(`StoredUInt.encode_eq_lowBytes`), and the shift that tells whether a word fits to be the
comparison with a power of 256 (`StoredUInt.fits_eq_shift`). That reading and writing are inverse
to each other is then a matter of digits.

What is left is where an integer is looked for. A read may begin at any position that a machine
can count to, also past the end of the data. It counts the bytes that are left before it forms a
sum, so it finds that they are lacking and never leaves the data
(`WordDecode.run_ahead_of_lack`).
-/

namespace ChunkStrings

/-! ### The bytes of a word -/

/-- The eight bytes of a word of the machine, least significant first. -/
def wordBytes (word : UInt64) : List UInt8 :=
  List.ofFn fun place : Fin 8 => (word >>> UInt64.ofNat (8 * place)).toUInt8

/-- A digit is what is left at the bottom when all below it are divided away. -/
theorem getElem_byteDigits {width place : Nat} (value : Nat)
    (h : place < (byteDigits width value).length) :
    (byteDigits width value)[place] = UInt8.ofNat (value / 256 ^ place % 256) := by
  induction width generalizing place value with
  | zero => exact absurd h (Nat.not_lt_zero place)
  | succ width ih =>
    cases place with
    | zero => simp [byteDigits]
    | succ place =>
      rw [Nat.pow_succ, Nat.mul_comm, ← Nat.div_div_eq_div_mul]
      exact ih (value / 256) (Nat.lt_of_succ_lt_succ h)

/-- An amount of less than eight bytes is what a word is shifted by. -/
theorem toNat_shift_amount {place : Nat} (h : place < 8) :
    (UInt64.ofNat (8 * place)).toNat % 64 = 8 * place := by
  rw [toNat_ofNat_of_lt (Nat.lt_of_lt_of_le (by omega : 8 * place < 64) (by decide))]
  omega

theorem toNat_shiftRight_bytes (word : UInt64) {place : Nat} (h : place < 8) :
    (word >>> UInt64.ofNat (8 * place)).toNat = word.toNat / 256 ^ place := by
  rw [UInt64.toNat_shiftRight, toNat_shift_amount h, Nat.shiftRight_eq_div_pow, Nat.pow_mul]

theorem length_wordBytes (word : UInt64) : (wordBytes word).length = 8 :=
  List.length_ofFn

/-- **The bytes of a word are its digits.** -/
theorem wordBytes_eq (word : UInt64) : wordBytes word = byteDigits 8 word.toNat := by
  refine List.ext_getElem (by simp [length_wordBytes]) fun place hplace hdigit => ?_
  have hlt : place < 8 := by rwa [length_wordBytes] at hplace
  have hbyte : (wordBytes word)[place] = (word >>> UInt64.ofNat (8 * place)).toUInt8 :=
    List.getElem_ofFn hplace
  refine hbyte.trans ?_
  rw [getElem_byteDigits, ← UInt8.toNat_inj, UInt64.toNat_toUInt8,
    toNat_shiftRight_bytes word hlt, UInt8.toNat_ofNat', Nat.mod_mod]

/-- The low digits of a number are the first ones of more of its digits. -/
theorem take_byteDigits {width wide : Nat} (value : Nat) (h : width ≤ wide) :
    (byteDigits wide value).take width = byteDigits width value := by
  induction width generalizing wide value with
  | zero => rfl
  | succ width ih =>
    obtain ⟨wide, rfl⟩ := Nat.exists_eq_add_of_le' (Nat.le_trans (Nat.le_add_left 1 width) h)
    rw [byteDigits, List.take_succ_cons, ih (value / 256) (Nat.le_of_succ_le_succ h), byteDigits]

namespace StoredUInt

/-- **The bytes of a word from one end**: so many of the least significant ones, of all eight bytes
in this order. -/
def lowBytes (word : UInt64) (width : Nat) : ByteOrder → List UInt8
  | .little => (wordBytes word).take width
  | .big => (wordBytes word).reverse.drop (8 - width)

/-- Where the most significant byte stands first, the low bytes are the same from the other end. -/
theorem lowBytes_big (word : UInt64) {width : Nat} (h : width ≤ 8) :
    lowBytes word width .big = (lowBytes word width .little).reverse := by
  rw [lowBytes, lowBytes, List.drop_reverse, length_wordBytes, Nat.sub_sub_self h]

/-- **A stored integer is made of the low bytes of its word.** -/
theorem encode_eq_lowBytes (word : UInt64) {width : Nat} (order : ByteOrder) (h : width ≤ 8) :
    order.encode width word.toNat = lowBytes word width order := by
  have hlittle : byteDigits width word.toNat = lowBytes word width .little := by
    rw [lowBytes, wordBytes_eq, take_byteDigits _ h]
  cases order with
  | little => exact hlittle
  | big => rw [lowBytes_big word h, ← hlittle, ByteOrder.encode]

/-! ### Which values fit -/

theorem fits_eq_false_iff {value width : Nat} : fits value width = false ↔ 256 ^ width ≤ value := by
  rw [fits, decide_eq_false_iff_not, Nat.not_lt, byteLimit_eq_pow]

/-- **Whether a word fits is what is left of it when its low bytes are shifted out**; into eight
bytes it always fits, and no shift by the whole word is made. -/
theorem fits_eq_shift (word : UInt64) (width : Nat) :
    fits word.toNat width = (decide (8 ≤ width) || word >>> UInt64.ofNat (8 * width) == 0) := by
  rcases Nat.lt_or_ge width 8 with hlt | hle
  · have hzero : word >>> UInt64.ofNat (8 * width) = 0 ↔ word.toNat < byteLimit width := by
      rw [← UInt64.toNat_inj, toNat_shiftRight_bytes word hlt, byteLimit_eq_pow]
      exact Nat.div_eq_zero_iff_lt (Nat.pow_pos (by decide))
    rw [decide_eq_false (Nat.not_le.mpr hlt), Bool.false_or, Bool.eq_iff_iff, fits,
      decide_eq_true_eq, beq_iff_eq, hzero]
  · have hword : word.toNat < byteLimit width :=
      Nat.lt_of_lt_of_le word.toNat_lt (byteLimit_mono hle)
    rw [fits, decide_eq_true hword, decide_eq_true hle, Bool.true_or]

/-! ### Writing -/

section Writing

variable {value width : Nat} {order : ByteOrder}

theorem encode_of_unsupported (h : ¬(1 ≤ width ∧ width ≤ 8)) :
    encode value width order = .error (.unsupportedWidth width) := by
  rw [encode, Width.ofNat_of_not_mem h]
  rfl

theorem encode_of_le (hwidth : 1 ≤ width ∧ width ≤ 8) (h : 256 ^ width ≤ value) :
    encode value width order = .error (.valueTooLarge value width) := by
  rw [encode, Width.ofNat_of_mem hwidth]
  exact if_neg (Bool.eq_false_iff.mp (fits_eq_false_iff.mpr h))

theorem encode_of_lt (hwidth : 1 ≤ width ∧ width ≤ 8) (h : value < 256 ^ width) :
    encode value width order = .ok (order.encode width value).toByteArray := by
  rw [encode, Width.ofNat_of_mem hwidth]
  exact if_pos (eq_true_of_ne_false (mt fits_eq_false_iff.mp (Nat.not_le.mpr h)))

/-- **What a write comes to**: the width is looked at first, then the value, and only then the
sink. -/
theorem write_cases (value width : Nat) (order : ByteOrder) :
    (¬(1 ≤ width ∧ width ≤ 8) ∧
      ∀ sink, (write value width order).run sink = .error (.unsupportedWidth width) sink) ∨
    ((1 ≤ width ∧ width ≤ 8) ∧ 256 ^ width ≤ value ∧
      ∀ sink, (write value width order).run sink = .error (.valueTooLarge value width) sink) ∨
    ((1 ≤ width ∧ width ≤ 8) ∧ value < 256 ^ width ∧
      write value width order = Emit.bytes (order.encode width value).toByteArray) := by
  rw [write_eq_emit]
  by_cases hwidth : 1 ≤ width ∧ width ≤ 8
  · rcases Nat.lt_or_ge value (256 ^ width) with hlt | hle
    · rw [encode_of_lt hwidth hlt]
      exact .inr (.inr ⟨hwidth, hlt, Emit.emit_ok _⟩)
    · rw [encode_of_le hwidth hle]
      exact .inr (.inl ⟨hwidth, hle, (Emit.delivers_emit _).refused rfl⟩)
  · rw [encode_of_unsupported hwidth]
    exact .inl ⟨hwidth, (Emit.delivers_emit _).refused rfl⟩

/-- Writing bytes fails for lack of room only. -/
theorem fault_of_run_bytes {bytes : ByteArray} {sink after : Sink} {fault : Fault}
    (h : (Emit.bytes bytes).run sink = .error fault after) : fault = .sinkFull := by
  obtain ⟨written, _ | room⟩ := sink
  · cases h
  · rcases Nat.lt_or_ge room bytes.size with hlt | hle
    · cases (Emit.run_bytes_of_lt hlt).symm.trans h
      rfl
    · cases (Emit.run_bytes_of_le hle).symm.trans h

theorem run_write_eq_unsupported_iff {sink : Sink} :
    (write value width order).run sink = .error (.unsupportedWidth width) sink ↔
      ¬(1 ≤ width ∧ width ≤ 8) := by
  obtain ⟨hwidth, hrun⟩ | ⟨hwidth, -, hrun⟩ | ⟨hwidth, -, hrun⟩ := write_cases value width order
  · exact iff_of_true (hrun sink) hwidth
  · refine iff_of_false (fun h => ?_) (not_not_intro hwidth)
    cases (hrun sink).symm.trans h
  · refine iff_of_false (fun h => ?_) (not_not_intro hwidth)
    rw [hrun] at h
    cases fault_of_run_bytes h

theorem run_write_eq_tooLarge_iff {sink : Sink} :
    (write value width order).run sink = .error (.valueTooLarge value width) sink ↔
      (1 ≤ width ∧ width ≤ 8) ∧ 256 ^ width ≤ value := by
  obtain ⟨hwidth, hrun⟩ | ⟨hwidth, hle, hrun⟩ | ⟨hwidth, hlt, hrun⟩ := write_cases value width order
  · refine iff_of_false (fun h => ?_) fun h => hwidth h.1
    cases (hrun sink).symm.trans h
  · exact iff_of_true (hrun sink) ⟨hwidth, hle⟩
  · refine iff_of_false (fun h => ?_) fun h => Nat.not_le.mpr hlt h.2
    rw [hrun] at h
    cases fault_of_run_bytes h

/-- A value that fits is written as the low bytes of its word. -/
theorem write_of_lt {word : UInt64} (hwidth : 1 ≤ width ∧ width ≤ 8)
    (h : word.toNat < 256 ^ width) :
    write word.toNat width order = Emit.bytes (lowBytes word width order).toByteArray := by
  rw [write_eq_emit, encode_of_lt hwidth h, Emit.emit_ok, encode_eq_lowBytes word order hwidth.2]

end Writing

/-! ### Reading -/

section Reading

variable {data : ByteArray} {offset length width : Nat} {order : ByteOrder}

theorem window_of_le (h : offset + length ≤ data.size) :
    window data offset length = .ok (data.extract offset (offset + length)) :=
  if_pos (Nat.le_sub_of_add_le' h)

/-- Past the end of the data, no byte is available. -/
theorem window_of_lt (hpos : 0 < length) (h : data.size < offset + length) :
    window data offset length = .error (.truncated length (data.size - offset)) :=
  if_neg (by omega)

theorem readAt_of_unsupported (h : ¬(1 ≤ width ∧ width ≤ 8)) :
    readAt data offset width order = .error (.unsupportedWidth width) := by
  rw [readAt, Width.ofNat_of_not_mem h]
  rfl

theorem readAt_of_le (hwidth : 1 ≤ width ∧ width ≤ 8) (h : offset + width ≤ data.size) :
    readAt data offset width order =
      .ok (order.decode (data.extract offset (offset + width)).data.toList, offset + width) := by
  rw [readAt, Width.ofNat_of_mem hwidth]
  change (window data offset width >>= _) = _
  rw [window_of_le h]
  rfl

theorem readAt_of_lt (hwidth : 1 ≤ width ∧ width ≤ 8) (h : data.size < offset + width) :
    readAt data offset width order = .error (.truncated width (data.size - offset)) := by
  rw [readAt, Width.ofNat_of_mem hwidth]
  change (window data offset width >>= _) = _
  rw [window_of_lt hwidth.1 h]
  rfl

/-- The bytes of an integer that is there, as digits. -/
theorem length_extract (h : offset + width ≤ data.size) :
    (data.extract offset (offset + width)).data.toList.length = width := by
  rw [Array.length_toList]
  change (data.extract offset (offset + width)).size = width
  rw [ByteArray.size_extract]
  omega

/-- **A word of the machine is the integer of as many bytes**, also where there are too few. -/
theorem map_readAt_word (size : WordSize) (data : ByteArray) (offset : Nat) (order : ByteOrder) :
    (Word.readAt size data offset order).map (fun (word, after) => (word.toNat, after)) =
      readAt data offset size.bytes order := by
  have hwidth : 1 ≤ size.bytes ∧ size.bytes ≤ 8 := by cases size <;> decide
  rcases Nat.lt_or_ge data.size (offset + size.bytes) with hlt | hle
  · rw [readAt_of_lt hwidth hlt, Word.readAt, window_of_lt hwidth.1 hlt]
    rfl
  · rw [readAt_of_le hwidth hle, Word.readAt, window_of_le hle]
    have hvalue := Word.toNat_ofBytes order (Nat.le_of_eq (length_extract hle))
    exact congrArg (fun value => Except.ok (value, offset + size.bytes)) hvalue

end Reading

end StoredUInt

/-! ### Reading in machine words -/

namespace WordDecode

variable {state : WordState} {width : UInt64} {order : ByteOrder}

/-- **What is left is a word at every position**, also past the end, where nothing is. -/
theorem exists_run_remaining (hsize : state.data.size < byteLimit 8) :
    ∃ available : UInt64, available.toNat = state.data.size - state.pos.toNat ∧
      remaining.run state = .ok available state := by
  have hword := toNat_ofNat_of_lt hsize
  change ∃ available : UInt64, _ ∧ EStateM.Result.ok (if state.pos ≤ UInt64.ofNat state.data.size
    then UInt64.ofNat state.data.size - state.pos else 0) state = _
  by_cases hle : state.pos ≤ UInt64.ofNat state.data.size
  · rw [if_pos hle]
    exact ⟨_, by rw [UInt64.toNat_sub_of_le _ _ hle, hword], rfl⟩
  · have hlt : state.data.size < state.pos.toNat := by
      rwa [UInt64.le_iff_toNat_le, hword, Nat.not_le] at hle
    rw [if_neg hle]
    exact ⟨0, (Nat.sub_eq_zero_of_le (Nat.le_of_lt hlt)).symm, rfl⟩

/-- **Where bytes are lacking, no sum is formed and no range is looked up**, wherever the position
is. -/
theorem run_ahead_of_lack {count : UInt64} (hsize : state.data.size < byteLimit 8)
    (hpos : 0 < count.toNat) (h : state.data.size < state.pos.toNat + count.toNat) :
    (ahead count).run state =
      .error (.fault (.truncated count.toNat (state.data.size - state.pos.toNat))) state := by
  obtain ⟨available, havailable, hremaining⟩ := exists_run_remaining hsize
  have hlt : available < count := by
    rw [UInt64.lt_iff_toNat_lt, havailable]
    omega
  rw [ahead, EStateM.run_bind, ensure, EStateM.run_bind, hremaining]
  simp only [if_pos hlt, havailable]
  rfl

theorem run_uint_of_unsupported (h : ¬(1 ≤ width.toNat ∧ width.toNat ≤ 8)) :
    (uint width order).run state = .error (.fault (.unsupportedWidth width.toNat)) state := by
  rw [uint, if_neg (show ¬(1 ≤ width ∧ width ≤ 8) from h)]
  rfl

theorem run_uint_of_lack (hwidth : 1 ≤ width.toNat ∧ width.toNat ≤ 8)
    (hsize : state.data.size < byteLimit 8)
    (h : state.data.size < state.pos.toNat + width.toNat) :
    (uint width order).run state =
      .error (.fault (.truncated width.toNat (state.data.size - state.pos.toNat))) state := by
  rw [uint, if_pos (show 1 ≤ width ∧ width ≤ 8 from hwidth), EStateM.run_bind,
    run_ahead_of_lack hsize hwidth.1 h]

/-- Where the bytes are there, the position is one of the data, and reading in words is reading at
a cursor. -/
theorem exists_run_uint_of_le (hwidth : 1 ≤ width.toNat ∧ width.toNat ≤ 8)
    (hsize : state.data.size < byteLimit 8)
    (h : state.pos.toNat + width.toNat ≤ state.data.size) :
    ∃ word pos : UInt64,
      word.toNat = order.decode
        (state.data.extract state.pos.toNat (state.pos.toNat + width.toNat)).data.toList ∧
      pos.toNat = state.pos.toNat + width.toNat ∧
      (uint width order).run state = .ok word { state with pos } := by
  let between : DecodeState :=
    ⟨⟨state.data, state.pos.toNat, Nat.le_of_add_right_le h⟩, state.scratch, #[]⟩
  have hstate : InWords.inWords between = state :=
    congrArg (WordState.mk state.data · state.scratch) (UInt64.ofNat_toNat)
  have hroom : width.toNat ≤ between.cursor.remaining := Nat.le_sub_of_add_le' h
  have hagrees := refines_uint width order between hsize
  rw [Decode.run_uint_of_le order hwidth hroom, hstate] at hagrees
  generalize (uint width order).run state = result at hagrees ⊢
  cases hagrees with
  | ok hvalue hdata => exact ⟨_, _, hvalue, toNat_ofNat_of_lt (Nat.lt_of_le_of_lt h hsize), rfl⟩

/-- **At every position, reading in words comes to what `StoredUInt.readAt` comes to there**, and
where it fails, the position stays. -/
theorem run_uint_of_readAt (width : UInt64) (order : ByteOrder)
    (hsize : state.data.size < byteLimit 8) :
    (∀ value offset,
      StoredUInt.readAt state.data state.pos.toNat width.toNat order = .ok (value, offset) →
      ∃ word pos : UInt64, word.toNat = value ∧ pos.toNat = offset ∧
        (uint width order).run state = .ok word { state with pos }) ∧
    ∀ fault, StoredUInt.readAt state.data state.pos.toNat width.toNat order = .error fault →
      (uint width order).run state = .error (.fault fault) state := by
  by_cases hwidth : 1 ≤ width.toNat ∧ width.toNat ≤ 8
  · rcases Nat.lt_or_ge state.data.size (state.pos.toNat + width.toNat) with hlt | hle
    · rw [StoredUInt.readAt_of_lt hwidth hlt, run_uint_of_lack hwidth hsize hlt]
      refine ⟨fun value offset h => ?_, fun fault h => ?_⟩
      · cases h
      · cases h
        rfl
    · rw [StoredUInt.readAt_of_le hwidth hle]
      refine ⟨fun value offset h => ?_, fun fault h => ?_⟩
      · cases h
        exact exists_run_uint_of_le hwidth hsize hle
      · cases h
  · rw [StoredUInt.readAt_of_unsupported hwidth, run_uint_of_unsupported hwidth]
    refine ⟨fun value offset h => ?_, fun fault h => ?_⟩
    · cases h
    · cases h
      rfl

end WordDecode

/-! ### What it all comes to -/

namespace StoredUInt

/-- **What is read in a width is what was written in it.** -/
theorem readAt_of_extract {word : UInt64} {data : ByteArray} {offset width : Nat}
    {order : ByteOrder} (hwidth : 1 ≤ width ∧ width ≤ 8) (h : word.toNat < 256 ^ width)
    (hdata : data.extract offset (offset + width) = (lowBytes word width order).toByteArray) :
    readAt data offset width order = .ok (word.toNat, offset + width) := by
  have hencode := encode_eq_lowBytes word order hwidth.2
  have hsize := congrArg ByteArray.size hdata
  rw [List.size_toByteArray, ← hencode, ByteOrder.length_encode, ByteArray.size_extract] at hsize
  rw [readAt_of_le hwidth (by omega), hdata, List.data_toByteArray, ← hencode,
    order.decode_encode (byteLimit_eq_pow width ▸ h)]

/-- **What is written in a width is what was read in it**: there is one word that the bytes are the
low bytes of. -/
theorem exists_word_of_le {data : ByteArray} {offset width : Nat} (order : ByteOrder)
    (hwidth : 1 ≤ width ∧ width ≤ 8) (h : offset + width ≤ data.size) :
    ∃ word : UInt64, word.toNat < 256 ^ width ∧
      readAt data offset width order = .ok (word.toNat, offset + width) ∧
      (lowBytes word width order).toByteArray = data.extract offset (offset + width) := by
  have hlt := order.decode_lt (data.extract offset (offset + width)).data.toList
  have hencode := order.encode_decode (data.extract offset (offset + width)).data.toList
  rw [length_extract h] at hlt hencode
  obtain ⟨word, hword⟩ : ∃ word : UInt64,
      word.toNat = order.decode (data.extract offset (offset + width)).data.toList :=
    ⟨_, toNat_ofNat_of_lt (Nat.lt_of_lt_of_le hlt (byteLimit_mono hwidth.2))⟩
  refine ⟨word, ?_, ?_, ?_⟩
  · rw [hword, ← byteLimit_eq_pow]
    exact hlt
  · rw [hword, readAt_of_le hwidth h]
  · rw [← encode_eq_lowBytes word order hwidth.2, hword, hencode]
    generalize data.extract offset (offset + width) = run
    exact ByteArray.ext (by simp)

/-- **Integers of any width are read back as they are written, and written as they are read.** A
write is refused for its width exactly if this is not from one to eight, and for its value
exactly if this is too large for the width, which a shift of the word finds out; and then nothing
is written. Else, the low bytes of the word are written, so many of them as the width says; with
the most significant byte first, they are the same from the other end. Wherever these bytes
stand in some data, the value is read there. And wherever there are as many bytes in some data,
a value is read that fits, and that is written as these bytes; a word of the machine is read as
the integer of its size. Where bytes are lacking, the fault tells how many there are; in machine
words, too, at any position that is a word, also past the end of the data, and the position
stays. -/
theorem write_readAt_inverse (order : ByteOrder) :
    -- what cannot be written
    (∀ (value : UInt64) width sink,
      ((write value.toNat width order).run sink = .error (.unsupportedWidth width) sink ↔
        ¬(1 ≤ width ∧ width ≤ 8)) ∧
      ((write value.toNat width order).run sink =
          .error (.valueTooLarge value.toNat width) sink ↔
        (1 ≤ width ∧ width ≤ 8) ∧ 256 ^ width ≤ value.toNat)) ∧
    (∀ (value : UInt64) width,
      (fits value.toNat width = false ↔ 256 ^ width ≤ value.toNat) ∧
      fits value.toNat width = (decide (8 ≤ width) || value >>> UInt64.ofNat (8 * width) == 0)) ∧
    -- what is written is read
    (∀ (value : UInt64) width, 1 ≤ width ∧ width ≤ 8 → value.toNat < 256 ^ width →
      let bytes := (lowBytes value width order).toByteArray
      bytes.size = width ∧
      lowBytes value width .big = (lowBytes value width .little).reverse ∧
      write value.toNat width order = Emit.bytes bytes ∧
      (∀ written, (write value.toNat width order).run (.growing written) =
        .ok () (.growing (written ++ bytes))) ∧
      ∀ data offset, data.extract offset (offset + width) = bytes →
        readAt data offset width order = .ok (value.toNat, offset + width)) ∧
    -- what is read is written
    (∀ data offset width, 1 ≤ width ∧ width ≤ 8 → offset + width ≤ data.size →
      ∃ value : UInt64, value.toNat < 256 ^ width ∧
        readAt data offset width order = .ok (value.toNat, offset + width) ∧
        ∀ written, (write value.toNat width order).run (.growing written) =
          .ok () (.growing (written ++ data.extract offset (offset + width)))) ∧
    (∀ size data offset,
      (Word.readAt size data offset order).map (fun (word, after) => (word.toNat, after)) =
        readAt data offset size.bytes order) ∧
    -- what cannot be read
    (∀ data offset width,
      (¬(1 ≤ width ∧ width ≤ 8) →
        readAt data offset width order = .error (.unsupportedWidth width)) ∧
      (1 ≤ width ∧ width ≤ 8 → data.size < offset + width →
        readAt data offset width order = .error (.truncated width (data.size - offset)))) ∧
    -- in machine words
    ∀ (state : WordState) (width : UInt64), state.data.size < byteLimit 8 →
      (∀ value offset,
        readAt state.data state.pos.toNat width.toNat order = .ok (value, offset) →
        ∃ word pos : UInt64, word.toNat = value ∧ pos.toNat = offset ∧
          (WordDecode.uint width order).run state = .ok word { state with pos }) ∧
      ∀ fault, readAt state.data state.pos.toNat width.toNat order = .error fault →
        (WordDecode.uint width order).run state = .error (.fault fault) state := by
  refine ⟨fun value width sink => ⟨run_write_eq_unsupported_iff, run_write_eq_tooLarge_iff⟩,
    fun value width => ⟨fits_eq_false_iff, fits_eq_shift value width⟩, ?_, ?_,
    fun size data offset => map_readAt_word size data offset order,
    fun data offset width => ⟨readAt_of_unsupported, readAt_of_lt⟩,
    fun state width => WordDecode.run_uint_of_readAt width order⟩
  · intro value width hwidth hvalue bytes
    have hwrite : write value.toNat width order = Emit.bytes bytes := write_of_lt hwidth hvalue
    have hbytes : bytes.size = width := by
      rw [List.size_toByteArray, ← encode_eq_lowBytes value order hwidth.2,
        ByteOrder.length_encode]
    refine ⟨hbytes, lowBytes_big value hwidth.2, hwrite, fun written => ?_,
      fun data offset => readAt_of_extract hwidth hvalue⟩
    rw [hwrite, Emit.run_bytes_growing]
  · intro data offset width hwidth hle
    obtain ⟨value, hvalue, hread, hbytes⟩ := exists_word_of_le order hwidth hle
    refine ⟨value, hvalue, hread, fun written => ?_⟩
    rw [write_of_lt hwidth hvalue, hbytes, Emit.run_bytes_growing]

/-- Three bytes with the most significant one first, in the middle of some data; and a read from the
last position that is a word. -/
theorem write_readAt_inverse_threeBytes :
    let value : UInt64 := 0x010203
    let data : ByteArray := [9, 1, 2, 3, 7].toByteArray
    let state : WordState := ⟨data, 0xffffffffffffffff, .empty⟩
    (1 ≤ 3 ∧ 3 ≤ 8) ∧ value.toNat < 256 ^ 3 ∧ 1 + 3 ≤ data.size ∧
      data.extract 1 (1 + 3) = (lowBytes value 3 .big).toByteArray ∧
      state.data.size < byteLimit 8 ∧
      readAt data 1 3 .big = .ok (value.toNat, 4) ∧
      (write value.toNat 3 .big).run (.growing data) =
        .ok () (.growing [9, 1, 2, 3, 7, 1, 2, 3].toByteArray) ∧
      (WordDecode.uint 3 .big).run state = .error (.fault (.truncated 3 0)) state := by
  intro value data state
  have hwidth : 1 ≤ 3 ∧ 3 ≤ 8 := by decide
  have hvalue : value.toNat < 256 ^ 3 := by decide
  have hbytes : data.extract 1 (1 + 3) = (lowBytes value 3 .big).toByteArray := by decide
  have hsize : state.data.size < byteLimit 8 := by decide
  have hgrown : data ++ (lowBytes value 3 .big).toByteArray =
      [9, 1, 2, 3, 7, 1, 2, 3].toByteArray := by decide
  have hlack : readAt state.data state.pos.toNat (3 : UInt64).toNat .big =
      .error (.truncated 3 0) := by decide +kernel
  obtain ⟨-, -, hwrite, -, -, -, hwords⟩ := write_readAt_inverse .big
  obtain ⟨-, -, -, hgrows, hread⟩ := hwrite value 3 hwidth hvalue
  refine ⟨hwidth, hvalue, by decide, hbytes, hsize, hread data 1 hbytes, ?_, ?_⟩
  · rw [hgrows data, hgrown]
  · exact (hwords state 3 hsize).2 (.truncated 3 0) hlack

end StoredUInt

end ChunkStrings
