import ChunkStrings.Proofs.Passage

/-!
# Reading in machine words

The library counts in natural numbers, and its cursors carry a proof that they lie in their
data. A machine does neither: it counts in words of 64 bits, a sum may not fit into one, and a
position may lie anywhere. This file writes reading once more for such a machine, with a
position that is a word like any other. Every sum is checked where it is formed, and so is every
range of the data where it is looked up; a computation that runs into either check stops for
good, with a `Halt` that is no fault.

`Refines` says that this never happens: in words, a computation comes to what it comes to in
numbers, with the same result or the same fault, and in the same state. The relation composes
(`Refines.bind`), so that only the primitives are looked at one by one; each of them forms its
sums and ranges behind a check that there are enough bytes left, and that check is what keeps
them inside of the data. Nothing is asked of the data but that their size is a word.

What is logged is left out: it takes no part in the counting.
-/

namespace ChunkStrings

/-! ### Computations in machine words -/

/-- Why a computation in machine words stops. -/
inductive Halt where
  /-- A fault, which is reported. -/
  | fault (fault : Fault)
  /-- A sum or a difference that is no word. -/
  | overflow
  /-- A range that is none of the data. -/
  | outOfRange

/-- What a reading computation in machine words works on. -/
structure WordState where
  /-- The bytes. -/
  data : ByteArray
  /-- The position of the next byte, wherever that is. -/
  pos : UInt64
  /-- The bytes gathered so far. -/
  scratch : ByteArray

/-- A computation in machine words that reads bytes. -/
abbrev WordDecode (α : Type) := EStateM Halt WordState α

namespace WordDecode

/-- The sum of two words. -/
def add (a b : UInt64) : WordDecode UInt64 :=
  if a.toNat + b.toNat < byteLimit 8 then pure (a + b) else throw .overflow

/-- The difference of two words. -/
def sub (a b : UInt64) : WordDecode UInt64 :=
  if b ≤ a then pure (a - b) else throw .overflow

/-- The bytes between two positions. -/
def slice (start stop : UInt64) : WordDecode ByteArray := do
  let state ← get
  if start ≤ stop ∧ stop ≤ UInt64.ofNat state.data.size then
    return state.data.extract start.toNat stop.toNat
  else throw .outOfRange

/-- The number of bytes left; none are if the position is past the end. -/
def remaining : WordDecode UInt64 := do
  let state ← get
  let size := UInt64.ofNat state.data.size
  return if state.pos ≤ size then size - state.pos else 0

/-- Moves to a position, without asking where it is. -/
def moveTo (pos : UInt64) : WordDecode Unit :=
  modify fun state => { state with pos }

/-- Moves to a position of the data. -/
def seek (pos : UInt64) : WordDecode Unit := do
  let state ← get
  if UInt64.ofNat state.data.size < pos then throw (.fault .outOfBounds)
  else moveTo pos

/-- Checks that so many bytes are left. -/
def ensure (needed : UInt64) : WordDecode Unit := do
  let available ← remaining
  if available < needed then
    throw (.fault (.truncated needed.toNat available.toNat))

/-- The bytes that are next, and the position behind them. -/
def ahead (count : UInt64) : WordDecode (ByteArray × UInt64) := do
  ensure count
  let state ← get
  let stop ← add state.pos count
  let bytes ← slice state.pos stop
  return (bytes, stop)

/-- Reads so many bytes. -/
def take (count : UInt64) : WordDecode ByteArray := do
  let (bytes, stop) ← ahead count
  moveTo stop
  return bytes

/-- Moves over so many bytes, without asking whether they are there. -/
def advance (count : UInt64) : WordDecode Unit := do
  let state ← get
  let stop ← add state.pos count
  moveTo stop

/-- Reads a word. -/
def word (size : WordSize) (order : ByteOrder) : WordDecode (Word size) := do
  let (bytes, _) ← ahead (UInt64.ofNat size.bytes)
  if bytes.size = size.bytes then
    advance (UInt64.ofNat size.bytes)
    return Word.ofBytes size order bytes.data.toList
  else throw (.fault (.truncated size.bytes bytes.size))

/-- Reads one byte. -/
def byte : WordDecode UInt8 := do
  let word ← word .bits8 .little
  return UInt8.ofBitVec word

/-- Reads an integer of so many bytes into a word. -/
def uint (width : UInt64) (order : ByteOrder) : WordDecode UInt64 := do
  if 1 ≤ width ∧ width ≤ 8 then
    let (bytes, _) ← ahead width
    advance width
    return UInt64.ofBitVec (Word.ofBytes .bits64 order bytes.data.toList)
  else throw (.fault (.unsupportedWidth width.toNat))

/-- Reads a length in the width and byte order of the chunk. -/
def length (format : ChunkFormat) : WordDecode UInt64 :=
  uint (UInt64.ofNat format.width.bytes) format.order

/-- Replaces what the scratch buffer holds. -/
def changeKept (change : ByteArray → ByteArray) : WordDecode Unit :=
  modify fun state => { state with scratch := change state.scratch }

/-- What the scratch buffer holds. -/
def kept : WordDecode ByteArray := do
  let state ← get
  return state.scratch

/-- Runs a computation, and puts the position back if it fails. -/
def transaction {α : Type} (action : WordDecode α) : WordDecode α := fun state =>
  match action.run state with
  | .ok result after => .ok result after
  | .error (.fault fault) after => .error (.fault fault) { after with pos := state.pos }
  | .error halt after => .error halt after

end WordDecode

/-! ### The same computation in words and in numbers -/

/-- States that have a form in machine words. -/
class InWords (σ : Type) (τ : outParam Type) where
  /-- The form in words. -/
  inWords : σ → τ
  /-- The data that the state is about. -/
  data : σ → ByteArray

instance : InWords DecodeState WordState where
  inWords state := ⟨state.cursor.data, UInt64.ofNat state.cursor.pos, state.scratch⟩
  data state := state.cursor.data

section Refinement

variable {σ τ : Type} [InWords σ τ] {α β γ δ : Type}

/-- **Two outcomes are the same**, one of them in words: results that are related, or the same
fault, and the same state, in which the data is still this. -/
inductive Agrees (R : β → α → Prop) (data : ByteArray) :
    EStateM.Result Halt τ β → EStateM.Result Fault σ α → Prop where
  /-- Both give a result. -/
  | ok {word : β} {value : α} {after : σ} (hvalue : R word value)
      (hdata : InWords.data after = data) :
      Agrees R data (.ok word (InWords.inWords after)) (.ok value after)
  /-- Both fail. -/
  | error {fault : Fault} {after : σ} (hdata : InWords.data after = data) :
      Agrees R data (.error (.fault fault) (InWords.inWords after)) (.error fault after)

/-- **A computation in words does what the other one does** in every state whose data has a size
that is a word. It does not stop for any other reason than a fault of the other one. -/
def Refines (R : β → α → Prop) (words : EStateM Halt τ β) (action : EStateM Fault σ α) : Prop :=
  ∀ state, (InWords.data state).size < byteLimit 8 →
    Agrees R (InWords.data state) (words.run (InWords.inWords state)) (action.run state)

variable {R : β → α → Prop} {S : δ → γ → Prop}

theorem refines_pure {word : β} {value : α} (h : R word value) :
    Refines R (pure word : EStateM Halt τ β) (pure value : EStateM Fault σ α) :=
  fun _ _ => .ok h rfl

theorem refines_throw (fault : Fault) :
    Refines R (throw (.fault fault) : EStateM Halt τ β) (throw fault : EStateM Fault σ α) :=
  fun _ _ => .error rfl

/-- **Refinement composes**: what comes first leaves the data as it is, so that what comes then
finds a state of the same kind. -/
theorem Refines.bind {words : EStateM Halt τ β} {action : EStateM Fault σ α}
    {later : β → EStateM Halt τ δ} {next : α → EStateM Fault σ γ} (h : Refines R words action)
    (hnext : ∀ word value, R word value → Refines S (later word) (next value)) :
    Refines S (words >>= later) (action >>= next) := by
  intro state hsize
  have hfirst := h state hsize
  rw [EStateM.run_bind, EStateM.run_bind]
  generalize words.run (InWords.inWords state) = left at hfirst ⊢
  generalize action.run state = right at hfirst ⊢
  cases hfirst with
  | ok hvalue hdata =>
    -- the size of the data is still a word, since it is the same data
    rw [← hdata] at hsize ⊢
    exact hnext _ _ hvalue _ hsize
  | error hdata => exact .error hdata

/-- What comes then may have no counterpart in words, if it does nothing there. -/
theorem Refines.bind_right {words : EStateM Halt τ β} {action : EStateM Fault σ α}
    {S : β → γ → Prop} {next : α → EStateM Fault σ γ} (h : Refines R words action)
    (hnext : ∀ word value, R word value → Refines S (pure word) (next value)) :
    Refines S words (action >>= next) := by
  have hbind : Refines S (words >>= pure) (action >>= next) := h.bind hnext
  rwa [bind_pure] at hbind

/-- A choice that is the same in words. -/
theorem Refines.ite {words words' : EStateM Halt τ β} {action action' : EStateM Fault σ α}
    {c d : Prop} [Decidable c] [Decidable d] (hc : c ↔ d) (h : c → Refines R words action)
    (h' : ¬c → Refines R words' action') :
    Refines R (if c then words else words') (if d then action else action') := by
  by_cases hcond : c
  · rw [if_pos hcond, if_pos (hc.mp hcond)]
    exact h hcond
  · rw [if_neg hcond, if_neg (mt hc.mpr hcond)]
    exact h' hcond

/-- What holds of a number that is made of a result holds of the result. -/
theorem Refines.of_map {words : EStateM Halt τ δ} {action : EStateM Fault σ α} {f : α → γ}
    (h : Refines S words (do let value ← action; return f value)) :
    Refines (fun word value => S word (f value)) words action := by
  intro state hsize
  have hmap := h state hsize
  rw [EStateM.run_bind] at hmap
  generalize words.run (InWords.inWords state) = left at hmap ⊢
  generalize action.run state = right at hmap ⊢
  cases right with
  | ok value after =>
    cases hmap with
    | ok hvalue hdata => exact .ok hvalue hdata
  | error fault after =>
    cases hmap with
    | error hdata => exact .error hdata

/-- What gives a result in words does so in numbers, and the other way round. -/
theorem Refines.run_eq_ok_iff {words : EStateM Halt τ α} {action : EStateM Fault σ α}
    {before : σ} {value : α} {after : τ} (h : Refines Eq words action)
    (hsize : (InWords.data before).size < byteLimit 8) :
    words.run (InWords.inWords before) = .ok value after ↔
      ∃ state, action.run before = .ok value state ∧ after = InWords.inWords state := by
  have hagrees := h before hsize
  generalize words.run (InWords.inWords before) = left at hagrees ⊢
  generalize action.run before = right at hagrees ⊢
  cases hagrees with
  | ok hvalue hdata =>
    subst hvalue
    constructor
    · rintro ⟨⟩
      exact ⟨_, rfl, rfl⟩
    · rintro ⟨_, ⟨⟩, rfl⟩
      rfl
  | error hdata => exact ⟨nofun, fun ⟨_, h, _⟩ => nomatch h⟩

/-- What fails in words does so in numbers, and for the same reason. -/
theorem Refines.run_eq_error_iff {words : EStateM Halt τ β} {action : EStateM Fault σ α}
    {before : σ} {halt : Halt} {after : τ} (h : Refines R words action)
    (hsize : (InWords.data before).size < byteLimit 8) :
    words.run (InWords.inWords before) = .error halt after ↔
      ∃ fault state, action.run before = .error fault state ∧ halt = .fault fault ∧
        after = InWords.inWords state := by
  have hagrees := h before hsize
  generalize words.run (InWords.inWords before) = left at hagrees ⊢
  generalize action.run before = right at hagrees ⊢
  cases hagrees with
  | ok hvalue hdata => exact ⟨nofun, fun ⟨_, _, h, _⟩ => nomatch h⟩
  | error hdata =>
    constructor
    · rintro ⟨⟩
      exact ⟨_, _, rfl, rfl, rfl⟩
    · rintro ⟨_, _, ⟨⟩, rfl, rfl⟩
      rfl

/-- What is done for several indexes, one after another. -/
theorem Refines.forIndexes {words : Nat → EStateM Halt τ Unit} {action : Nat → EStateM Fault σ Unit}
    (h : ∀ index, Refines Eq (words index) (action index)) (count index : Nat) :
    Refines Eq (LengthInt.forIndexes words count index)
      (LengthInt.forIndexes action count index) := by
  induction count generalizing index with
  | zero => exact refines_pure rfl
  | succ count ih => exact (h index).bind fun _ _ _ => ih (index + 1)

end Refinement

/-! ### The primitives -/

theorem toNat_ofNat_of_lt {n : Nat} (h : n < byteLimit 8) : (UInt64.ofNat n).toNat = n :=
  UInt64.toNat_ofNat_of_lt' h

theorem ofNat_le_ofNat {m n : Nat} (hm : m < byteLimit 8) (hn : n < byteLimit 8) :
    UInt64.ofNat m ≤ UInt64.ofNat n ↔ m ≤ n := by
  rw [UInt64.le_iff_toNat_le, toNat_ofNat_of_lt hm, toNat_ofNat_of_lt hn]

/-- A byte is a word of its own. -/
theorem Decode.byte_eq : Decode.byte = do
    let word ← Decode.word .bits8 .little
    return UInt8.ofBitVec word := by
  funext state
  change Decode.byte.run state = (Decode.word .bits8 .little >>= _).run state
  rw [EStateM.run_bind, Decode.word, EStateM.run_bind]
  rcases Nat.lt_or_ge state.cursor.pos state.cursor.data.size with hlt | hle
  · have hone : WordSize.bits8.bytes ≤ state.cursor.remaining := by
      have := state.cursor.pos_add_remaining
      change 1 ≤ _
      omega
    rw [Decode.run_byte_of_lt hlt, Decode.run_take_of_le hone]
    have hextract := ByteArray.extract_add_one (a := state.cursor.data) (i := state.cursor.pos) hlt
    have hvalue : UInt8.ofBitVec (Word.ofBytes .bits8 .little
        (state.cursor.data.extract state.cursor.pos (state.cursor.pos + 1)).data.toList) =
        state.cursor.data[state.cursor.pos] := by
      rw [hextract, ← UInt8.toNat_inj]
      exact Word.toNat_ofBytes .little (Nat.le_refl 1)
    exact congrArg (EStateM.Result.ok · _) hvalue.symm
  · have hnone : state.cursor.remaining < WordSize.bits8.bytes := by
      have := state.cursor.pos_add_remaining
      change _ < 1
      omega
    rw [Decode.run_byte_of_le hle, Decode.run_take_of_lt hnone]
    rfl

/-- A length is an integer of the width and in the order of the chunk. -/
theorem Decode.uint_eq (format : ChunkFormat) :
    Decode.uint format.width.bytes format.order = do
      let length ← LengthInt.decode format
      return length.value := by
  funext state
  change (Decode.uint format.width.bytes format.order).run state = (_ >>= _ : Decode Nat).run state
  rw [Decode.uint, Width.ofNat_bytes, EStateM.run_bind]
  change (Decode.take format.width.bytes >>= _).run state = _
  rw [EStateM.run_bind, EStateM.run_bind]
  rcases Nat.lt_or_ge state.cursor.remaining format.width.bytes with hlt | hle
  · rw [Decode.run_take_of_lt hlt, LengthInt.run_decode_of_lt hlt]
  · rw [Decode.run_take_of_le hle]
    simp only [LengthInt.decode, Decode.onCursor, EStateM.run, hle, dif_pos]
    rfl

namespace WordDecode

section Steps

variable {state : DecodeState} {count : UInt64}

/-- What is left is a difference that is a word, since the cursor is in its data. -/
theorem run_remaining (hsize : state.cursor.data.size < byteLimit 8) :
    remaining.run (InWords.inWords state) =
      .ok (UInt64.ofNat state.cursor.remaining) (InWords.inWords state) := by
  have hpos := state.cursor.pos_le
  have hword : UInt64.ofNat state.cursor.pos ≤ UInt64.ofNat state.cursor.data.size :=
    (ofNat_le_ofNat (Nat.lt_of_le_of_lt hpos hsize) hsize).mpr hpos
  have hsub := UInt64.ofNat_sub hpos
  change EStateM.Result.ok (if UInt64.ofNat state.cursor.pos ≤ UInt64.ofNat state.cursor.data.size
    then _ else _) _ = _
  rw [if_pos hword, Cursor.remaining, hsub]
  rfl

theorem toNat_remaining (hsize : state.cursor.data.size < byteLimit 8) :
    (UInt64.ofNat state.cursor.remaining).toNat = state.cursor.remaining :=
  toNat_ofNat_of_lt (Nat.lt_of_le_of_lt (Nat.sub_le _ _) hsize)

theorem run_ensure_of_le (hsize : state.cursor.data.size < byteLimit 8)
    (h : count.toNat ≤ state.cursor.remaining) :
    (ensure count).run (InWords.inWords state) = .ok () (InWords.inWords state) := by
  have hnot : ¬UInt64.ofNat state.cursor.remaining < count := by
    rw [UInt64.lt_iff_toNat_lt, toNat_remaining hsize]
    omega
  rw [ensure, EStateM.run_bind, run_remaining hsize]
  simp only [if_neg hnot]
  rfl

theorem run_ensure_of_lt (hsize : state.cursor.data.size < byteLimit 8)
    (h : state.cursor.remaining < count.toNat) :
    (ensure count).run (InWords.inWords state) =
      .error (.fault (.truncated count.toNat state.cursor.remaining)) (InWords.inWords state) := by
  have hlt : UInt64.ofNat state.cursor.remaining < count := by
    rw [UInt64.lt_iff_toNat_lt, toNat_remaining hsize]
    exact h
  rw [ensure, EStateM.run_bind, run_remaining hsize]
  simp only [if_pos hlt, toNat_remaining hsize]
  rfl

/-- Where the bytes are there, neither the sum nor the range behind the check can go wrong. -/
theorem run_add_pos (hsize : state.cursor.data.size < byteLimit 8)
    (h : count.toNat ≤ state.cursor.remaining) :
    (add (UInt64.ofNat state.cursor.pos) count).run (InWords.inWords state) =
      .ok (UInt64.ofNat (state.cursor.pos + count.toNat)) (InWords.inWords state) := by
  -- the sum is a position of the data, whose size is a word
  have htotal := state.cursor.pos_add_remaining
  have hpos : (UInt64.ofNat state.cursor.pos).toNat = state.cursor.pos :=
    toNat_ofNat_of_lt (by omega)
  have hsum : (UInt64.ofNat state.cursor.pos).toNat + count.toNat < byteLimit 8 := by omega
  rw [add, if_pos hsum, UInt64.ofNat_add, UInt64.ofNat_toNat]
  rfl

theorem run_slice {start stop : Nat} (hsize : state.cursor.data.size < byteLimit 8)
    (hstart : start ≤ stop) (hstop : stop ≤ state.cursor.data.size) :
    (slice (UInt64.ofNat start) (UInt64.ofNat stop)).run (InWords.inWords state) =
      .ok (state.cursor.data.extract start stop) (InWords.inWords state) := by
  have hstop' : stop < byteLimit 8 := Nat.lt_of_le_of_lt hstop hsize
  have hstart' : start < byteLimit 8 := Nat.lt_of_le_of_lt hstart hstop'
  have hrange : UInt64.ofNat start ≤ UInt64.ofNat stop ∧
      UInt64.ofNat stop ≤ UInt64.ofNat state.cursor.data.size :=
    ⟨(ofNat_le_ofNat hstart' hstop').mpr hstart, (ofNat_le_ofNat hstop' hsize).mpr hstop⟩
  change (if UInt64.ofNat start ≤ UInt64.ofNat stop ∧
      UInt64.ofNat stop ≤ UInt64.ofNat state.cursor.data.size then
        pure (state.cursor.data.extract (UInt64.ofNat start).toNat (UInt64.ofNat stop).toNat)
      else throw .outOfRange : WordDecode ByteArray).run (InWords.inWords state) = _
  rw [if_pos hrange, toNat_ofNat_of_lt hstart', toNat_ofNat_of_lt hstop', EStateM.run_pure]

theorem run_ahead_of_le (hsize : state.cursor.data.size < byteLimit 8)
    (h : count.toNat ≤ state.cursor.remaining) :
    (ahead count).run (InWords.inWords state) =
      .ok (state.cursor.data.extract state.cursor.pos (state.cursor.pos + count.toNat),
        UInt64.ofNat (state.cursor.pos + count.toNat)) (InWords.inWords state) := by
  have htotal := state.cursor.pos_add_remaining
  rw [ahead, EStateM.run_bind, run_ensure_of_le hsize h]
  change (add (UInt64.ofNat state.cursor.pos) count >>= _).run (InWords.inWords state) = _
  rw [EStateM.run_bind, run_add_pos hsize h]
  change (slice (UInt64.ofNat state.cursor.pos) _ >>= _).run (InWords.inWords state) = _
  rw [EStateM.run_bind, run_slice hsize (Nat.le_add_right _ _) (by omega)]
  rfl

theorem run_ahead_of_lt (hsize : state.cursor.data.size < byteLimit 8)
    (h : state.cursor.remaining < count.toNat) :
    (ahead count).run (InWords.inWords state) =
      .error (.fault (.truncated count.toNat state.cursor.remaining)) (InWords.inWords state) := by
  rw [ahead, EStateM.run_bind, run_ensure_of_lt hsize h]

theorem run_advance (hsize : state.cursor.data.size < byteLimit 8)
    (h : count.toNat ≤ state.cursor.remaining) :
    (advance count).run (InWords.inWords state) =
      .ok () (InWords.inWords { state with cursor := state.cursor.advance count.toNat h }) := by
  change (add (UInt64.ofNat state.cursor.pos) count >>= _).run (InWords.inWords state) = _
  rw [EStateM.run_bind, run_add_pos hsize h]
  rfl

end Steps

/-- The state behind bytes that are there, in both forms. -/
theorem agrees_advance {state : DecodeState} {count : UInt64} {α β : Type} {R : β → α → Prop}
    {word : β} {value : α} (h : R word value)
    (hcount : count.toNat ≤ state.cursor.remaining) :
    Agrees R state.cursor.data
      (.ok word (InWords.inWords { state with cursor := state.cursor.advance count.toNat hcount }))
      (.ok value { state with cursor := state.cursor.advance count.toNat hcount }) :=
  .ok h rfl

theorem refines_seek {pos : Nat} (h : pos < byteLimit 8) :
    Refines Eq (seek (UInt64.ofNat pos)) (Decode.seek pos) := by
  intro state (hsize : state.cursor.data.size < byteLimit 8)
  have hlt : UInt64.ofNat state.cursor.data.size < UInt64.ofNat pos ↔
      state.cursor.data.size < pos := by
    rw [UInt64.lt_iff_toNat_lt, toNat_ofNat_of_lt hsize, toNat_ofNat_of_lt h]
  change Agrees Eq _ ((if UInt64.ofNat state.cursor.data.size < UInt64.ofNat pos then
    throw (.fault .outOfBounds) else moveTo (UInt64.ofNat pos) : WordDecode Unit).run _) _
  rcases Nat.lt_or_ge state.cursor.data.size pos with hbeyond | hle
  · rw [if_pos (hlt.mpr hbeyond), Decode.run_seek_of_lt hbeyond]
    exact .error rfl
  · rw [if_neg (mt hlt.mp (Nat.not_lt.mpr hle)), Decode.run_seek_of_le hle]
    change Agrees Eq _ (.ok _ (InWords.inWords { state with cursor := ⟨_, pos, hle⟩ })) _
    exact .ok rfl rfl

theorem refines_ensure (needed : UInt64) :
    Refines Eq (ensure needed) (Decode.ensure needed.toNat) := by
  intro state (hsize : state.cursor.data.size < byteLimit 8)
  rcases Nat.lt_or_ge state.cursor.remaining needed.toNat with hlt | hle
  · rw [run_ensure_of_lt hsize hlt, Decode.run_ensure_of_lt hlt]
    exact .error rfl
  · rw [run_ensure_of_le hsize hle, Decode.run_ensure_of_le hle]
    exact .ok rfl rfl

theorem refines_take (count : UInt64) :
    Refines Eq (take count) (Decode.take count.toNat) := by
  intro state (hsize : state.cursor.data.size < byteLimit 8)
  rcases Nat.lt_or_ge state.cursor.remaining count.toNat with hlt | hle
  · rw [take, EStateM.run_bind, run_ahead_of_lt hsize hlt, Decode.run_take_of_lt hlt]
    exact .error rfl
  · rw [take, EStateM.run_bind, run_ahead_of_le hsize hle, Decode.run_take_of_le hle]
    exact agrees_advance rfl hle

theorem refines_word (size : WordSize) (order : ByteOrder) :
    Refines Eq (word size order) (Decode.word size order) := by
  intro state (hsize : state.cursor.data.size < byteLimit 8)
  have hcount : (UInt64.ofNat size.bytes).toNat = size.bytes := by cases size <;> rfl
  have htake : Decode.take size.bytes = Decode.take (UInt64.ofNat size.bytes).toNat := by
    rw [hcount]
  rw [word, Decode.word, EStateM.run_bind, EStateM.run_bind, htake]
  rcases Nat.lt_or_ge state.cursor.remaining (UInt64.ofNat size.bytes).toNat with hlt | hle
  · rw [run_ahead_of_lt hsize hlt, Decode.run_take_of_lt hlt, hcount]
    exact .error rfl
  · -- the second check of the size finds what the first has made sure of
    have hbytes := (Cursor.size_extract_of_le hle).trans hcount
    rw [run_ahead_of_le hsize hle, Decode.run_take_of_le hle]
    simp only [hbytes, if_true]
    rw [EStateM.run_bind, run_advance hsize hle]
    exact agrees_advance rfl hle

theorem refines_uint (width : UInt64) (order : ByteOrder) :
    Refines (fun word value => word.toNat = value) (uint width order)
      (Decode.uint width.toNat order) := by
  intro state (hsize : state.cursor.data.size < byteLimit 8)
  by_cases hwidth : 1 ≤ width ∧ width ≤ 8
  · have hrange : 1 ≤ width.toNat ∧ width.toNat ≤ 8 := hwidth
    rw [uint, if_pos hwidth, EStateM.run_bind]
    rcases Nat.lt_or_ge state.cursor.remaining width.toNat with hlt | hle
    · rw [run_ahead_of_lt hsize hlt, Decode.run_uint_of_lt order hrange hlt]
      exact .error rfl
    · have hbytes := Cursor.size_extract_of_le hle
      rw [run_ahead_of_le hsize hle, Decode.run_uint_of_le order hrange hle]
      change Agrees _ _ ((advance width >>= _).run _) _
      rw [EStateM.run_bind, run_advance hsize hle]
      refine agrees_advance ?_ hle
      refine Word.toNat_ofBytes order ?_
      rw [Array.length_toList]
      exact Nat.le_trans (Nat.le_of_eq hbytes) hrange.2
  · have hrange : ¬(1 ≤ width.toNat ∧ width.toNat ≤ 8) := hwidth
    rw [uint, if_neg hwidth, Decode.run_uint_of_unsupported order hrange]
    exact .error rfl

theorem refines_byte : Refines Eq byte Decode.byte := by
  rw [Decode.byte_eq]
  refine (refines_word .bits8 .little).bind ?_
  rintro word _ rfl
  exact refines_pure rfl

theorem refines_length (format : ChunkFormat) :
    Refines (fun word length => word.toNat = length.value) (length format)
      (LengthInt.decode format) := by
  have hlt : format.width.bytes < byteLimit 8 :=
    Nat.lt_of_le_of_lt format.width.le_eight (by decide)
  have huint := refines_uint (UInt64.ofNat format.width.bytes) format.order
  rw [toNat_ofNat_of_lt hlt, Decode.uint_eq] at huint
  exact huint.of_map

/-! ### The scratch buffer, the log and going back -/

theorem refines_changeKept (change : ByteArray → ByteArray) :
    Refines Eq (changeKept change) (Decode.changeKept change) :=
  fun state _ => (Agrees.ok rfl rfl : Agrees Eq _ _
    (.ok () { state with scratch := change state.scratch }))

theorem refines_kept : Refines Eq kept Decode.kept :=
  fun state _ => (Agrees.ok rfl rfl : Agrees Eq _ _ (.ok state.scratch state))

/-- Logging does nothing in words. -/
theorem refines_note (line : LogLine) :
    Refines Eq (pure () : WordDecode Unit) (Decode.note line) :=
  fun state _ => (Agrees.ok rfl rfl : Agrees Eq _ _
    (.ok () { state with log := state.log.push line }))

/-- **A transaction goes back in words as it does in numbers**, and it never hides that its
computation stopped for another reason than a fault. -/
theorem refines_transaction {α β : Type} {R : β → α → Prop} {words : WordDecode β}
    {action : Decode α} (h : Refines R words action) :
    Refines R (transaction words) (Decode.transaction action) := by
  intro state hsize
  have hinner := h state hsize
  change Agrees R _ (match words.run (InWords.inWords state) with
    | .ok result after => .ok result after
    | .error (.fault fault) after => .error (.fault fault) { after with pos := _ }
    | .error halt after => .error halt after) _
  generalize words.run (InWords.inWords state) = left at hinner ⊢
  rcases hrun : action.run state with ⟨value, after⟩ | ⟨fault, after⟩
  · rw [hrun] at hinner
    rw [Decode.run_transaction_of_ok hrun]
    cases hinner with
    | ok hvalue hdata => exact .ok hvalue hdata
  · rw [hrun] at hinner
    rw [Decode.run_transaction_of_error hrun]
    cases hinner with
    | error hdata =>
      -- the data that the position goes back in is the data that was there
      have hback : WordState.mk after.cursor.data (UInt64.ofNat state.cursor.pos) after.scratch =
          InWords.inWords { after with cursor := state.cursor } :=
        congrArg (WordState.mk · _ _) hdata
      change Agrees R _ (.error (.fault fault)
        (WordState.mk after.cursor.data (UInt64.ofNat state.cursor.pos) after.scratch)) _
      rw [hback]
      exact .error rfl

end WordDecode

end ChunkStrings
