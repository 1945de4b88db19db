import ChunkStrings.Proofs.Tracing

/-!
# Reading several records, and reading them one after another

Reading several records at once is a transaction around single reads, which are transactions
themselves. What it comes to is told here by the calls of `RecordReader.read` that one would make
instead, one after another, each from where the one before it has left off
(`RecordReader.calls`): such a row of calls goes on after a failure, and a call that fails leaves
the cursor in front of the record that it failed on.

If all the calls succeed, reading at once comes to their results and ends where the last of them
does; if not, it fails with the fault of the first that fails, and the cursor is back where the
first began. Since a row of calls is one row and then another (`RecordReader.calls_add`), so is
reading at once. And none of it depends on what the reader was used for before: of that, only
the scratch buffer and the log are left.
-/

namespace ChunkStrings

/-- In a list of outcomes, either all are results, or there is one that is the first fault. -/
theorem exists_results_or_fault {ε α : Type} (outcomes : List (Except ε α)) :
    (∃ values : List α, outcomes = values.map .ok) ∨
      ∃ (values : List α) (fault : ε) (later : List (Except ε α)),
        outcomes = values.map .ok ++ .error fault :: later := by
  induction outcomes with
  | nil => exact .inl ⟨[], rfl⟩
  | cons outcome outcomes ih =>
    cases outcome with
    | error fault => exact .inr ⟨[], fault, outcomes, rfl⟩
    | ok value =>
      obtain ⟨values, rfl⟩ | ⟨values, fault, later, rfl⟩ := ih
      · exact .inl ⟨value :: values, rfl⟩
      · exact .inr ⟨value :: values, fault, later, rfl⟩

namespace RecordReader

/-! ### Calls in a row -/

/-- Calls `read` so many times, each time from where the call before it has left off, and also
after a call that failed. -/
def calls (reader : RecordReader) :
    (count : Nat) → DecodeState → List (Except Fault StringConst) × DecodeState
  | 0, state => ([], state)
  | count + 1, state =>
    let (result, between) := reader.read.attempt state
    let (results, after) := reader.calls count between
    (result :: results, after)

variable {reader : RecordReader} {before after between : DecodeState} {constant : StringConst}
  {fault : Fault}

theorem calls_of_ok (count : Nat) (h : reader.read.run before = .ok constant between) :
    reader.calls (count + 1) before =
      (.ok constant :: (reader.calls count between).1, (reader.calls count between).2) := by
  rw [calls, Decode.attempt, h]

theorem calls_of_error (count : Nat) (h : reader.read.run before = .error fault between) :
    reader.calls (count + 1) before =
      (.error fault :: (reader.calls count between).1, (reader.calls count between).2) := by
  rw [calls, Decode.attempt, h]

/-- **A row of calls is one row and then another.** -/
theorem calls_add (a b : Nat) (before : DecodeState) :
    reader.calls (a + b) before =
      ((reader.calls a before).1 ++ (reader.calls b (reader.calls a before).2).1,
        (reader.calls b (reader.calls a before).2).2) := by
  induction a generalizing before with
  | zero => rw [Nat.zero_add, calls, List.nil_append]
  | succ a ih =>
    rw [Nat.add_right_comm]
    rcases hrun : reader.read.run before with ⟨constant, between⟩ | ⟨fault, between⟩
    · rw [calls_of_ok _ hrun, calls_of_ok _ hrun, ih, List.cons_append]
    · rw [calls_of_error _ hrun, calls_of_error _ hrun, ih, List.cons_append]

theorem length_calls (count : Nat) (before : DecodeState) :
    (reader.calls count before).1.length = count := by
  induction count generalizing before with
  | zero => rfl
  | succ count ih => exact congrArg (· + 1) (ih _)

/-! ### Reading at once -/

/-- **Reading so many records succeeds exactly if all the calls do**, and comes to their results.
The induction is on the number of records, with the state left general: the other calls go on
from where the first has left off. -/
theorem run_readOnto_eq_ok_iff {count : Nat} {earlier constants : Array StringConst} :
    (reader.readOnto count earlier).run before = .ok constants after ↔
      ∃ values : List StringConst, reader.calls count before = (values.map .ok, after) ∧
        constants = earlier ++ values := by
  induction count generalizing earlier before with
  | zero =>
    rw [readOnto, Decode.run_pure_eq_ok, calls]
    constructor
    · rintro ⟨rfl, rfl⟩
      exact ⟨[], rfl, by simp⟩
    · rintro ⟨values, hcalls, rfl⟩
      obtain ⟨hvalues, rfl⟩ := Prod.mk.inj hcalls
      obtain rfl := List.map_eq_nil_iff.mp hvalues.symm
      exact ⟨by simp, rfl⟩
  | succ count ih =>
    rcases hrun : reader.read.run before with ⟨constant, between⟩ | ⟨fault, between⟩
    · rw [readOnto, EStateM.run_bind, hrun, calls_of_ok count hrun]
      refine ih.trans ⟨?_, ?_⟩
      · rintro ⟨values, hcalls, rfl⟩
        exact ⟨constant :: values, by rw [hcalls, List.map_cons], Array.ext' (by simp)⟩
      · rintro ⟨values, hcalls, rfl⟩
        obtain ⟨hvalues, rfl⟩ := Prod.mk.inj hcalls
        cases values with
        | nil => cases hvalues
        | cons value values =>
          obtain ⟨hvalue, hrest⟩ := List.cons.inj hvalues
          cases hvalue
          exact ⟨values, Prod.ext hrest rfl, Array.ext' (by simp)⟩
    · rw [readOnto, EStateM.run_bind, hrun, calls_of_error count hrun]
      constructor
      · intro h
        cases h
      · rintro ⟨values, hcalls, -⟩
        cases values <;> cases (Prod.mk.inj hcalls).1

theorem run_readN_eq_ok_iff {count : Nat} {constants : Array StringConst} :
    (reader.readN count).run before = .ok constants after ↔
      reader.calls count before = (constants.toList.map .ok, after) := by
  rw [readN, Decode.run_transaction_eq_ok, run_readOnto_eq_ok_iff]
  constructor
  · rintro ⟨values, hcalls, rfl⟩
    rw [hcalls]
    simp
  · exact fun h => ⟨constants.toList, h, by simp⟩

/-- **What can be read at once can be read in two parts**, and what can be read in two parts at
once. -/
theorem run_readN_add_eq_ok_iff {a b : Nat} {constants : Array StringConst} :
    (reader.readN (a + b)).run before = .ok constants after ↔
      ∃ first between second, (reader.readN a).run before = .ok first between ∧
        (reader.readN b).run between = .ok second after ∧ constants = first ++ second := by
  simp only [run_readN_eq_ok_iff, calls_add]
  constructor
  · intro h
    obtain ⟨hresults, rfl⟩ := Prod.mk.inj h
    obtain ⟨first, second, hconstants, hfirst, hsecond⟩ :=
      List.map_eq_append_iff.mp hresults.symm
    refine ⟨first.toArray, (reader.calls a before).2, second.toArray, ?_, ?_, ?_⟩
    · exact Prod.ext hfirst.symm rfl
    · exact Prod.ext hsecond.symm rfl
    · exact Array.ext' (by simpa using hconstants)
  · rintro ⟨first, between, second, hfirst, hsecond, rfl⟩
    rw [hfirst, hsecond]
    simp

/-- **The first call that fails ends the loop.** The calls in front of it have brought the reader
to the state in which it fails. -/
theorem exists_run_readOnto_of_calls {count : Nat} {values : List StringConst}
    {later : List (Except Fault StringConst)} (earlier : Array StringConst)
    (h : (reader.calls count before).1 = values.map .ok ++ .error fault :: later) :
    ∃ between last, reader.calls values.length before = (values.map .ok, between) ∧
      reader.read.run between = .error fault last ∧
      (reader.readOnto count earlier).run before = .error fault last := by
  induction count generalizing values earlier before with
  | zero =>
    have hlength := congrArg List.length h
    simp [calls] at hlength
  | succ count ih =>
    rcases hrun : reader.read.run before with ⟨constant, between⟩ | ⟨fault', last⟩
    · rw [calls_of_ok count hrun] at h
      cases values with
      | nil => cases (List.cons.inj h).1
      | cons value values =>
        obtain ⟨hvalue, hrest⟩ := List.cons.inj h
        cases hvalue
        obtain ⟨state, last, hcalls, hread, hloop⟩ := ih (earlier.push constant) hrest
        refine ⟨state, last, ?_, hread, ?_⟩
        · rw [List.length_cons, calls_of_ok _ hrun, hcalls, List.map_cons]
        · rw [readOnto, EStateM.run_bind, hrun]
          exact hloop
    · rw [calls_of_error count hrun] at h
      cases values with
      | cons value values => cases (List.cons.inj h).1
      | nil =>
        cases (List.cons.inj h).1
        refine ⟨before, last, rfl, hrun, ?_⟩
        rw [readOnto, EStateM.run_bind, hrun]

/-- **Reading at once fails as the first call that does**, but with the cursor where it was; up to
that call, it succeeds. -/
theorem exists_run_readN_of_calls {count : Nat} {values : List StringConst}
    {later : List (Except Fault StringConst)}
    (h : (reader.calls count before).1 = values.map .ok ++ .error fault :: later) :
    ∃ between last, (reader.readN values.length).run before = .ok values.toArray between ∧
      reader.read.run between = .error fault last ∧
      (reader.readN count).run before = .error fault { last with cursor := before.cursor } := by
  obtain ⟨between, last, hcalls, hread, hloop⟩ := exists_run_readOnto_of_calls #[] h
  exact ⟨between, last, run_readN_eq_ok_iff.mpr hcalls, hread,
    Decode.run_transaction_of_error hloop⟩

/-- Where reading at once fails, there is a call that does. -/
theorem exists_calls_of_readN {count : Nat}
    (h : (reader.readN count).run before = .error fault after) :
    ∃ (values : List StringConst) (later : List (Except Fault StringConst)),
      (reader.calls count before).1 = values.map .ok ++ .error fault :: later := by
  obtain ⟨values, hvalues⟩ | ⟨values, fault', later, hlater⟩ :=
    exists_results_or_fault (reader.calls count before).1
  · -- if all calls succeeded, reading at once would
    have hok := run_readN_eq_ok_iff.mpr (Prod.ext hvalues rfl :
      reader.calls count before = (values.toArray.toList.map .ok, _))
    rw [h] at hok
    cases hok
  · obtain ⟨between, last, -, -, herror⟩ := exists_run_readN_of_calls hlater
    rw [h] at herror
    cases herror
    exact ⟨values, later, hlater⟩

/-- Of records that can be read one after another, the first ones can be read at once. -/
theorem exists_run_readN_of_le_length {values : List StringConst} {between : DecodeState}
    {count : Nat} (hcalls : reader.calls values.length before = (values.map .ok, between))
    (hcount : count ≤ values.length) :
    ∃ state, (reader.readN count).run before = .ok (values.take count).toArray state := by
  obtain ⟨more, hmore⟩ := Nat.exists_eq_add_of_le hcount
  rw [hmore, calls_add, Prod.mk.injEq] at hcalls
  refine ⟨(reader.calls count before).2, run_readN_eq_ok_iff.mpr (Prod.ext ?_ rfl)⟩
  rw [List.map_take, ← hcalls.1]
  exact (List.take_left' (length_calls count before)).symm

/-- **More records than can be read one after another cannot be read at once**: the read behind the
last of them fails, and the cursor goes back. -/
theorem run_readN_of_length_lt {values : List StringConst} {between : DecodeState} {count : Nat}
    (hcalls : reader.calls values.length before = (values.map .ok, between))
    (hread : reader.read.run between = .error fault after) (hcount : values.length < count) :
    (reader.readN count).run before = .error fault { after with cursor := before.cursor } := by
  obtain ⟨more, rfl⟩ := Nat.exists_eq_add_of_lt hcount
  have hrow : (reader.calls (values.length + (more + 1)) before).1 =
      values.map .ok ++ .error fault :: (reader.calls more after).1 := by
    rw [calls_add, hcalls, calls_of_error more hread]
  obtain ⟨between', last, hok, hread', herror⟩ := exists_run_readN_of_calls hrow
  -- the calls in front of the failure are those that are known
  have hbetween := run_readN_eq_ok_iff.mp hok
  rw [hcalls, Prod.mk.injEq] at hbetween
  obtain ⟨-, rfl⟩ := hbetween
  rw [hread, EStateM.Result.error.injEq] at hread'
  obtain ⟨-, rfl⟩ := hread'
  exact herror

/-! ### What was read before -/

theorem alike_read (reader : RecordReader) : Decode.Alike reader.read reader.read :=
  reader.layout.alike_decodeTraced_self reader.format

/-- Reading several records at once depends on the cursor alone. -/
theorem alike_readN_self (reader : RecordReader) (count : Nat) :
    Decode.Alike (reader.readN count) (reader.readN count) :=
  alike_readN reader.layout reader.format reader.format.traced count

/-- **A row of calls comes to the same from the same cursor**, and leaves off at the same. -/
theorem calls_alike {count : Nat} {before before' : DecodeState}
    (hcursor : before.cursor = before'.cursor) :
    (reader.calls count before).1 = (reader.calls count before').1 ∧
      (reader.calls count before).2.cursor = (reader.calls count before').2.cursor := by
  induction count generalizing before before' with
  | zero => exact ⟨rfl, hcursor⟩
  | succ count ih =>
    have hread := reader.alike_read before before' hcursor
    obtain ⟨hresult, hbetween⟩ := Prod.mk.inj hread
    obtain ⟨hresults, hlast⟩ := ih hbetween
    exact ⟨congrArg₂ List.cons hresult hresults, hlast⟩

/-- **A call of a reader**: at some place of some data, for the next record or for so many. -/
inductive Call where
  /-- For the next record. -/
  | one (cursor : Cursor)
  /-- For so many records. -/
  | several (cursor : Cursor) (count : Nat)

/-- The state that a call leaves behind, be it that it succeeds or fails. -/
def Call.perform (reader : RecordReader) (state : DecodeState) : Call → DecodeState
  | one cursor => (reader.read.attempt { state with cursor }).2
  | several cursor count => ((reader.readN count).attempt { state with cursor }).2

/-- The state in which a reader comes to a cursor, after it was called for all these. -/
def used (reader : RecordReader) (earlier : List Call) (cursor : Cursor) : DecodeState :=
  { earlier.foldl (Call.perform reader) ⟨cursor, .empty, #[]⟩ with cursor }

/-! ### What it all comes to -/

/-- **Reading several records at once is reading them one after another, all or none.** Reading
`a + b` records succeeds exactly if `a` of them can be read, and then `b` from where these end;
it comes to the same records in the same state. So many records are read at once exactly if as
many calls in a row succeed, and then to the same effect. It fails exactly if one of the calls
does, with the fault of the first of them; all records in front of that one could have been read
at once, and the state is the one in which that call fails, but that the cursor is where the
first record begins. No earlier calls of the reader, whether they succeeded or failed, change what
any of this comes to. -/
theorem readN_iterates (reader : RecordReader) (before : DecodeState) :
    -- one row of records, and two
    (∀ a b constants after, (reader.readN (a + b)).run before = .ok constants after ↔
      ∃ first between second, (reader.readN a).run before = .ok first between ∧
        (reader.readN b).run between = .ok second after ∧ constants = first ++ second) ∧
    -- one call after another
    (∀ count constants after, (reader.readN count).run before = .ok constants after ↔
      reader.calls count before = (constants.toList.map .ok, after)) ∧
    -- the first call that fails
    (∀ count fault, (∃ after, (reader.readN count).run before = .error fault after) ↔
      ∃ (values : List StringConst) (later : List (Except Fault StringConst)),
        (reader.calls count before).1 = values.map .ok ++ .error fault :: later) ∧
    (∀ count (values : List StringConst) fault later,
      (reader.calls count before).1 = values.map .ok ++ .error fault :: later →
      values.length < count ∧ ∃ between last,
        (reader.readN values.length).run before = .ok values.toArray between ∧
        reader.read.run between = .error fault last ∧
        (reader.readN count).run before = .error fault { last with cursor := before.cursor }) ∧
    -- what was read before
    ∀ earlier count,
      let state := reader.used earlier before.cursor
      reader.read.outcome state = reader.read.outcome before ∧
      (reader.readN count).outcome state = (reader.readN count).outcome before ∧
      (reader.calls count state).1 = (reader.calls count before).1 ∧
      (reader.calls count state).2.cursor = (reader.calls count before).2.cursor := by
  refine ⟨fun _ _ _ _ => run_readN_add_eq_ok_iff, fun _ _ _ => run_readN_eq_ok_iff,
    fun count fault => ⟨?_, ?_⟩, ?_, fun earlier count => ?_⟩
  · rintro ⟨after, hrun⟩
    exact exists_calls_of_readN hrun
  · rintro ⟨values, later, h⟩
    obtain ⟨between, last, -, -, herror⟩ := exists_run_readN_of_calls h
    exact ⟨_, herror⟩
  · intro count values fault later h
    have hlength := congrArg List.length h
    rw [length_calls, List.length_append, List.length_map, List.length_cons] at hlength
    exact ⟨by omega, exists_run_readN_of_calls h⟩
  · exact ⟨reader.alike_read _ _ rfl, reader.alike_readN_self count _ _ rfl, calls_alike rfl⟩

/-- Two compact records, and a third of which two bytes are lacking. Of four calls, the third and
the fourth fail. -/
theorem readN_iterates_compact :
    let reader : RecordReader := ⟨.compact, 0x53, ⟨2, by decide, by decide⟩, .little, true⟩
    let before : DecodeState := ⟨.start [2, 0x61, 0, 0, 4, 1, 2].toByteArray, [9].toByteArray, #[]⟩
    let values : List StringConst := [.ofBytes [0x61, 1].toByteArray, .null]
    (reader.calls 4 before).1 =
        values.map .ok ++ .error (.truncated 4 2) :: [.error (.truncated 4 2)] ∧
      ∃ last : DecodeState, (reader.readN 4).run before =
        .error (.truncated 4 2) { last with cursor := before.cursor } := by
  intro reader before values
  have hcalls : (reader.calls 4 before).1 =
      values.map .ok ++ .error (.truncated 4 2) :: [.error (.truncated 4 2)] := by decide +kernel
  obtain ⟨-, -, -, hfails, -⟩ := readN_iterates reader before
  obtain ⟨-, between, last, -, -, herror⟩ := hfails 4 values (.truncated 4 2) _ hcalls
  exact ⟨hcalls, last, herror⟩

end RecordReader

end ChunkStrings
