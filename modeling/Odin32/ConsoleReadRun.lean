import Odin32.ConsoleRead
import Odin32.ConsoleInputRun

/-! # What a read from the console stores

As long as the records popped fit, the bytes stored are the text typed, and the loop flag tells
whether the line is finished. A record that does not fit shows in the state behind its pop: a
key is read behind the end of the line, a byte is stored behind the buffer, or a CR is missing
in the text. -/

set_option autoImplicit false

namespace Odin32.ConsoleRead

open ConsoleInput (Record RingOk Call)

/-! ## The text -/

variable {r : Reader} {text : List ℕ} {c : ℕ} {record : Record}

/-- The bytes stored up to the counter. -/
def Reader.bytes (r : Reader) : List ℕ := (List.range r.ulCounter).map r.lpBuffer

theorem length_bytes : r.bytes.length = r.ulCounter := by
  rw [Reader.bytes, List.length_map, List.length_range]

theorem bytes_store (byte : ℕ) : (r.store byte).bytes = r.bytes ++ [byte] := by
  have kept : (List.range r.ulCounter).map (Function.update r.lpBuffer r.ulCounter byte) =
      (List.range r.ulCounter).map r.lpBuffer := by
    refine List.map_congr_left fun i mem => Function.update_of_ne ?_ ..
    exact Nat.ne_of_lt (List.mem_range.mp mem)
  show (List.range (r.ulCounter + 1)).map (Function.update r.lpBuffer r.ulCounter byte) = _
  rw [List.range_succ, List.map_append, kept, List.map_singleton, Function.update_self]
  rfl

theorem bytes_back :
    (if 0 < r.ulCounter then { r with ulCounter := r.ulCounter - 1 } else r).bytes =
      r.bytes.dropLast := by
  by_cases some_byte : 0 < r.ulCounter
  · obtain ⟨k, counter⟩ := Nat.exists_eq_succ_of_ne_zero (Nat.ne_of_gt some_byte)
    rw [if_pos some_byte]
    show (List.range (r.ulCounter - 1)).map r.lpBuffer = _
    rw [Reader.bytes, counter, List.range_succ, List.map_append, List.map_singleton,
      List.dropLast_concat]
    rfl
  · have none : r.bytes = [] := by
      rw [Reader.bytes, Nat.eq_zero_of_not_pos some_byte]
      rfl
    rw [if_neg some_byte, none]
    rfl

theorem bytes_line (room : r.ulCounter < r.nNumberOfBytesToRead) :
    (if (r.store 0x0d).ulCounter < (r.store 0x0d).nNumberOfBytesToRead then
        (r.store 0x0d).store 0x0a else r.store 0x0d).bytes =
      (r.bytes ++ [0x0d, 0x0a]).take r.nNumberOfBytesToRead := by
  have length := length_bytes (r := r)
  by_cases both : r.ulCounter + 1 < r.nNumberOfBytesToRead
  · have both' : (r.store 0x0d).ulCounter < (r.store 0x0d).nNumberOfBytesToRead := both
    rw [if_pos both', bytes_store, bytes_store, List.append_assoc]
    refine (List.take_of_length_le ?_).symm
    rw [List.length_append, length]
    exact both
  · have one : r.nNumberOfBytesToRead = r.bytes.length + 1 := by omega
    have full : ¬ (r.store 0x0d).ulCounter < (r.store 0x0d).nNumberOfBytesToRead := both
    rw [if_neg full, bytes_store, one, List.take_length_add_append]
    rfl

/-- What `look` leaves alone. -/
structure SameText (r r' : Reader) : Prop where
  phase : r'.phase = r.phase
  mode : r'.dwConsoleMode = r.dwConsoleMode
  size : r'.nNumberOfBytesToRead = r.nNumberOfBytesToRead
  number : r'.number = r.number
  popped : r'.popped = r.popped
  buffer : r'.lpBuffer = r.lpBuffer
  counter : r'.ulCounter = r.ulCounter
  stores : r'.stores = r.stores

theorem look_same (ulEvents : ℕ) : SameText r (r.look ulEvents c) := by
  rw [Reader.look]
  split_ifs <;> exact ⟨rfl, rfl, rfl, rfl, rfl, rfl, rfl, rfl⟩

theorem SameText.bytes {r' : Reader} (same : SameText r r') : r'.bytes = r.bytes := by
  rw [Reader.bytes, Reader.bytes, same.counter, same.buffer]

/-- What a record changes besides the bytes. -/
structure SameCall (r r' : Reader) : Prop where
  phase : r'.phase = r.phase
  mode : r'.dwConsoleMode = r.dwConsoleMode
  size : r'.nNumberOfBytesToRead = r.nNumberOfBytesToRead
  number : r'.number = r.number
  popped : r'.popped = r.popped
  flag : r'.fLoop = r.fLoop

theorem record_same : SameCall r (r.record c) := by
  unfold Reader.record
  dsimp only
  split_ifs <;> exact ⟨rfl, rfl, rfl, rfl, rfl, rfl⟩

theorem record_bytes (down : isKeyDown record = true) (eq : asciiChar record = c)
    (room : Stores r.dwConsoleMode c → r.ulCounter < r.nNumberOfBytesToRead)
    (cr : processedInput r.dwConsoleMode = true → c = 0x0d →
      lineInput r.dwConsoleMode = true) :
    (r.record c).bytes = edit r.dwConsoleMode r.nNumberOfBytesToRead r.bytes record := by
  subst eq
  simp only [Reader.record, edit, down, Bool.true_eq_false, if_false]
  by_cases processed : processedInput r.dwConsoleMode = true
  · rw [if_pos processed, if_pos processed]
    by_cases shift : asciiChar record = 0x00 ∨ asciiChar record = 0x03
    · rw [if_pos shift, if_pos shift]
    · rw [if_neg shift, if_neg shift]
      by_cases back : asciiChar record = 0x08
      · rw [if_neg (by omega), if_pos back, if_pos back]
        exact bytes_back
      · rw [if_neg back, if_neg back]
        by_cases line : asciiChar record = 0x0d
        · have mode := cr processed line
          have both : asciiChar record = 0x0d ∧ lineInput r.dwConsoleMode = true := ⟨line, mode⟩
          rw [if_pos line, if_pos mode, if_pos both]
          exact bytes_line (room (Or.inr ⟨by omega, by omega, back, fun _ => mode⟩))
        · rw [if_neg line, if_neg fun both => line both.1]
          exact bytes_store _
  · rw [if_neg processed, if_neg processed]
    exact bytes_store _

theorem record_stores (room : Stores r.dwConsoleMode c → r.ulCounter < r.nNumberOfBytesToRead)
    (inside : ∀ i, i ∈ r.stores → i < r.nNumberOfBytesToRead) :
    ∀ i, i ∈ (r.record c).stores → i < r.nNumberOfBytesToRead := by
  have one : r.ulCounter < r.nNumberOfBytesToRead → ∀ byte i, i ∈ (r.store byte).stores →
      i < r.nNumberOfBytesToRead := fun lt byte i mem => by
    rcases List.mem_cons.mp mem with rfl | mem
    · exact lt
    · exact inside i mem
  rw [Reader.record]
  by_cases processed : processedInput r.dwConsoleMode = true
  · rw [if_pos processed]
    by_cases shift : c = 0x00 ∨ c = 0x03
    · rw [if_pos shift]
      exact inside
    · rw [if_neg shift]
      by_cases line : c = 0x0d
      · rw [if_pos line]
        by_cases mode : lineInput r.dwConsoleMode = true
        · have lt := room (Or.inr ⟨by omega, by omega, by omega, fun _ => mode⟩)
          rw [if_pos mode]
          show ∀ i, i ∈ (if (r.store 0x0d).ulCounter < (r.store 0x0d).nNumberOfBytesToRead then
            (r.store 0x0d).store 0x0a else r.store 0x0d).stores → _
          by_cases both : (r.store 0x0d).ulCounter < (r.store 0x0d).nNumberOfBytesToRead
          · rw [if_pos both]
            intro i mem
            rcases List.mem_cons.mp mem with rfl | mem
            · exact both
            · exact one lt _ i mem
          · rw [if_neg both]
            exact one lt _
        · rw [if_neg mode]
          exact inside
      · rw [if_neg line]
        by_cases back : c = 0x08
        · rw [if_pos back]
          split_ifs <;> exact inside
        · rw [if_neg back]
          exact one (room (Or.inr ⟨by omega, by omega, back, fun cr => absurd cr line⟩)) _
  · rw [if_neg processed]
    exact one (room (Or.inl (Bool.eq_false_iff.mpr processed))) _

/-! ## One record -/

theorem typing_append (mode : BitVec 32) (n : ℕ) (records : List Record) (record : Record) :
    typing mode n (records ++ [record]) = (typing mode n records).next mode n record := by
  rw [typing, List.foldl_append]
  rfl

/-- The reader against what was typed. -/
structure ReaderOk (r : Reader) : Prop where
  stores : ∀ i, i ∈ r.stores → i < r.nNumberOfBytesToRead
  text : r.bytes = r.typing.text
  flag : lineInput r.dwConsoleMode = true → r.number = none → r.fLoop = !r.typing.finished
  number : ∀ k, r.number = some k → k = r.typing.text.length ∧
    (lineInput r.dwConsoleMode = true → r.typing.finished = true)
  waits : lineInput r.dwConsoleMode = true → r.phase = .wait → r.typing.finished = false
  line : lineInput r.dwConsoleMode = true → ∀ before record after,
    r.popped = before ++ record :: after → isKey record = true →
    (ConsoleRead.typing r.dwConsoleMode r.nNumberOfBytesToRead before).finished = false
  calling : r.phase ≠ .idle → r.number = none

/-- The reader with one more record. -/
def Reader.read (r : Reader) (ulEvents : ℕ) (record : Record) : Reader :=
  { r.event ulEvents record with popped := r.popped ++ [record] }

/-- The steps in the body of a key that is pressed. -/
structure Pressed (r : Reader) (ulEvents : ℕ) (record : Record) (r' : Reader) : Prop where
  phase : r'.phase = r.phase
  mode : r'.dwConsoleMode = r.dwConsoleMode
  size : r'.nNumberOfBytesToRead = r.nNumberOfBytesToRead
  number : r'.number = r.number
  popped : r'.popped = r.popped ++ [record]
  bytes : r'.bytes = ((r.look ulEvents (asciiChar record)).record (asciiChar record)).bytes
  stores : r'.stores = ((r.look ulEvents (asciiChar record)).record (asciiChar record)).stores
  flag : r'.fLoop = if r.nNumberOfBytesToRead ≤
      ((r.look ulEvents (asciiChar record)).record (asciiChar record)).ulCounter then false
    else (r.look ulEvents (asciiChar record)).fLoop

theorem read_pressed (ulEvents : ℕ) (down : isKeyDown record = true) :
    Pressed r ulEvents record (r.read ulEvents record) := by
  have looked := look_same (r := r) (c := asciiChar record) ulEvents
  have recorded := record_same (r := r.look ulEvents (asciiChar record)) (c := asciiChar record)
  have size := recorded.size.trans looked.size
  rw [Reader.read, Reader.event, if_pos down]
  dsimp only
  by_cases full : ((r.look ulEvents (asciiChar record)).record
      (asciiChar record)).nNumberOfBytesToRead ≤
      ((r.look ulEvents (asciiChar record)).record (asciiChar record)).ulCounter
  · rw [if_pos full]
    exact ⟨recorded.phase.trans looked.phase, recorded.mode.trans looked.mode, size,
      recorded.number.trans looked.number, rfl, rfl, rfl, (if_pos (size ▸ full)).symm⟩
  · rw [if_neg full]
    exact ⟨recorded.phase.trans looked.phase, recorded.mode.trans looked.mode, size,
      recorded.number.trans looked.number, rfl, rfl, rfl,
      recorded.flag.trans (if_neg (size ▸ full)).symm⟩

theorem typing_read {r' : Reader} (mode : r'.dwConsoleMode = r.dwConsoleMode)
    (size : r'.nNumberOfBytesToRead = r.nNumberOfBytesToRead)
    (popped : r'.popped = r.popped ++ [record]) :
    r'.typing = r.typing.next r.dwConsoleMode r.nNumberOfBytesToRead record := by
  rw [Reader.typing, mode, size, popped, typing_append]
  rfl

theorem line_read {r' : Reader} (ok : ReaderOk r) (calling : r.number = none)
    (mode : r'.dwConsoleMode = r.dwConsoleMode)
    (size : r'.nNumberOfBytesToRead = r.nNumberOfBytesToRead)
    (popped : r'.popped = r.popped ++ [record])
    (fits : lineInput r.dwConsoleMode = true → isKey record = true → r.fLoop = true) :
    lineInput r'.dwConsoleMode = true → ∀ before record' after,
      r'.popped = before ++ record' :: after → isKey record' = true →
      (typing r'.dwConsoleMode r'.nNumberOfBytesToRead before).finished = false := by
  rw [mode, size, popped]
  intro line before record' after split key
  rcases List.eq_nil_or_concat after with rfl | ⟨after, last, rfl⟩
  · obtain ⟨rfl, same⟩ := List.append_inj' split rfl
    obtain rfl := (List.cons.inj same).1
    have flag := ok.flag line calling
    rw [fits line key] at flag
    exact Eq.mp (Bool.not_eq_true' _) flag.symm
  · rw [List.concat_eq_append, ← List.cons_append, ← List.append_assoc] at split
    exact ok.line line before record' after (List.append_inj' split rfl).1 key

theorem next_up (typing : Typing) (mode : BitVec 32) (n : ℕ) (up : isKeyDown record = false) :
    typing.next mode n record = typing := by
  rw [Typing.next]
  simp only [edit, up, if_true, Bool.false_and, Bool.or_false]

theorem read_up (ulEvents : ℕ) (up : isKeyDown record = false) :
    r.read ulEvents record = { r with popped := r.popped ++ [record] } := by
  rw [Reader.read, Reader.event, if_neg (by rw [up]; decide)]

theorem read_ok (ok : ReaderOk r) (pop : r.phase = .pop) (ulEvents : ℕ)
    (fits : RecordFits r record) : ReaderOk (r.read ulEvents record) := by
  have calling : r.number = none := ok.calling (by rw [pop]; decide)
  cases down : isKeyDown record with
  | false =>
    have same := read_up (r := r) ulEvents down
    have typed : (r.read ulEvents record).typing = r.typing := by
      rw [@typing_read r record (r.read ulEvents record) (by rw [same]) (by rw [same]) (by rw [same]),
        next_up _ _ _ down]
    have line := @line_read r record (r.read ulEvents record) ok calling (by rw [same])
      (by rw [same]) (by rw [same]) fits.line
    refine ⟨?_, ?_, ?_, ?_, ?_, line, ?_⟩
    · rw [same]
      exact ok.stores
    · rw [typed, same]
      exact ok.text
    · rw [typed, same]
      exact ok.flag
    · rw [typed, same]
      exact ok.number
    · rw [typed, same]
      exact ok.waits
    · rw [same]
      exact ok.calling
  | true =>
    have pressed := read_pressed (r := r) ulEvents down
    have looked := look_same (r := r) (c := asciiChar record) ulEvents
    have room : Stores (r.look ulEvents (asciiChar record)).dwConsoleMode (asciiChar record) →
        (r.look ulEvents (asciiChar record)).ulCounter <
          (r.look ulEvents (asciiChar record)).nNumberOfBytesToRead := by
      rw [looked.mode, looked.counter, looked.size]
      exact fits.room down
    have bytes : (r.read ulEvents record).bytes =
        edit r.dwConsoleMode r.nNumberOfBytesToRead r.typing.text record := by
      rw [pressed.bytes, record_bytes down rfl room (by rw [looked.mode]; exact fits.cr down),
        looked.mode, looked.size, looked.bytes, ok.text]
    have typed := typing_read pressed.mode pressed.size pressed.popped
    have none : (r.read ulEvents record).number = none := pressed.number.trans calling
    refine ⟨?_, ?_, fun line _ => ?_, fun k returned => ?_, fun _ wait => ?_,
      line_read ok calling pressed.mode pressed.size pressed.popped fits.line, fun _ => none⟩
    · rw [pressed.stores, pressed.size, ← looked.size]
      refine record_stores room ?_
      rw [looked.stores, looked.size]
      exact ok.stores
    · rw [bytes, typed]
      rfl
    · have counter : ((r.look ulEvents (asciiChar record)).record (asciiChar record)).ulCounter =
          (edit r.dwConsoleMode r.nNumberOfBytesToRead r.typing.text record).length := by
        rw [← bytes, pressed.bytes, length_bytes]
      have mode : lineInput r.dwConsoleMode = true := by rw [← pressed.mode]; exact line
      have flag := ok.flag mode calling
      have seen : (r.look ulEvents (asciiChar record)).fLoop =
          if asciiChar record = 0x0d then false else r.fLoop := by
        rw [Reader.look, if_pos mode]
        split_ifs <;> rfl
      rw [pressed.flag, typed, counter, seen]
      simp only [Typing.next, down, Bool.true_and]
      by_cases full : r.nNumberOfBytesToRead ≤
          (edit r.dwConsoleMode r.nNumberOfBytesToRead r.typing.text record).length
      · rw [if_pos full, decide_eq_true full, Bool.or_true, Bool.or_true]
        rfl
      · rw [if_neg full, decide_eq_false full, Bool.or_false]
        by_cases cr : asciiChar record = 0x0d
        · rw [if_pos cr, decide_eq_true cr, Bool.or_true]
          rfl
        · rw [if_neg cr, decide_eq_false cr, Bool.or_false]
          exact flag
    · exact absurd (none.symm.trans returned) (by simp)
    · rw [pressed.phase, pop] at wait
      cases wait

theorem record_stored (stores : Stores r.dwConsoleMode c) :
    r.ulCounter ∈ (r.record c).stores := by
  have here : ∀ byte, r.ulCounter ∈ (r.store byte).stores := fun _ => List.mem_cons_self ..
  rw [Reader.record]
  rcases stores with raw | ⟨zero, stop, back, line⟩
  · rw [if_neg (by rw [raw]; decide)]
    exact here c
  · by_cases processed : processedInput r.dwConsoleMode = true
    · rw [if_pos processed, if_neg (by omega)]
      by_cases cr : c = 0x0d
      · rw [if_pos cr, if_pos (line cr)]
        dsimp only
        split_ifs
        · exact List.mem_cons_of_mem _ (here _)
        · exact here _
      · rw [if_neg cr, if_neg back]
        exact here c
    · rw [if_neg processed]
      exact here c

theorem fits_of_promised {s : State} {ulEvents : ℕ} (ok : ReaderOk r) (calling : r.number = none)
    (reader : s.reader = r.read ulEvents record) (promised : Promised s) :
    RecordFits r record := by
  have stores := promised.stores
  have text := promised.text
  have lines := promised.line
  rw [reader] at stores text lines
  have popped : (r.read ulEvents record).popped = r.popped ++ [record] := rfl
  have frame : (r.read ulEvents record).dwConsoleMode = r.dwConsoleMode ∧
      (r.read ulEvents record).nNumberOfBytesToRead = r.nNumberOfBytesToRead := by
    cases down : isKeyDown record with
    | false =>
      rw [read_up _ down]
      exact ⟨rfl, rfl⟩
    | true =>
      have pressed := read_pressed (r := r) ulEvents down
      exact ⟨pressed.mode, pressed.size⟩
  rw [frame.1, frame.2] at lines
  have looked := look_same (r := r) (c := asciiChar record) ulEvents
  refine ⟨fun line key => ?_, fun down char => ?_, fun down processed cr => ?_⟩
  · have finished := lines line r.popped record [] popped key
    have same : r.typing.finished = false := finished
    rw [ok.flag line calling, same]
    rfl
  · have pressed := read_pressed (r := r) ulEvents down
    rw [pressed.stores, pressed.size] at stores
    have stored := record_stored (r := r.look ulEvents (asciiChar record)) (c := asciiChar record)
      (by rw [looked.mode]; exact char)
    rw [looked.counter] at stored
    exact stores _ stored
  · have pressed := read_pressed (r := r) ulEvents down
    have typed := typing_read pressed.mode pressed.size pressed.popped
    by_contra raw
    have dropped : ((r.look ulEvents (asciiChar record)).record (asciiChar record)).bytes =
        r.bytes := by
      rw [Reader.record, looked.mode, if_pos processed, if_neg (by omega), if_pos cr, if_neg raw,
        looked.bytes]
    have both : r.bytes = edit r.dwConsoleMode r.nNumberOfBytesToRead r.typing.text record := by
      rw [← dropped, ← pressed.bytes]
      refine text.trans ?_
      rw [typed]
      rfl
    rw [ok.text] at both
    simp only [edit, down, Bool.true_eq_false, if_false] at both
    rw [if_pos processed, if_neg (by omega), if_neg (by omega), if_neg fun line => raw line.2]
      at both
    have lengths := congrArg List.length both
    rw [List.length_append] at lengths
    simp at lengths

/-! ## States -/

/-- The queue, what arrived in it, and the reader. -/
structure Inv (s : State) : Prop where
  ring : RingOk s.input
  reading : s.input.calls[0]? = some .idle ∨ s.input.calls[0]? = some .popping
  pushing : s.input.calls[1]? = some .idle ∨
    ∃ slot record, s.input.calls[1]? = some (.pushing slot record)
  two : s.input.calls.length = 2
  queue : s.arrived = s.reader.popped ++ s.input.queue.map Prod.fst
  reader : ReaderOk s.reader

variable {s : State}

theorem Inv.promised (inv : Inv s) : Promised s where
  stores := inv.reader.stores
  text := inv.reader.text
  number k eq := (inv.reader.number k eq).1
  returned line returned := by
    obtain ⟨k, eq⟩ := Option.ne_none_iff_exists'.mp returned
    exact (inv.reader.number k eq).2 line
  waits := inv.reader.waits
  line := inv.reader.line
  queue := inv.queue

theorem empty_ok (ok : ReaderOk r) (pop : r.phase = .pop) : ReaderOk r.empty := by
  have calling : r.number = none := ok.calling (by rw [pop]; decide)
  rw [Reader.empty]
  by_cases loop : r.fLoop = true
  · rw [if_pos loop]
    refine ⟨ok.stores, ok.text, ok.flag, ok.number, fun line _ => ?_, ok.line, fun _ => calling⟩
    have flag := ok.flag line calling
    rw [loop] at flag
    exact Eq.mp (Bool.not_eq_true' _) flag.symm
  · rw [if_neg loop]
    refine ⟨ok.stores, ok.text, fun _ none => (by cases none), fun k returned => ?_,
      fun _ wait => (by cases wait), ok.line, fun calling => absurd rfl calling⟩
    obtain rfl := Option.some.inj returned
    refine ⟨?_, fun line => ?_⟩
    · show r.ulCounter = r.typing.text.length
      rw [← ok.text, length_bytes]
    · show r.typing.finished = true
      have flag := ok.flag line calling
      rw [Bool.eq_false_iff.mpr loop] at flag
      exact Eq.mp (Bool.not_eq_false' _) flag.symm

theorem Inv.room (inv : Inv s) (idle : s.input.calls[1]? = some .idle)
    (free : (s.input.arrInputRecord s.input.ulIndexFree).eventType = 0) :
    s.input.queue.length < ConsoleInput.queueSize := by
  refine Nat.lt_of_le_of_ne inv.ring.full fun full => ?_
  have first : s.input.ulIndexFree = ConsoleInput.slotOf s.input.ulIndexEvent 0 := by
    rw [inv.ring.free, full]
    unfold ConsoleInput.slotOf ConsoleInput.queueSize
    omega
  obtain ⟨entry, at_0⟩ : ∃ entry, s.input.queue[0]? = some entry :=
    ⟨_, List.getElem?_eq_getElem (by rw [full]; decide)⟩
  have held := inv.ring.entries 0 entry at_0
  rw [← first] at held
  obtain ⟨record, pending⟩ := entry
  have rest := held.2
  cases pending with
  | none =>
    rw [show s.input.arrInputRecord s.input.ulIndexFree = record from rest] at free
    exact held.1 free
  | some t =>
    have there : s.input.calls[t]? =
      some (.pushing s.input.ulIndexFree record) := rest.1
    have inside : t < 2 := by
      rw [← inv.two]
      exact (List.getElem?_eq_some_iff.mp there).1
    rcases (show t = 0 ∨ t = 1 by omega) with rfl | rfl
    · rcases inv.reading with reading | reading <;> cases reading.symm.trans there
    · cases idle.symm.trans there

theorem push_inv (inv : Inv s) {typed : record.eventType ≠ 0} {s' : State}
    (stepped : step s (.push record typed) = some s') : Inv s' := by
  obtain ⟨next, pushed, rfl⟩ := Option.map_eq_some_iff.mp stepped
  obtain ⟨c, at_1, pushed⟩ := Option.bind_eq_some_iff.mp pushed
  rcases inv.pushing with idle | ⟨slot, record', pushing⟩
  · obtain rfl := Option.some.inj (idle.symm.trans at_1)
    obtain rfl := Option.some.inj pushed
    rw [ConsoleInput.State.push]
    by_cases taken : (s.input.arrInputRecord s.input.ulIndexFree).eventType ≠ 0
    · rw [if_pos taken]
      refine ⟨inv.ring, inv.reading, inv.pushing, inv.two, ?_, inv.reader⟩
      show s.arrived ++ (s.input.queue.drop s.input.queue.length).map Prod.fst = _
      rw [List.drop_length]
      exact (List.append_nil _).trans inv.queue
    · rw [if_neg taken]
      have free := not_not.mp taken
      have calls := ConsoleInput.set_at idle (.pushing s.input.ulIndexFree record)
      refine ⟨inv.ring.push idle typed free (inv.room idle free), ?_,
        Or.inr ⟨s.input.ulIndexFree, record, (calls 1).trans (if_pos rfl)⟩, ?_, ?_, inv.reader⟩
      · rcases inv.reading with reading | reading
        · exact Or.inl ((calls 0).trans ((if_neg (by decide)).trans reading))
        · exact Or.inr ((calls 0).trans ((if_neg (by decide)).trans reading))
      · show (s.input.calls.set 1 _).length = 2
        rw [List.length_set, inv.two]
      · show s.arrived ++ ((s.input.queue ++ [(record, some 1)]).drop
          s.input.queue.length).map Prod.fst =
          s.reader.popped ++ (s.input.queue ++ [(record, some 1)]).map Prod.fst
        rw [List.drop_left, inv.queue, List.map_append, List.append_assoc]
  · obtain rfl := Option.some.inj (pushing.symm.trans at_1)
    cases pushed

theorem map_filled (t : ℕ) (queue : List (Record × Option ℕ)) :
    (queue.map (ConsoleInput.filled t)).map Prod.fst = queue.map Prod.fst := by
  rw [List.map_map]
  refine List.map_congr_left fun entry _ => ?_
  show (ConsoleInput.filled t entry).1 = entry.1
  rw [ConsoleInput.filled]
  split_ifs <;> rfl

theorem fill_inv (inv : Inv s) {s' : State} (stepped : step s .fill = some s') : Inv s' := by
  obtain ⟨next, filled, rfl⟩ := Option.map_eq_some_iff.mp stepped
  obtain ⟨c, at_1, filled⟩ := Option.bind_eq_some_iff.mp filled
  rcases inv.pushing with idle | ⟨slot, record', pushing⟩
  · obtain rfl := Option.some.inj (idle.symm.trans at_1)
    cases filled
  · obtain rfl := Option.some.inj (pushing.symm.trans at_1)
    obtain rfl := Option.some.inj filled
    have calls := ConsoleInput.set_at pushing .idle
    refine ⟨inv.ring.fill pushing, ?_, Or.inl ((calls 1).trans (if_pos rfl)), ?_, ?_, inv.reader⟩
    · rcases inv.reading with reading | reading
      · exact Or.inl ((calls 0).trans ((if_neg (by decide)).trans reading))
      · exact Or.inr ((calls 0).trans ((if_neg (by decide)).trans reading))
    · show (s.input.calls.set 1 _).length = 2
      rw [List.length_set, inv.two]
    · show s.arrived ++ ((s.input.queue.map (ConsoleInput.filled 1)).drop
        s.input.queue.length).map Prod.fst =
        s.reader.popped ++ (s.input.queue.map (ConsoleInput.filled 1)).map Prod.fst
      rw [List.drop_of_length_le (Nat.le_of_eq (List.length_map _)), map_filled, inv.queue]
      exact List.append_nil _

theorem popped_empty : r.empty.popped = r.popped := by
  rw [Reader.empty]
  split_ifs <;> rfl

theorem Inv.goto (inv : Inv s) {c c' : Call} (reading : s.input.calls[0]? = some c)
    (before : c.isPushing = false) (after : c' = .idle ∨ c' = .popping) {r : Reader}
    (ok : ReaderOk r) (popped : r.popped = s.reader.popped) :
    Inv { s with input := s.input.goto 0 c', reader := r } := by
  have calls := ConsoleInput.set_at reading c'
  refine ⟨inv.ring.goto reading before ?_ ?_, ?_, ?_, ?_, ?_, ok⟩
  · rcases after with rfl | rfl <;> rfl
  · rintro current counter buffer expected rfl
    rcases after with same | same <;> cases same
  · have here := (calls 0).trans (if_pos rfl)
    rcases after with rfl | rfl
    · exact Or.inl here
    · exact Or.inr here
  · have there := (calls 1).trans (if_neg (by decide))
    rcases inv.pushing with idle | ⟨slot, record, pushing⟩
    · exact Or.inl (there.trans idle)
    · exact Or.inr ⟨slot, record, there.trans pushing⟩
  · show (s.input.calls.set 0 _).length = 2
    rw [List.length_set, inv.two]
  · show s.arrived = r.popped ++ s.input.queue.map Prod.fst
    rw [popped]
    exact inv.queue

theorem pop_inv (inv : Inv s) {s' : State} (stepped : step s .pop = some s') : Inv s' := by
  rw [step, State.own] at stepped
  by_cases pop : s.reader.phase = .pop
  · rw [if_pos pop] at stepped
    obtain ⟨next, popped, rfl⟩ := Option.map_eq_some_iff.mp stepped
    obtain ⟨c, at_0, popped⟩ := Option.bind_eq_some_iff.mp popped
    rcases inv.reading with idle | popping
    · obtain rfl := Option.some.inj (idle.symm.trans at_0)
      obtain rfl := Option.some.inj popped
      by_cases none : s.input.ulEvents = 0
      · rw [if_pos none]
        exact ⟨inv.ring, inv.reading, inv.pushing, inv.two, by
          rw [popped_empty]; exact inv.queue, empty_ok inv.reader pop⟩
      · rw [if_neg none]
        exact inv.goto idle rfl (Or.inr rfl) inv.reader rfl
    · obtain rfl := Option.some.inj (popping.symm.trans at_0)
      cases popped
  · rw [if_neg pop] at stepped
    cases stepped

theorem take_eq (popping : s.input.calls[0]? = some .popping) (pop : s.reader.phase = .pop) :
    step s .take = some (
      if (s.input.arrInputRecord s.input.ulIndexEvent).eventType = 0 then
        { s with input := s.input.goto 0 .idle, reader := s.reader.empty }
      else { s with
        input := (s.input.take 0).1
        reader := s.reader.read (s.input.take 0).1.ulEvents
          (s.input.arrInputRecord s.input.ulIndexEvent) }) := by
  have taken : ConsoleInput.step s.input (0, .take) = some (s.input.take 0) := by
    rw [ConsoleInput.step, popping]
    rfl
  rw [step, State.own, if_pos pop, taken, Option.map_some, ConsoleInput.State.take]
  by_cases free : (s.input.arrInputRecord s.input.ulIndexEvent).eventType = 0
  · rw [if_pos free, if_pos free]
  · rw [if_neg free, if_neg free]
    rfl

theorem take_inv (inv : Inv s) (fits : StepFits s .take) {s' : State}
    (stepped : step s .take = some s') : Inv s' := by
  by_cases pop : s.reader.phase = .pop
  · rcases inv.reading with idle | popping
    · rw [step, State.own, if_pos pop, ConsoleInput.step, idle] at stepped
      cases stepped
    · rw [take_eq popping pop] at stepped
      obtain rfl := Option.some.inj stepped
      by_cases free : (s.input.arrInputRecord s.input.ulIndexEvent).eventType = 0
      · rw [if_pos free]
        exact inv.goto popping rfl (Or.inl rfl) (empty_ok inv.reader pop) popped_empty
      · rw [if_neg free]
        obtain ⟨rest, queue⟩ := inv.ring.first free
        have ring := @RingOk.take _ 0 rest _
          { s.input.arrInputRecord s.input.ulIndexEvent with eventType := 0 }
          inv.ring popping queue rfl
        have calls := ConsoleInput.set_at popping .idle
        rw [ConsoleInput.State.take]
        simp only [if_neg free]
        refine ⟨ring, Or.inl ((calls 0).trans (if_pos rfl)), ?_, ?_, ?_,
          read_ok inv.reader pop _ (fits pop popping free)⟩
        · have there := (calls 1).trans (if_neg (by decide))
          rcases inv.pushing with idle | ⟨slot, record, pushing⟩
          · exact Or.inl (there.trans idle)
          · exact Or.inr ⟨slot, record, there.trans pushing⟩
        · show (s.input.calls.set 0 _).length = 2
          rw [List.length_set, inv.two]
        · show s.arrived = (s.reader.popped ++ [s.input.arrInputRecord s.input.ulIndexEvent]) ++
            s.input.queue.tail.map Prod.fst
          rw [inv.queue, queue, List.append_assoc]
          rfl
  · rw [step, State.own, if_neg pop] at stepped
    cases stepped

theorem begin_inv (inv : Inv s) {mode : BitVec 32} {n : ℕ} {lpBuffer : ℕ → ℕ} {s' : State}
    (stepped : step s (.begin mode n lpBuffer) = some s') : Inv s' := by
  rw [step] at stepped
  by_cases idle : s.reader.phase = .idle
  · rw [if_pos idle] at stepped
    obtain rfl := Option.some.inj stepped
    refine ⟨inv.ring, inv.reading, inv.pushing, inv.two, rfl, ?_⟩
    refine ⟨fun i mem => absurd mem List.not_mem_nil, rfl, fun _ _ => rfl,
      fun k returned => (by cases returned), fun _ _ => rfl, fun _ before record after split => ?_,
      fun _ => rfl⟩
    exact absurd split.symm (List.append_ne_nil_of_right_ne_nil _ (List.cons_ne_nil _ _))
  · rw [if_neg idle] at stepped
    cases stepped

theorem wake_inv (inv : Inv s) {s' : State} (stepped : step s .wake = some s') : Inv s' := by
  rw [step] at stepped
  by_cases wait : s.reader.phase = .wait
  · rw [if_pos wait] at stepped
    obtain rfl := Option.some.inj stepped
    have ok := inv.reader
    refine ⟨inv.ring, inv.reading, inv.pushing, inv.two, inv.queue, ?_⟩
    exact ⟨ok.stores, ok.text, ok.flag, ok.number, fun _ pop => (by cases pop), ok.line,
      fun _ => ok.calling (by rw [wait]; decide)⟩
  · rw [if_neg wait] at stepped
    cases stepped

theorem step_inv (inv : Inv s) {action : Action} (fits : StepFits s action) {s' : State}
    (stepped : step s action = some s') : Inv s' := by
  cases action with
  | push => exact push_inv inv stepped
  | fill => exact fill_inv inv stepped
  | begin => exact begin_inv inv stepped
  | wake => exact wake_inv inv stepped
  | pop => exact pop_inv inv stepped
  | take => exact take_inv inv fits stepped

/-! ## Runs -/

theorem RunPromised.here {actions : List Action} (promised : RunPromised s actions) :
    Promised s := by
  cases actions with
  | nil => exact promised
  | cons action actions => exact promised.1

theorem stepFits_of_promised (inv : Inv s) {action : Action}
    (promised : ∀ s', step s action = some s' → Promised s') : StepFits s action := by
  cases action with
  | push | fill | begin | wake | pop => trivial
  | take =>
    intro pop popping typed
    have stepped := take_eq popping pop
    rw [if_neg typed] at stepped
    exact fits_of_promised inv.reader (inv.reader.calling (by rw [pop]; decide)) rfl
      (promised _ stepped)

theorem runPromised_iff_from (inv : Inv s) (actions : List Action) :
    RunPromised s actions ↔ RunFits s actions := by
  induction actions generalizing s with
  | nil => exact iff_of_true inv.promised trivial
  | cons action actions ih =>
    constructor
    · rintro ⟨-, rest⟩
      have fits := stepFits_of_promised inv fun s' stepped => (rest s' stepped).here
      exact ⟨fits, fun s' stepped => (ih (step_inv inv fits stepped)).mp (rest s' stepped)⟩
    · rintro ⟨fits, rest⟩
      exact ⟨inv.promised, fun s' stepped =>
        (ih (step_inv inv fits stepped)).mpr (rest s' stepped)⟩

theorem inv_init (flVioConsole : Bool) : Inv (init flVioConsole) := by
  have ring : RingOk (ConsoleInput.init flVioConsole 2) := by
    rcases ConsoleInput.inv_init flVioConsole 2 with ⟨ring, -⟩ | ⟨t, store, flushing⟩
    · exact ring
    · have idle := List.eq_of_mem_replicate (List.mem_of_getElem? flushing.here)
      cases idle
  refine ⟨ring, Or.inl rfl, Or.inl rfl, rfl, rfl, ?_⟩
  exact ⟨fun i mem => absurd mem List.not_mem_nil, rfl, fun _ _ => rfl,
    fun k returned => (by cases returned), fun _ _ => rfl,
    fun _ before record after split => absurd split.symm
      (List.append_ne_nil_of_right_ne_nil _ (List.cons_ne_nil _ _)), fun _ => rfl⟩

/-- Any number of reads and any keys before and between them: what is stored is what was typed,
in the buffer, and a line is read to its end and no further, just when every record popped
fits. -/
theorem consoleRead_promised_iff (flVioConsole : Bool) (actions : List Action) :
    RunPromised (init flVioConsole) actions ↔ RunFits (init flVioConsole) actions :=
  runPromised_iff_from (inv_init flVioConsole) actions

/-- A key that is pressed. -/
def key (ucChar : ℕ) : Record := ⟨keyEvent, [1, 1, 0, 0, ucChar, 0]⟩

/-- Two keys are queued when a line of one byte is read. -/
theorem typedAhead_not_promised : ¬ ∀ (flVioConsole : Bool) (actions : List Action),
    RunPromised (init flVioConsole) actions := by
  intro all
  have run := all false [.push (key 97) (by decide), .fill, .push (key 98) (by decide), .fill,
    .begin 3 1 fun _ => 0, .wake, .pop, .take, .pop, .take]
  have typed := (((run.2 _ rfl).2 _ rfl).2 _ rfl).2 _ rfl
  have read := (((((typed.2 _ rfl).2 _ rfl).2 _ rfl).2 _ rfl).2 _ rfl).2 _ rfl
  exact absurd (read.stores 1 (List.mem_cons_self ..)) (by decide)

end Odin32.ConsoleRead
