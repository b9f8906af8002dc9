import Odin32.ConsoleInput

/-! # Reading from the console

`ReadFile` on `CONIN$` pops the records of the input queue one after the other and stores the
characters of the keys pressed, while another thread pushes more. The first thread of the queue
is the one that reads, the second one the one that pushes. What the reader does with a record
before it asks for the next one is one step with the pop of it: of the shared data it looks at
the number of events only. The echo on the screen is left out, and `char` is unsigned. -/

set_option autoImplicit false

namespace Odin32.ConsoleRead

open ConsoleInput (Record)

/-! ## ReadFile -/

def keyEvent : ℕ := 1
def enableProcessedInput : BitVec 32 := 1
def enableLineInput : BitVec 32 := 2

/-- A record of the union `KeyEvent`: `bKeyDown`, `wRepeatCount`, `wVirtualKeyCode`,
`wVirtualScanCode`, `uChar`, `dwControlKeyState`. -/
def isKey (record : Record) : Bool := record.eventType = keyEvent

def isKeyDown (record : Record) : Bool := isKey record && record.event[0]? = some 1

def asciiChar (record : Record) : ℕ := (record.event[4]?.getD 0) % 0x100

def lineInput (dwConsoleMode : BitVec 32) : Bool := dwConsoleMode &&& enableLineInput ≠ 0

def processedInput (dwConsoleMode : BitVec 32) : Bool :=
  dwConsoleMode &&& enableProcessedInput ≠ 0

/-- Where the reading thread is. -/
inductive Phase where
  | idle
  /-- In front of the wait for events. -/
  | wait
  /-- In the inner loop. -/
  | pop
deriving DecidableEq

structure Reader where
  phase : Phase
  dwConsoleMode : BitVec 32
  nNumberOfBytesToRead : ℕ
  /-- The bytes from `lpBuffer` on; `pszTarget` is `ulCounter` bytes behind it. -/
  lpBuffer : ℕ → ℕ
  ulCounter : ℕ
  fLoop : Bool
  /-- `*lpNumberOfBytesRead`, once the call has returned. -/
  number : Option ℕ
  /-- Where bytes were stored. -/
  stores : List ℕ
  /-- The records popped in the call. -/
  popped : List Record

namespace Reader

/-- `*pszTarget = byte`, and on by one. -/
def store (r : Reader) (byte : ℕ) : Reader :=
  { r with
    lpBuffer := Function.update r.lpBuffer r.ulCounter byte
    ulCounter := r.ulCounter + 1
    stores := r.ulCounter :: r.stores }

/-- Whether the loop goes on, with the number of events left in the queue. -/
def look (r : Reader) (ulEvents ucChar : ℕ) : Reader :=
  if lineInput r.dwConsoleMode then if ucChar = 0x0d then { r with fLoop := false } else r
  else { r with fLoop := ulEvents ≠ 0 }

def record (r : Reader) (ucChar : ℕ) : Reader :=
  if processedInput r.dwConsoleMode then
    if ucChar = 0x00 ∨ ucChar = 0x03 then r
    else if ucChar = 0x0d then
      if lineInput r.dwConsoleMode then
        let r := r.store 0x0d
        if r.ulCounter < r.nNumberOfBytesToRead then r.store 0x0a else r
      else r
    else if ucChar = 0x08 then
      if 0 < r.ulCounter then { r with ulCounter := r.ulCounter - 1 } else r
    else r.store ucChar
  else r.store ucChar

/-- The body of the inner loop after a pop. -/
def event (r : Reader) (ulEvents : ℕ) (inputRecord : Record) : Reader :=
  if isKeyDown inputRecord then
    let r := (r.look ulEvents (asciiChar inputRecord)).record (asciiChar inputRecord)
    if r.nNumberOfBytesToRead ≤ r.ulCounter then { r with fLoop := false } else r
  else r

/-- Behind the inner loop. -/
def empty (r : Reader) : Reader :=
  if r.fLoop then { r with phase := .wait }
  else { r with phase := .idle, number := some r.ulCounter }

end Reader

structure State where
  input : ConsoleInput.State
  reader : Reader
  /-- The records queued when the call began, and those pushed since. -/
  arrived : List Record

inductive Action where
  /-- The other thread pushes a record, in two steps. -/
  | push (record : Record) (typed : record.eventType ≠ 0)
  | fill
  | begin (dwConsoleMode : BitVec 32) (nNumberOfBytesToRead : ℕ) (lpBuffer : ℕ → ℕ)
  /-- `iConsoleInputQueryEvents` comes back; the event semaphore may have been posted for a
  record that is read already. -/
  | wake
  | pop
  | take

namespace State

/-- A step of the other thread. -/
def other (s : State) (action : ConsoleInput.Action) : Option State :=
  (ConsoleInput.step s.input (1, action)).map fun next =>
    { s with
      input := next.1
      arrived := s.arrived ++ (next.1.queue.drop s.input.queue.length).map Prod.fst }

/-- A step of the reading thread in `iConsoleInputEventPop`. -/
def own (s : State) (action : ConsoleInput.Action) : Option State :=
  if s.reader.phase = .pop then
    (ConsoleInput.step s.input (0, action)).map fun next =>
      match next.2 with
      | some (.popped inputRecord) =>
        { s with
          input := next.1
          reader :=
            { s.reader.event next.1.ulEvents inputRecord with
              popped := s.reader.popped ++ [inputRecord] } }
      | some _ => { s with input := next.1, reader := s.reader.empty }
      | none => { s with input := next.1 }
  else none

end State

def step (s : State) : Action → Option State
  | .push record _ => s.other (.push record)
  | .fill => s.other (.fill 0)
  | .begin dwConsoleMode nNumberOfBytesToRead lpBuffer =>
    if s.reader.phase = .idle then
      some { s with
        reader := ⟨.wait, dwConsoleMode, nNumberOfBytesToRead, lpBuffer, 0, true, none, [], []⟩
        arrived := s.input.queue.map Prod.fst }
    else none
  | .wake =>
    if s.reader.phase = .wait then some { s with reader := { s.reader with phase := .pop } }
    else none
  | .pop => s.own .pop
  | .take => s.own .take

def init (flVioConsole : Bool) : State where
  input := ConsoleInput.init flVioConsole 2
  reader := ⟨.idle, 0, 0, fun _ => 0, 0, true, none, [], []⟩
  arrived := []

/-! ## What it is for -/

/-- The text after one more record. Processed keys are no text where they are zero, as for
shift keys, or Ctrl-C. -/
def edit (dwConsoleMode : BitVec 32) (n : ℕ) (text : List ℕ) (record : Record) : List ℕ :=
  let ucChar := asciiChar record
  if isKeyDown record = false then text
  else if processedInput dwConsoleMode then
    if ucChar = 0x00 ∨ ucChar = 0x03 then text
    else if ucChar = 0x08 then text.dropLast
    else if ucChar = 0x0d ∧ lineInput dwConsoleMode then (text ++ [0x0d, 0x0a]).take n
    else text ++ [ucChar]
  else text ++ [ucChar]

/-- The text typed so far, and whether a CR was typed or the buffer became full. -/
structure Typing where
  text : List ℕ
  finished : Bool

def Typing.next (dwConsoleMode : BitVec 32) (n : ℕ) (typing : Typing) (record : Record) : Typing :=
  let text := edit dwConsoleMode n typing.text record
  ⟨text, typing.finished ||
    isKeyDown record && (asciiChar record = 0x0d || decide (n ≤ text.length))⟩

def typing (dwConsoleMode : BitVec 32) (n : ℕ) (records : List Record) : Typing :=
  records.foldl (Typing.next dwConsoleMode n) ⟨[], false⟩

/-- What was typed by the records popped. -/
def Reader.typing (r : Reader) : Typing :=
  ConsoleRead.typing r.dwConsoleMode r.nNumberOfBytesToRead r.popped

structure Promised (s : State) : Prop where
  /-- Bytes are stored inside the buffer. -/
  stores : ∀ i, i ∈ s.reader.stores → i < s.reader.nNumberOfBytesToRead
  /-- They are the text typed. -/
  text : (List.range s.reader.ulCounter).map s.reader.lpBuffer = s.reader.typing.text
  /-- Their number is what is reported. -/
  number : ∀ k, s.reader.number = some k → k = s.reader.typing.text.length
  /-- A line is read up to the record that finishes it. -/
  returned : lineInput s.reader.dwConsoleMode = true → s.reader.number ≠ none →
    s.reader.typing.finished = true
  waits : lineInput s.reader.dwConsoleMode = true → s.reader.phase = .wait →
    s.reader.typing.finished = false
  /-- No later key is taken from the queue. -/
  line : lineInput s.reader.dwConsoleMode = true → ∀ before record after,
    s.reader.popped = before ++ record :: after → isKey record = true →
    (ConsoleRead.typing s.reader.dwConsoleMode s.reader.nNumberOfBytesToRead before).finished =
      false
  queue : s.arrived = s.reader.popped ++ s.input.queue.map Prod.fst

/-- The promise in every state of a run. -/
def RunPromised : State → List Action → Prop
  | s, [] => Promised s
  | s, action :: actions =>
    Promised s ∧ ∀ s', step s action = some s' → RunPromised s' actions

/-! ## When it is kept -/

/-- A character is stored for the key. -/
def Stores (dwConsoleMode : BitVec 32) (ucChar : ℕ) : Prop :=
  processedInput dwConsoleMode = false ∨
    ucChar ≠ 0x00 ∧ ucChar ≠ 0x03 ∧ ucChar ≠ 0x08 ∧ (ucChar = 0x0d → lineInput dwConsoleMode)

/-- The reader may get the record: the line is not at its end, there is room for the
character, and a CR has its place in the text. -/
structure RecordFits (r : Reader) (record : Record) : Prop where
  line : lineInput r.dwConsoleMode = true → isKey record = true → r.fLoop = true
  room : isKeyDown record = true → Stores r.dwConsoleMode (asciiChar record) →
    r.ulCounter < r.nNumberOfBytesToRead
  cr : isKeyDown record = true → processedInput r.dwConsoleMode = true →
    asciiChar record = 0x0d → lineInput r.dwConsoleMode = true

/-- The condition is about the pop of a record. -/
def StepFits (s : State) : Action → Prop
  | .take =>
    let record := s.input.arrInputRecord s.input.ulIndexEvent
    s.reader.phase = .pop → s.input.calls[0]? = some .popping → record.eventType ≠ 0 →
      RecordFits s.reader record
  | _ => True

def RunFits : State → List Action → Prop
  | _, [] => True
  | s, action :: actions =>
    StepFits s action ∧ ∀ s', step s action = some s' → RunFits s' actions

end Odin32.ConsoleRead
