import Odin32.Word
import Mathlib.Logic.Function.Basic

/-! # The console input queue

A ring of input records for any number of threads. A section under the queue's mutex is one
step, an unlocked test, copy or store is another. A push claims its slot in one step and
fills it in a later one; a slot is free when its event type is zero. The queue of records
pushed and not yet popped or flushed is kept beside the ring, each with the thread whose
push of it is still under way. -/

set_option autoImplicit false

namespace Odin32.ConsoleInput

open Word

/-- `INPUT_RECORD`, its union as plain contents. -/
structure Record where
  eventType : ℕ
  event : List ℕ
deriving DecidableEq

/-- `CONSOLE_INPUTQUEUESIZE` -/
def queueSize : ℕ := 256

def errorQueNoMemory : ℕ := 334

/-- Where a thread stands. -/
inductive Call where
  | idle
  /-- `iConsoleInputEventPush` has its slot and has not filled it. -/
  | pushing (slot : ℕ) (record : Record)
  /-- `iConsoleInputEventPop` found events and is about to lock the queue. -/
  | popping
  /-- In the loop of `PeekConsoleInput`: the events asked for, the buffer of the caller, and
  the records that were to be delivered when the call began. -/
  | peeking (ulCurrentEvent ulCounter : ℕ) (buffer expected : List Record)
  /-- In the stores of `FlushConsoleInputBuffer`, by their number. -/
  | flushing (store : ℕ)
deriving DecidableEq

inductive Reply where
  | pushed (rc : ℕ)
  | popped (record : Record)
  | empty
  /-- What is in the buffer of the caller up to the count returned, and what was expected. -/
  | peeked (delivered expected : List Record)
  | flushed

structure State where
  /-- A peek also reaches what lies behind the last slot. -/
  arrInputRecord : ℕ → Record
  ulIndexFree : ℕ
  ulIndexEvent : ℕ
  ulEvents : ℕ
  flVioConsole : Bool
  calls : List Call
  /-- The records pushed and not yet popped or flushed, in push order. -/
  queue : List (Record × Option ℕ)

def init (flVioConsole : Bool) (threads : ℕ) : State where
  arrInputRecord _ := ⟨0, []⟩
  ulIndexFree := 0
  ulIndexEvent := 0
  ulEvents := 0
  flVioConsole := flVioConsole
  calls := List.replicate threads .idle
  queue := []

/-- The push of a queued record by thread `t` is over. -/
def filled (t : ℕ) (entry : Record × Option ℕ) : Record × Option ℕ :=
  if entry.2 = some t then (entry.1, none) else entry

/-- An index moved on, with the start over at the end of the ring. -/
def nextIndex (i : ℕ) : ℕ := if queueSize ≤ i + 1 then 0 else i + 1

namespace State

def goto (s : State) (t : ℕ) (c : Call) : State := { s with calls := s.calls.set t c }

def store (s : State) (slot : ℕ) (record : Record) : State :=
  { s with arrInputRecord := Function.update s.arrInputRecord slot record }

/-- The locked section of `iConsoleInputEventPush`. -/
def push (s : State) (t : ℕ) (record : Record) : State × Option Reply :=
  if (s.arrInputRecord s.ulIndexFree).eventType ≠ 0 then (s, some (.pushed errorQueNoMemory))
  else
    ({ s with
        ulIndexFree := nextIndex s.ulIndexFree
        ulEvents := add32 s.ulEvents 1
        queue := s.queue ++ [(record, some t)] }.goto t (.pushing s.ulIndexFree record), none)

/-- The copy of the record into its slot, and the post of the event semaphore. -/
def fill (s : State) (t slot : ℕ) (record : Record) (rc : ℕ) : State × Option Reply :=
  ({ s.store slot record with
      queue := s.queue.map (filled t) }.goto t .idle,
    some (.pushed (if s.flVioConsole then 0 else rc)))

/-- The locked section of `iConsoleInputEventPop`. -/
def take (s : State) (t : ℕ) : State × Option Reply :=
  let record := s.arrInputRecord s.ulIndexEvent
  if record.eventType = 0 then (s.goto t .idle, some .empty)
  else
    ({ s.store s.ulIndexEvent { record with eventType := 0 } with
        ulEvents := sub32 s.ulEvents 1
        ulIndexEvent := nextIndex s.ulIndexEvent
        queue := s.queue.tail }.goto t .idle, some (.popped record))

/-- One round of the loop of `PeekConsoleInput`. The copy goes from the buffer of the caller
into the queue. -/
def peekNext (s : State) (t ulCurrentEvent ulCounter : ℕ) (buffer expected : List Record) :
    State × Option Reply :=
  let done := (s.goto t .idle, some (.peeked (buffer.take ulCounter) expected))
  match buffer[ulCounter]? with
  | none => done
  | some record =>
    let ulCurrentEvent := if queueSize < ulCurrentEvent then 0 else ulCurrentEvent
    if (s.arrInputRecord ulCurrentEvent).eventType = 0 then done
    else
      ((s.store ulCurrentEvent record).goto t
        (.peeking (ulCurrentEvent + 1) (ulCounter + 1) buffer expected), none)

/-- The stores of `FlushConsoleInputBuffer`, one after the other. -/
def flushNext (s : State) (t store : ℕ) : State × Option Reply :=
  let s' : State :=
    match store with
    | 0 => { s with ulIndexFree := 0 }
    | 1 => { s with ulIndexEvent := 0 }
    | 2 => { s with ulEvents := 0, queue := [] }
    | slot + 3 => s.store slot { s.arrInputRecord slot with eventType := 0 }
  if store + 1 < queueSize + 3 then (s'.goto t (.flushing (store + 1)), none)
  else (s'.goto t .idle, some .flushed)

end State

/-- The next step of a thread: a new call, or the next step of the one it is in. -/
inductive Action where
  | push (record : Record)
  /-- With what `DosPostEventSem` returns. -/
  | fill (rc : ℕ)
  | pop
  | take
  /-- With the buffer of the caller, as long as the number of records asked for. -/
  | peek (buffer : List Record)
  | peekNext
  | flush
  | flushNext

/-- One step of thread `t` at `c`; `none` where it cannot take it. The keys that a text mode
session adds before a peek or a flush are pushes of their own. -/
def stepOf (s : State) (t : ℕ) : Call → Action → Option (State × Option Reply)
  | .idle, .push record => some (s.push t record)
  | .pushing slot record, .fill rc => some (s.fill t slot record rc)
  | .idle, .pop => some (if s.ulEvents = 0 then (s, some .empty) else (s.goto t .popping, none))
  | .popping, .take => some (s.take t)
  | .idle, .peek buffer =>
    let expected := (s.queue.map Prod.fst).take (min buffer.length s.ulEvents)
    some (if s.ulEvents = 0 then (s, some (.peeked [] expected))
      else (s.goto t (.peeking s.ulIndexEvent 0 buffer expected), none))
  | .peeking ulCurrentEvent ulCounter buffer expected, .peekNext =>
    some (s.peekNext t ulCurrentEvent ulCounter buffer expected)
  | .idle, .flush => some (s.goto t (.flushing 0), none)
  | .flushing store, .flushNext => some (s.flushNext t store)
  | _, _ => none

def step (s : State) (op : ℕ × Action) : Option (State × Option Reply) := do
  let c ← s.calls[op.1]?
  stepOf s op.1 c op.2

end Odin32.ConsoleInput
