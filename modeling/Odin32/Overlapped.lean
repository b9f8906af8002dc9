import Odin32.LinkedList

/-! # Overlapped I/O

The requests of an `OverlappedIOHandler`, on the lists of `overlappedio.cpp`. Client threads
run `ReadFile`, `WriteFile`, `WaitForEvent` and `CancelIo`, worker threads run
`threadHandler`. A section under `critsect`, an operation on an event, a call of a device's
handler and an access to what other threads see are steps of their own. Requests are named
in the order of their allocation, so that a name never stands for two of them. -/

set_option autoImplicit false

namespace Odin32.Overlapped

open LinkedList

abbrev Handle := ℕ
abbrev Addr := ℕ
abbrev Ref := ℕ

/-- The four lists, and the worker that takes from the list. -/
inductive Index where
  | read
  | write
  | poll
  | busy
deriving DecidableEq

def asyncioRead : ℕ := 1
def asyncioWrite : ℕ := 2
def asyncioReadWrite : ℕ := 4
def asyncioPoll : ℕ := 8

def statusPending : ℕ := 0x103
def errorSuccess : ℕ := 0
def errorNotEnoughMemory : ℕ := 8
def errorInvalidParameter : ℕ := 87
def errorOperationAborted : ℕ := 995
def errorIoPending : ℕ := 997
def infinite : ℕ := 0xFFFFFFFF

structure AsyncIoRequest where
  dwAsyncType : ℕ
  hHandle : Handle
  lpOverlapped : Addr
  lpdwResult : Option Addr
  dwLastError : ℕ
  fCancelled : Bool
  next : Option Ref

/-- The application's `OVERLAPPED`. -/
structure OverlappedIo where
  internal : ℕ
  internalHigh : ℕ
  hEvent : Handle

/-- The handlers a device comes with; it always has one for reading. -/
structure Device where
  lpWriteHandler : Bool
  lpPollHandler : Bool
  fFullDuplex : Bool

/-- The flags the constructor collects. -/
def Device.dwAsyncType (d : Device) : ℕ :=
  (if d.lpWriteHandler && d.fFullDuplex then asyncioRead ||| asyncioWrite else asyncioReadWrite) |||
    (if d.lpPollHandler then asyncioPoll else 0)

/-- The list `WriteFile` adds to. -/
def Device.writeIndex (d : Device) : Index :=
  if d.dwAsyncType &&& asyncioReadWrite ≠ 0 then .read else .write

/-- Where a client thread stands. -/
inductive Call where
  | idle
  /-- About to reset `hEvent`, for a request that is to go on a list. -/
  | resetting (i : Index) (a : Ref) (ov : Addr)
  /-- In the handler, called by `WaitForEvent` itself. -/
  | polling (a : Ref) (ov : Addr)
  | signalling (a : Ref) (ov : Addr) (error : ℕ)
  | deleting (a : Ref) (error : ℕ)
  | adding (i : Index) (a : Ref) (ov : Addr)
  /-- The request is on its list, the worker's event not yet set. -/
  | waking (i : Index) (a : Ref) (ov : Addr)
  /-- `CancelIo` about to search a list. -/
  | cancelling (hHandle : Handle) (i : Index)
  /-- About to set `fCancelled` of the request it took off the list. -/
  | marking (hHandle : Handle) (i : Index) (a : Ref)
  /-- About to set `Internal`. -/
  | aborting (hHandle : Handle) (i : Index) (a : Ref)
  | settingCancel (hHandle : Handle) (i : Index) (a : Ref)
  | freeing (hHandle : Handle) (i : Index) (a : Ref)
deriving DecidableEq

/-- Where a worker thread stands. -/
inductive Worker where
  | absent
  /-- In the wait for its event or `hEventExit`. -/
  | waiting
  /-- About to look for the next job. -/
  | looking
  | taken (a : Ref)
  /-- In a handler: the one for reading or the one for writing. -/
  | handling (a : Ref) (ov : Addr) (reads : Bool)
  | polling (a : Ref) (ov : Addr)
  /-- In the wait between two calls of the poll handler. -/
  | pollWaiting (a : Ref) (ov : Addr) (dwTimeOut : ℕ)
  /-- About to look at `fCancelled`. -/
  | returned (a : Ref) (ov : Addr) (dwResult : ℕ)
  | storing (a : Ref) (ov : Addr) (dwResult : ℕ)
  | signalling (a : Ref) (ov : Addr)
  | removing (a : Ref)
  | deleting (a : Ref)
  | exited
deriving DecidableEq

/-- What a call returns, with the error it leaves. -/
inductive Reply where
  | failed (error : ℕ)
  /-- `FALSE` and `ERROR_IO_PENDING`, for this request. -/
  | pending (a : Ref) (ov : Addr)
  /-- `WaitForEvent` had the answer at once. -/
  | answered (ok : Bool) (error : ℕ)
  | cancelled
deriving DecidableEq

structure State where
  device : Device
  heap : Ref → Option AsyncIoRequest
  allocated : ℕ
  pending : Index → Option Ref
  overlapped : Addr → OverlappedIo
  results : Addr → ℕ
  /-- The events of the application. -/
  event : Handle → Bool
  /-- `hEventRead`, `hEventWrite` and `hEventPoll`. -/
  wakeup : Index → Bool
  hEventExit : Bool
  hEventCancel : Bool
  calls : List Call
  worker : Index → Worker
  replies : List (ℕ × Reply)
  /-- A request was read, written or deleted after its deletion. -/
  usedDeleted : Bool
  deletions : List Ref
  /-- The requests a list was given, and those its worker took, in order. -/
  added : Index → List Ref
  served : Index → List Ref
  /-- The requests whose `hEvent` was set for them, each time it was. -/
  signals : List Ref
  /-- The requests `CancelIo` took off a list. -/
  cancelled : List Ref
  /-- The requests whose wait between two polls `hEventCancel` ended. -/
  aborted : List Ref

/-- The threads the constructor makes. -/
def Device.workers (d : Device) : Index → Worker
  | .read => .waiting
  | .write => if d.lpWriteHandler && d.fFullDuplex then .waiting else .absent
  | .poll => if d.lpPollHandler then .waiting else .absent
  | .busy => .absent

def init (device : Device) (threads : ℕ) (overlapped : Addr → OverlappedIo) : State where
  device := device
  heap _ := none
  allocated := 0
  pending _ := none
  overlapped := overlapped
  results _ := 0
  event _ := false
  wakeup _ := false
  hEventExit := false
  hEventCancel := false
  calls := List.replicate threads .idle
  worker := device.workers
  replies := []
  usedDeleted := false
  deletions := []
  added _ := []
  served _ := []
  signals := []
  cancelled := []
  aborted := []

namespace State

def goto (s : State) (t : ℕ) (c : Call) : State := { s with calls := s.calls.set t c }

def reply (s : State) (t : ℕ) (r : Reply) : State :=
  { s with calls := s.calls.set t .idle, replies := s.replies ++ [(t, r)] }

def work (s : State) (w : Index) (p : Worker) : State :=
  { s with worker := Function.update s.worker w p }

def setPending (s : State) (i : Index) (head : Option Ref) : State :=
  { s with pending := Function.update s.pending i head }

def deref (s : State) (a : Ref) : Except Trap AsyncIoRequest :=
  match s.heap a with
  | some r => .ok r
  | none => .error .dangling

def write (s : State) (a : Ref) (f : AsyncIoRequest → AsyncIoRequest) : Except Trap State := do
  let r ← s.deref a
  return { s with heap := Function.update s.heap a (some (f r)) }

def setNext (s : State) (a : Ref) (next : Option Ref) : Except Trap State :=
  s.write a fun r => { r with next := next }

def delete (s : State) (a : Ref) : Except Trap State := do
  let _ ← s.deref a
  return { s with heap := Function.update s.heap a none, deletions := s.deletions ++ [a] }

def store (s : State) (ov : Addr) (internal internalHigh : ℕ) : State :=
  let o := s.overlapped ov
  { s with
    overlapped := Function.update s.overlapped ov
      { o with internal := internal, internalHigh := internalHigh } }

def storeResult (s : State) (lpdwResult : Option Addr) (dwResult : ℕ) : State :=
  match lpdwResult with
  | none => s
  | some p => { s with results := Function.update s.results p dwResult }

/-- `SetEvent(lpOverlapped->hEvent)` for a request. -/
def signal (s : State) (a : Ref) (ov : Addr) : State :=
  { s with
    event := Function.update s.event (s.overlapped ov).hEvent true
    signals := s.signals ++ [a] }

/-- A walk over a list; no list is longer than the number of requests there have been. -/
def walk (s : State) (stop : Ref → AsyncIoRequest → Bool) (first : Ref) :
    Except Trap (Ref × Option Ref) :=
  seek AsyncIoRequest.next s.heap stop s.allocated first

def findAndRemoveRequest (s : State) (index : Index) (hHandle : Handle) :
    Except Trap (State × Option Ref) :=
  match s.pending index with
  | none => return (s, none)
  | some first => do
    let r ← s.deref first
    if r.hHandle ≠ hHandle then
      match ← s.walk (fun _ r => r.hHandle == hHandle) first with
      | (_, none) => return (s, none)
      | (lpRequest, some lpFound) =>
        let found ← s.deref lpFound
        let s ← s.setNext lpRequest found.next
        return (s, some lpFound)
    else
      return (s.setPending index r.next, some first)

def addRequest (s : State) (index : Index) (lpRequest : Ref) : Except Trap State :=
  match s.pending index with
  | none => return s.setPending index (some lpRequest)
  | some first => do
    let (last, _) ← s.walk (fun _ _ => false) first
    s.setNext last (some lpRequest)

def removeRequest (s : State) (index : Index) (lpRequest : Ref) : Except Trap State :=
  match s.pending index with
  | none => return s
  | some first =>
    if first = lpRequest then do
      let r ← s.deref lpRequest
      return s.setPending index r.next
    else do
      match ← s.walk (fun a _ => a == lpRequest) first with
      | (_, none) => return s
      | (current, some _) =>
        let r ← s.deref lpRequest
        s.setNext current r.next

/-- The beginning `ReadFile`, `WriteFile` and `WaitForEvent` have in common; `mem` tells
whether there is memory for the request. -/
def submit (s : State) (t : ℕ) (index : Index) (dwAsyncType : ℕ) (hHandle : Handle)
    (lpdwResult : Option Addr) (lpOverlapped : Option Addr) (mem : Bool) : State :=
  match lpOverlapped with
  | none => s.reply t (.failed errorInvalidParameter)
  | some ov =>
    if (s.overlapped ov).hEvent = 0 then s.reply t (.failed errorInvalidParameter)
    else if index = .poll ∧ s.device.lpPollHandler = false then
      s.reply t (.failed errorInvalidParameter)
    else if mem = false then s.reply t (.failed errorNotEnoughMemory)
    else
      let a := s.allocated
      let lpRequest : AsyncIoRequest := ⟨dwAsyncType, hHandle, ov, lpdwResult, 0, false, none⟩
      ({ s with
        heap := Function.update s.heap a (some lpRequest)
        allocated := a + 1 }.store ov statusPending 0).goto t (.resetting index a ov)

/-- `CancelIo` goes on to the list after `i`. -/
def cancelNext (s : State) (t : ℕ) (hHandle : Handle) : Index → State
  | .read => s.goto t (.cancelling hHandle .write)
  | .write => s.goto t (.cancelling hHandle .poll)
  | .poll => s.goto t (.cancelling hHandle .busy)
  | .busy => s.reply t .cancelled

end State

/-- The next step of a client: a new call, or the next step of the one it is in. -/
inductive ClientAction where
  | readFile (hHandle : Handle) (lpOverlapped : Option Addr) (mem : Bool)
  | writeFile (hHandle : Handle) (lpOverlapped : Option Addr) (mem : Bool)
  | waitForEvent (hHandle : Handle) (lpfdwEvtMask lpOverlapped : Option Addr) (mem : Bool)
  | cancelIo (hHandle : Handle)
  | proceed
  /-- The poll handler returns to `WaitForEvent`. -/
  | handlerReturns (dwLastError dwResult : ℕ)

inductive WorkerAction where
  | proceed
  /-- A handler reads the request. -/
  | handlerReads
  | handlerReturns (dwLastError dwResult dwTimeOut : ℕ)
  | timeout

inductive Op where
  | client (t : ℕ) (act : ClientAction)
  | worker (w : Index) (act : WorkerAction)

open State

/-- A step of client `t`; `none` where it cannot take it. -/
def stepClient (s : State) (t : ℕ) : Call → ClientAction → Option (Except Trap State)
  | .idle, .readFile hHandle lpOverlapped mem =>
    some (.ok (s.submit t .read asyncioRead hHandle none lpOverlapped mem))
  | .idle, .writeFile hHandle lpOverlapped mem =>
    some (.ok (s.submit t s.device.writeIndex asyncioWrite hHandle none lpOverlapped mem))
  | .idle, .waitForEvent hHandle lpfdwEvtMask lpOverlapped mem =>
    some (.ok (s.submit t .poll asyncioPoll hHandle lpfdwEvtMask lpOverlapped mem))
  | .idle, .cancelIo hHandle => some (.ok (s.goto t (.cancelling hHandle .read)))
  | .resetting i a ov, .proceed =>
    let s' := { s with event := Function.update s.event (s.overlapped ov).hEvent false }
    some (.ok (s'.goto t (if i = .poll then .polling a ov else .adding i a ov)))
  | .polling a ov, .handlerReturns dwLastError dwResult => some do
    let r ← s.deref a
    if dwLastError ≠ errorIoPending then
      return ((s.store ov dwLastError dwResult).storeResult r.lpdwResult dwResult).goto t
        (.signalling a ov dwLastError)
    else
      return s.goto t (.adding .poll a ov)
  | .signalling a ov error, .proceed => some (.ok ((s.signal a ov).goto t (.deleting a error)))
  | .deleting a error, .proceed => some do
    let s ← s.delete a
    return s.reply t (.answered (error = errorSuccess) error)
  | .adding i a ov, .proceed => some do
    let s ← s.addRequest i a
    return { s with added := Function.update s.added i (s.added i ++ [a]) }.goto t
      (.waking i a ov)
  | .waking i a ov, .proceed =>
    some (.ok ({ s with wakeup := Function.update s.wakeup i true }.reply t (.pending a ov)))
  | .cancelling hHandle i, .proceed => some do
    match ← s.findAndRemoveRequest i hHandle with
    | (s, none) => return s.cancelNext t hHandle i
    | (s, some a) =>
      return { s with cancelled := s.cancelled ++ [a] }.goto t (.marking hHandle i a)
  | .marking hHandle i a, .proceed => some do
    let s ← s.write a fun r => { r with fCancelled := true }
    return s.goto t (.aborting hHandle i a)
  | .aborting hHandle i a, .proceed => some do
    let r ← s.deref a
    let o := s.overlapped r.lpOverlapped
    return (s.store r.lpOverlapped errorOperationAborted o.internalHigh).goto t
      (.settingCancel hHandle i a)
  | .settingCancel hHandle i a, .proceed =>
    some (.ok ({ s with hEventCancel := true }.goto t
      (if i ≠ Index.busy then .freeing hHandle i a else .cancelling hHandle i)))
  | .freeing hHandle i a, .proceed => some do
    let s ← s.delete a
    return s.goto t (.cancelling hHandle i)
  | _, _ => none

/-- A step of the worker of list `w`. -/
def stepWorker (s : State) (w : Index) : Worker → WorkerAction → Option (Except Trap State)
  | .waiting, .proceed =>
    if s.wakeup w then
      some (.ok ({ s with wakeup := Function.update s.wakeup w false }.work w .looking))
    else if s.hEventExit then some (.ok (s.work w .exited))
    else none
  | .looking, .proceed =>
    match s.pending w with
    | none => some (.ok (s.work w .waiting))
    | some a => some do
      let r ← s.deref a
      let s ← (s.setPending w r.next).setNext a (s.pending .busy)
      return { s.setPending .busy (some a) with
        served := Function.update s.served w (s.served w ++ [a]) }.work w (.taken a)
  | .taken a, .proceed => some do
    let r ← s.deref a
    if w = .poll then
      return s.work w (.polling a r.lpOverlapped)
    else
      return s.work w (.handling a r.lpOverlapped
        (r.dwAsyncType == asyncioRead || !s.device.lpWriteHandler))
  | .handling a _ _, .handlerReads => some do
    let _ ← s.deref a
    return s
  | .handling a ov _, .handlerReturns dwLastError dwResult _ => some do
    let s ← s.write a fun r => { r with dwLastError := dwLastError }
    return s.work w (.returned a ov dwResult)
  | .polling a _, .handlerReads => some do
    let _ ← s.deref a
    return s
  | .polling a ov, .handlerReturns dwLastError dwResult dwTimeOut => some do
    let s ← s.write a fun r => { r with dwLastError := dwLastError }
    if dwLastError ≠ errorIoPending ∨ dwTimeOut = 0 then
      return s.work w (.returned a ov dwResult)
    else
      return s.work w (.pollWaiting a ov dwTimeOut)
  | .pollWaiting a _ _, .proceed =>
    if s.hEventCancel then some (.ok ({ s with aborted := s.aborted ++ [a] }.work w (.removing a)))
    else if s.hEventExit then some (.ok (s.work w (.removing a)))
    else none
  | .pollWaiting a ov dwTimeOut, .timeout =>
    if s.hEventCancel ∨ s.hEventExit ∨ dwTimeOut = infinite then none
    else some (.ok (s.work w (.polling a ov)))
  | .returned a ov dwResult, .proceed => some do
    let r ← s.deref a
    return s.work w (if r.fCancelled then .removing a else .storing a ov dwResult)
  | .storing a ov dwResult, .proceed => some do
    let r ← s.deref a
    let s := s.store ov r.dwLastError dwResult
    let s := if w = .poll then s.storeResult r.lpdwResult dwResult else s
    return s.work w (.signalling a ov)
  | .signalling a ov, .proceed => some (.ok ((s.signal a ov).work w (.removing a)))
  | .removing a, .proceed => some do
    let s ← s.removeRequest .busy a
    return s.work w (.deleting a)
  | .deleting a, .proceed => some do
    let s ← s.delete a
    return s.work w .looking
  | _, _ => none

/-- What becomes of a state: a use of a deleted request is the end of the run, and a walk
that does not end is no step. -/
def State.absorb (s : State) : Except Trap State → Option State
  | .ok s' => some s'
  | .error .dangling => some { s with usedDeleted := true }
  | .error .endless => none

/-- One step of one thread; `none` where the thread cannot take it. -/
def step (s : State) (op : Op) : Option State :=
  if s.usedDeleted then none
  else
    match op with
    | .client t act => do
      let c ← s.calls[t]?
      let r ← stepClient s t c act
      s.absorb r
    | .worker w act => do
      let r ← stepWorker s w (s.worker w) act
      s.absorb r

def run : List Op → State → Option State
  | [], s => some s
  | op :: ops, s => (step s op).bind (run ops)

/-- The clients have returned, and no worker can take a step. -/
def State.Quiescent (s : State) : Prop :=
  (∀ c ∈ s.calls, c = .idle) ∧ ∀ w act, step s (.worker w act) = none

end Odin32.Overlapped
