import Odin32.LinkedList

/-! # I/O completion ports

A port is a counting semaphore and a queue of packets. Threads run the calls of `iocp.cpp`
step by step: a section under `iocpLock` is one step, except that the semaphore released
at the end of `enqueue` is a step of its own, with the lock still held. Wins and losses of
`malloc` and the handles and addresses handed out are part of an action. -/

set_option autoImplicit false

namespace Odin32.Iocp

open LinkedList

abbrev Handle := ℕ
abbrev Addr := ℕ

/-- What a packet says. -/
structure Packet where
  bytes : ℕ
  key : ℕ
  ov : ℕ
  status : ℕ
deriving DecidableEq

structure IocpPacket extends Packet where
  next : Option Addr

structure IocpPort where
  hSem : Handle
  head : Option Addr
  tail : Option Addr

structure IocpAssoc where
  hFile : Handle
  port : Addr
  key : ℕ

def invalidHandleValue : ℕ := 0xFFFFFFFF
def errorInvalidHandle : ℕ := 6
def errorNotEnoughMemory : ℕ := 8
def errorInvalidParameter : ℕ := 87
def waitTimeout : ℕ := 258

/-- The maximum `CreateIoCompletionPort` gives its semaphores. -/
def semaphoreMax : ℕ := 0x7FFFFFFF

/-- Where a thread stands. -/
inductive Call where
  | idle
  /-- `CreateIoCompletionPort` has its new port and is about to put it on the list. -/
  | linking (port : Addr) (hSem : Handle) (fileHandle : Handle) (key : ℕ)
  /-- `CreateIoCompletionPort` is about to associate the file. -/
  | associating (existing : Handle) (fileHandle : Handle) (key : ℕ)
  /-- The packet is queued, its semaphore not yet released; the lock is held. -/
  | releasing (port : Addr)
  /-- In the wait of `GetQueuedCompletionStatus`. -/
  | waiting (port : Addr) (completionPort : Handle)
  /-- The wait was satisfied. -/
  | woken (port : Addr)
  | completing (hFile : Handle) (ov bytes status : ℕ)
  | removing (hFile : Handle)
deriving DecidableEq

def Call.isReleasing : Call → Bool
  | .releasing _ => true
  | _ => false

/-- What a call returns, with the error it leaves. -/
inductive Reply where
  | handle (h : Handle) (error : Option ℕ)
  | bool (ok : Bool) (error : Option ℕ)
  | packet (ok : Bool) (bytes key ov : ℕ) (error : Option ℕ)
  /-- `GetQueuedCompletionStatus` failed and left `*lpOverlapped` at `NULL`. -/
  | noPacket (error : ℕ)
  | void

structure State where
  ports : List Addr
  portAt : Addr → Option IocpPort
  assocs : List IocpAssoc
  heap : Addr → Option IocpPacket
  sem : Handle → Option ℕ
  calls : List Call
  replies : List (ℕ × Reply)
  /-- The packets a port was given by calls that return `TRUE`, in order. -/
  entered : Addr → List Packet
  /-- The packets that calls of `GetQueuedCompletionStatus` took from a port, in order. -/
  handed : Addr → List Packet

def init (threads : ℕ) : State where
  ports := []
  portAt _ := none
  assocs := []
  heap _ := none
  sem _ := none
  calls := List.replicate threads .idle
  replies := []
  entered _ := []
  handed _ := []

namespace State

def goto (s : State) (t : ℕ) (c : Call) : State := { s with calls := s.calls.set t c }

def reply (s : State) (t : ℕ) (r : Reply) : State :=
  { s with calls := s.calls.set t .idle, replies := s.replies ++ [(t, r)] }

def findPort (s : State) (h : Handle) : Option Addr :=
  s.ports.find? fun p => (s.portAt p).any fun port => port.hSem == h

def findAssoc (s : State) (hFile : Handle) : Option IocpAssoc :=
  s.assocs.find? fun a => a.hFile == hFile

/-- `iocpLock` is taken between two steps of a thread only while it releases a semaphore. -/
def locked (s : State) : Bool := s.calls.any Call.isReleasing

/-- `port->tail->next = pkt`, or the packet as the first one. -/
def link (s : State) (p : Addr) (port : IocpPort) (pkt : Packet) (a : Addr) : State :=
  let heap := Function.update s.heap a (some { pkt with next := none })
  match port.tail with
  | some tail =>
    { s with
      heap := Function.update heap tail ((heap tail).map fun last => { last with next := some a })
      portAt := Function.update s.portAt p (some { port with tail := some a }) }
  | none =>
    { s with
      heap := heap
      portAt := Function.update s.portAt p (some { port with head := some a, tail := some a }) }

/-- `enqueue` in a call that returns `TRUE` whatever becomes of it. -/
def enqueue (s : State) (t : ℕ) (p : Addr) (pkt : Packet) (mem : Option Addr) : Option State :=
  let s' := { s with entered := Function.update s.entered p (s.entered p ++ [pkt]) }
  match mem with
  | none => some (s'.reply t (.bool true none))
  | some a =>
    match s.portAt p, s.heap a with
    | some port, none => some ((s'.link p port pkt a).goto t (.releasing p))
    | _, _ => none

/-- `CreateIoCompletionPort` once it has a port. -/
def withPort (s : State) (t : ℕ) (existing fileHandle : Handle) (key : ℕ) : State :=
  if fileHandle ≠ invalidHandleValue then
    s.goto t (.associating existing fileHandle key)
  else
    s.reply t (.handle existing none)

/-- The section of `CreateIoCompletionPort` that associates the file. -/
def associate (s : State) (t : ℕ) (existing fileHandle : Handle) (key : ℕ) (mem : Bool) : State :=
  match s.findPort existing with
  | none => s.reply t (.handle 0 (some errorInvalidParameter))
  | some p =>
    match s.findAssoc fileHandle with
    | some _ => s.reply t (.handle 0 (some errorInvalidParameter))
    | none =>
      if mem then
        { s with assocs := ⟨fileHandle, p, key⟩ :: s.assocs }.reply t (.handle existing none)
      else
        s.reply t (.handle 0 (some errorNotEnoughMemory))

/-- What `GetQueuedCompletionStatus` tells of the packet it took. -/
def packetReply (pkt : Packet) : Reply :=
  .packet (pkt.status = 0) pkt.bytes pkt.key pkt.ov (if pkt.status = 0 then none else some pkt.status)

/-- The second section of `GetQueuedCompletionStatus`. Once off the queue the packet is known
to this thread only, so that reading and freeing it belong to the same step. -/
def dequeue (s : State) (t : ℕ) (p : Addr) : Option State := do
  let port ← s.portAt p
  match port.head with
  | none => some (s.reply t (.noPacket waitTimeout))
  | some a => do
    let pkt ← s.heap a
    let tail := if pkt.next = none then none else port.tail
    some ({ s with
      portAt := Function.update s.portAt p (some { port with head := pkt.next, tail := tail })
      heap := Function.update s.heap a none
      handed := Function.update s.handed p (s.handed p ++ [pkt.toPacket]) }.reply t
        (packetReply pkt.toPacket))

end State

/-- The next step of a thread: a new call, or the next step of the one it is in. -/
inductive Action where
  /-- With the semaphore `CreateSemaphoreA` made and the block `calloc` gave. -/
  | createIoCompletionPort (fileHandle existing : Handle) (key : ℕ) (sem : Option Handle)
      (mem : Option Addr)
  | linkPort
  | associate (mem : Bool)
  | postQueuedCompletionStatus (completionPort : Handle) (bytes key ov : ℕ) (mem : Option Addr)
  | releaseSemaphore
  | getQueuedCompletionStatus (completionPort : Handle)
  | waitForSingleObject
  | timeout
  | dequeue
  | odinIocpComplete (hFile : Handle) (ov bytes status : ℕ)
  | complete (mem : Option Addr)
  | odinIocpRemove (hFile : Handle)
  | remove

open State

/-- A step outside the lock. -/
def stepFree (s : State) (t : ℕ) : Call → Action → Option State
  | .idle, .createIoCompletionPort fileHandle existing key sem mem =>
    if existing ≠ 0 then some (s.withPort t existing fileHandle key)
    else
      match sem with
      | none => some (s.reply t (.handle 0 none))
      | some h =>
        if s.sem h = none ∧ h ≠ 0 then
          match mem with
          | none => some (s.reply t (.handle 0 (some errorNotEnoughMemory)))
          | some p =>
            if s.portAt p = none then
              some ({ s with
                portAt := Function.update s.portAt p (some ⟨h, none, none⟩)
                sem := Function.update s.sem h (some 0) }.goto t (.linking p h fileHandle key))
            else none
        else none
  | .waiting p completionPort, .waitForSingleObject =>
    match s.sem completionPort with
    | some (n + 1) =>
      some ({ s with sem := Function.update s.sem completionPort (some n) }.goto t (.woken p))
    | _ => none
  | .waiting _ _, .timeout => some (s.reply t (.noPacket waitTimeout))
  | .idle, .odinIocpComplete hFile ov bytes status =>
    if s.assocs.isEmpty then some (s.reply t (.bool false none))
    else some (s.goto t (.completing hFile ov bytes status))
  | .idle, .odinIocpRemove hFile =>
    if s.assocs.isEmpty then some (s.reply t .void) else some (s.goto t (.removing hFile))
  | .releasing p, .releaseSemaphore =>
    match s.portAt p with
    | none => none
    | some port =>
      match s.sem port.hSem with
      | none => none
      | some n =>
        -- `ReleaseSemaphore` fails at the maximum, and nobody looks at its result.
        let count := if n < semaphoreMax then n + 1 else n
        some ({ s with sem := Function.update s.sem port.hSem (some count) }.reply t
          (.bool true none))
  | _, _ => none

/-- A step that takes the lock. -/
def stepLocked (s : State) (t : ℕ) : Call → Action → Option State
  | .linking p h fileHandle key, .linkPort =>
    some ({ s with ports := p :: s.ports }.withPort t h fileHandle key)
  | .associating existing fileHandle key, .associate mem =>
    some (s.associate t existing fileHandle key mem)
  | .idle, .postQueuedCompletionStatus completionPort bytes key ov mem =>
    match s.findPort completionPort with
    | none => some (s.reply t (.bool false (some errorInvalidHandle)))
    | some p => s.enqueue t p ⟨bytes, key, ov, 0⟩ mem
  | .idle, .getQueuedCompletionStatus completionPort =>
    match s.findPort completionPort with
    | none => some (s.reply t (.noPacket errorInvalidHandle))
    | some p => some (s.goto t (.waiting p completionPort))
  | .woken p, .dequeue => s.dequeue t p
  | .completing hFile ov bytes status, .complete mem =>
    match s.findAssoc hFile with
    | none => some (s.reply t (.bool false none))
    | some a => s.enqueue t a.port ⟨bytes, a.key, ov, status⟩ mem
  | .removing hFile, .remove =>
    some ({ s with assocs := s.assocs.eraseP fun a => a.hFile == hFile }.reply t .void)
  | _, _ => none

/-- One step of thread `t`; `none` where the thread cannot take it. -/
def step (s : State) (op : ℕ × Action) : Option State := do
  let c ← s.calls[op.1]?
  match stepFree s op.1 c op.2 with
  | some s' => some s'
  | none => if s.locked then none else stepLocked s op.1 c op.2

def run : List (ℕ × Action) → State → Option State
  | [], s => some s
  | op :: ops, s => (step s op).bind (run ops)

end Odin32.Iocp
