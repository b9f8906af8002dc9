import Odin32.Iocp
import Odin32.StepRun
import Mathlib.Data.List.Nodup

/-! # Completion ports and the handle table

The calls of `iocp.cpp` that make ports and associations, beside the table of open handles:
`CloseHandle` of files and of ports, and values used again by later objects. A call of
`CreateIoCompletionPort` with both halves can be interrupted between them. -/

set_option autoImplicit false

namespace Odin32.Iocp

/-- What an open handle stands for. -/
inductive Object where
  | file
  /-- The semaphore made for the port at an address. -/
  | semaphore (port : Addr)
  | other
deriving DecidableEq

structure World where
  iocp : State
  objects : Handle → Option Object
  /-- The port a thread's call of `CreateIoCompletionPort` has made. -/
  made : ℕ → Option Addr
  /-- For every call that returned `NULL`, the port it had made. -/
  nulls : List (Option Addr)

def world (threads : ℕ) : World where
  iocp := init threads
  objects _ := none
  made _ := none
  nulls := []

inductive WorldAction where
  /-- `CreateIoCompletionPort` is called. -/
  | create (t : ℕ) (fileHandle existing : Handle) (key : ℕ) (sem : Option Handle)
      (mem : Option Addr)
  | link (t : ℕ)
  | associate (t : ℕ) (mem : Bool)
  | odinIocpRemove (t : ℕ) (hFile : Handle)
  | remove (t : ℕ)
  | closeHandle (h : Handle)
  /-- An object that is no port is opened. -/
  | openHandle (h : Handle) (file : Bool)

/-- The last reply of a call is `NULL`. -/
def State.repliedNull (s s' : State) : Bool :=
  match s'.replies.drop s.replies.length with
  | [(_, .handle h _)] => h == 0
  | _ => false

namespace World

/-- The calls of the port functions. -/
def withIocp (w : World) (t : ℕ) (s' : State) : World :=
  { w with
    iocp := s'
    nulls := if w.iocp.repliedNull s' then w.nulls ++ [w.made t] else w.nulls }

/-- A new semaphore gets a value that no open handle has. -/
def create (w : World) (t : ℕ) (fileHandle existing : Handle) (key : ℕ) (sem : Option Handle)
    (mem : Option Addr) : Option World := do
  let s' ← Iocp.step w.iocp (t, .createIoCompletionPort fileHandle existing key sem mem)
  let w := { w with made := Function.update w.made t none }
  if existing ≠ 0 then return w.withIocp t s'
  match sem, mem with
  | some h, some p =>
    if w.objects h = none then
      return { w with
        objects := Function.update w.objects h (some (.semaphore p))
        made := Function.update w.made t (some p) }.withIocp t s'
    else none
  | _, _ => return w.withIocp t s'

/-- `HMDeviceFileClass::CloseHandle` drops the association of a file. -/
def closeHandle (w : World) (h : Handle) : World :=
  let assocs := match w.objects h with
    | some .file => w.iocp.assocs.eraseP fun a => a.hFile == h
    | _ => w.iocp.assocs
  { w with
    iocp := { w.iocp with assocs := assocs, sem := Function.update w.iocp.sem h none }
    objects := Function.update w.objects h none }

def step (w : World) : WorldAction → Option World
  | .create t fileHandle existing key sem mem => w.create t fileHandle existing key sem mem
  | .link t => (Iocp.step w.iocp (t, .linkPort)).map (w.withIocp t)
  | .associate t mem => (Iocp.step w.iocp (t, .associate mem)).map (w.withIocp t)
  | .odinIocpRemove t hFile => (Iocp.step w.iocp (t, .odinIocpRemove hFile)).map (w.withIocp t)
  | .remove t => (Iocp.step w.iocp (t, .remove)).map (w.withIocp t)
  | .closeHandle h => some (w.closeHandle h)
  | .openHandle h file =>
    if w.objects h = none then
      some { w with
        objects := Function.update w.objects h (some (if file then .file else .other)) }
    else none

/-- The port's semaphore is the object open under its handle. -/
def OpenPort (w : World) (p : Addr) : Prop :=
  ∃ port, w.iocp.portAt p = some port ∧ w.objects port.hSem = some (.semaphore p)

structure Consistent (w : World) : Prop where
  single : (w.iocp.assocs.map IocpAssoc.hFile).Nodup
  named : ∀ a ∈ w.iocp.assocs, a.port ∈ w.iocp.ports ∧ w.OpenPort a.port
  unchanged : ∀ made ∈ w.nulls, made = none

/-- No association names a port whose semaphore is closed; an association is made with a port
whose semaphore is open; and a call that has made its port succeeds. -/
def StepFits (w : World) : WorldAction → Prop
  | .closeHandle h => ∀ a ∈ w.iocp.assocs, ∀ port, w.iocp.portAt a.port = some port → port.hSem ≠ h
  | .associate t mem => ∀ existing fileHandle key,
      w.iocp.calls[t]? = some (.associating existing fileHandle key) →
        (w.iocp.findAssoc fileHandle = none → mem = true → ∀ p,
          w.iocp.findPort existing = some p → w.objects existing = some (.semaphore p)) ∧
        (w.made t ≠ none → w.iocp.findAssoc fileHandle = none ∧ mem = true)
  | _ => True

end World

end Odin32.Iocp
