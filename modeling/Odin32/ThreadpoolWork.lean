import Odin32.StepRun
import Mathlib.Data.Int.Notation
import Mathlib.Data.Nat.Notation

/-! # Thread pool work objects

`TPWORK` of `vistacompat.cpp`: one work object, the threads that use it, and its reference
count. A thread is the stack of the calls it is in; the callback may itself submit, wait for
and close the object. Each access to the object is a step. -/

set_option autoImplicit false

namespace Odin32.ThreadpoolWork

/-- A call a thread is in, by what it does next. -/
inductive Frame where
  /-- `SubmitThreadpoolWork` has taken its reference and is about to create the thread. -/
  | creating
  /-- No thread could be created: the callback is about to be called. -/
  | calling
  /-- The callback runs inside of `SubmitThreadpoolWork`. -/
  | inSubmit
  /-- It has returned, and its reference is about to be dropped. -/
  | afterSubmit
  /-- `tpwork_thread` is about to call the callback. -/
  | starting
  | inThread
  | afterThread
  | waiting
  /-- The reference dropped was the last one. -/
  | freeing
deriving DecidableEq

/-- The call has a reference of its own. -/
def Frame.holds : Frame → Bool
  | .creating | .calling | .inSubmit | .afterSubmit | .starting | .inThread | .afterThread => true
  | .waiting | .freeing => false

/-- The callback runs, and may call the functions. -/
def Frame.isCallback : Frame → Bool
  | .inSubmit | .inThread => true
  | _ => false

/-- The callback of the call has not returned. -/
def Frame.unfinished : Frame → Bool
  | .creating | .calling | .inSubmit | .starting | .inThread => true
  | _ => false

structure Thread where
  /-- A thread of the program, which calls the functions outside of any callback. -/
  outside : Bool
  stack : List Frame
deriving DecidableEq

/-- The thread can call one of the functions. -/
def Thread.free (t : Thread) : Bool :=
  match t.stack with
  | [] => t.outside
  | top :: _ => top.isCallback

structure State where
  refs : ℤ
  closed : Bool
  frees : ℕ
  /-- An access after the object was freed. -/
  misused : Bool
  threads : List Thread
deriving DecidableEq

/-- What `CreateThreadpoolWork` gives, among some threads of the program. -/
def init (outside : ℕ) : State where
  refs := 1
  closed := false
  frees := 0
  misused := false
  threads := List.replicate outside ⟨true, []⟩

inductive Action where
  | submit
  /-- `CreateThread`, with its success. -/
  | createThread (ok : Bool)
  | callback
  | callbackReturns
  | drop
  | wait
  | poll
  | close
  | free
deriving DecidableEq

namespace State

def touch (s : State) : State := { s with misused := s.misused || decide (0 < s.frees) }

def setStack (s : State) (i : ℕ) (t : Thread) (stack : List Frame) : State :=
  { s with threads := s.threads.set i { t with stack := stack } }

/-- One reference less, and the free of the object if it was the last. -/
def release (s : State) (i : ℕ) (t : Thread) (rest : List Frame) : State :=
  let s := { s.touch with refs := s.refs - 1 }
  if s.refs = 0 then s.setStack i t (.freeing :: rest) else s.setStack i t rest

end State

/-- The next step of thread `i`. -/
def stepOf (s : State) (i : ℕ) (t : Thread) : List Frame → Action → Option State
  | stack, .submit =>
    if t.free then
      some ({ s.touch with refs := s.refs + 1 }.setStack i t (.creating :: stack))
    else none
  | .creating :: rest, .createThread true =>
    let s := s.setStack i t rest
    some { s with threads := s.threads ++ [⟨false, [.starting]⟩] }
  | .creating :: rest, .createThread false => some (s.setStack i t (.calling :: rest))
  | .calling :: rest, .callback => some (s.touch.setStack i t (.inSubmit :: rest))
  | .starting :: rest, .callback => some (s.touch.setStack i t (.inThread :: rest))
  | .inSubmit :: rest, .callbackReturns => some (s.setStack i t (.afterSubmit :: rest))
  | .inThread :: rest, .callbackReturns => some (s.setStack i t (.afterThread :: rest))
  -- `SubmitThreadpoolWork` does not look at the count it leaves.
  | .afterSubmit :: rest, .drop =>
    some ({ s.touch with refs := s.refs - 1 }.setStack i t rest)
  | .afterThread :: rest, .drop => some (s.release i t rest)
  | stack, .wait => if t.free then some (s.setStack i t (.waiting :: stack)) else none
  | .waiting :: rest, .poll =>
    if 1 < s.refs then some s.touch else some (s.touch.setStack i t rest)
  | stack, .close =>
    if t.free && !s.closed then some ({ s with closed := true }.release i t stack) else none
  | .freeing :: rest, .free => some ({ s with frees := s.frees + 1 }.setStack i t rest)
  | _, _ => none

def step (s : State) (op : ℕ × Action) : Option State := do
  let t ← s.threads[op.1]?
  stepOf s op.1 t t.stack op.2

/-! ## What is promised -/

def State.frames (s : State) : List Frame := s.threads.flatMap Thread.stack

/-- No call is being made. -/
def State.Quiet (s : State) : Prop := s.frames = []

/-- The object is freed once, by the end, after the close and the last callback, and not
used any more. -/
structure Promised (s : State) : Prop where
  unused : s.misused = false
  once : s.frees ≤ 1
  last : 0 < s.frees → s.closed = true ∧ ∀ f ∈ s.frames, f.unfinished = false
  atEnd : s.closed = true → s.Quiet → s.frees = 1

end Odin32.ThreadpoolWork
