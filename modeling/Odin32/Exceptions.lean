import Mathlib.Data.Nat.Notation

/-! # Exception frames

The chain of exception frames of a thread, the walk of `RtlDispatchException` over it, the
walk of `OS2RtlUnwind`, and the exception record of `OS2RaiseException`. Memory is read a
double word at a time. A handler is known by its address; what it returns, and what it
leaves in the dispatcher argument, is part of the environment. Both walks leave a log of
the frames they read and the handlers they call. -/

set_option autoImplicit false

namespace Odin32.Exceptions

abbrev Addr := ℕ
abbrev Memory := Addr → ℕ
abbrev Flags := BitVec 32

def ehNonContinuable : Flags := 0x01
def ehUnwinding : Flags := 0x02
def ehExitUnwind : Flags := 0x04
def ehStackInvalid : Flags := 0x08
def ehNestedCall : Flags := 0x10

def exceptionContinueExecution : ℕ := 0
def exceptionContinueSearch : ℕ := 1
def exceptionNestedException : ℕ := 2
def exceptionCollidedUnwind : ℕ := 3

/-- `sizeof(WINEXCEPTION_FRAME)`. -/
def sizeofFrame : ℕ := 8

/-- `WINEXCEPTION_MAXIMUM_PARAMETERS`, the length of `ExceptionInformation`. -/
def maximumParameters : ℕ := 15

/-- A handler, given the flags of the record and its frame: its disposition, and the frame
it leaves in the dispatcher argument. -/
abbrev Handler := Flags → Addr → ℕ × Addr

structure Env where
  mem : Memory
  stackLow : Addr
  stackTop : Addr
  /-- The address of `__seh_handler_win32`. -/
  sehHandlerWin32 : Addr
  handlers : Addr → Handler

namespace Env

/-- `pFrame->Handler`. -/
def handler (env : Env) (frame : Addr) : Addr := env.mem (frame + 4)

/-- `__seh_get_prev_frame_win32`. -/
def prevFrame (env : Env) (frame : Addr) : Addr :=
  if env.handler frame = env.sehHandlerWin32 then env.mem (frame + 60) else env.mem frame

/-- The check of the frame address. -/
def OnStack (env : Env) (frame : Addr) : Prop :=
  env.stackLow ≤ frame ∧ frame + sizeofFrame ≤ env.stackTop ∧ frame &&& 3 = 0

instance (env : Env) (frame : Addr) : Decidable (env.OnStack frame) :=
  inferInstanceAs (Decidable (_ ∧ _ ∧ _))

end Env

/-- The last page of the address space marks the end of a chain. -/
def LastPage (frame : Addr) : Prop := frame &&& 0xFFFFF000 = 0xFFFFF000

instance (frame : Addr) : Decidable (LastPage frame) := inferInstanceAs (Decidable (_ = _))

def excRaiseHandler (mem : Memory) : Handler := fun flags frame =>
  if flags &&& (ehUnwinding ||| ehExitUnwind) ≠ 0 then (exceptionContinueSearch, 0)
  else (exceptionNestedException, mem (frame + sizeofFrame))

def excUnwindHandler (mem : Memory) : Handler := fun flags frame =>
  if flags &&& (ehUnwinding ||| ehExitUnwind) = 0 then (exceptionContinueSearch, 0)
  else (exceptionCollidedUnwind, mem (frame + sizeofFrame))

/-- The nested frame that `EXC_CallHandler` builds at `newframe` and pushes. -/
def pushNested (mem : Memory) (newframe except nestedHandler frame : Addr) : Memory := fun a =>
  if a = newframe then except
  else if a = newframe + 4 then nestedHandler
  else if a = newframe + sizeofFrame then frame
  else mem a

inductive Event where
  /-- The link and the handler of a frame are read. -/
  | read (frame : Addr)
  /-- The handler of a frame is called. -/
  | call (frame : Addr) (flags : Flags)
deriving DecidableEq

def Event.callee : Event → Option Addr
  | .read _ => none
  | .call frame _ => some frame

/-- The frames whose handlers were called, in order. -/
def calledFrames (events : List Event) : List Addr := events.filterMap Event.callee

/-- The call made at a frame, when there is a handler. -/
def callEvents (env : Env) (flags : Flags) (frame : Addr) : List Event :=
  if env.handler frame ≠ 0 then [.call frame flags] else []

/-- `EXC_CallHandler`, or the disposition of a frame without a handler. The nested frame is
off the chain again when the handler has returned. -/
def excCallHandler (env : Env) (flags : Flags) (frame : Addr) : ℕ × Addr × List Event :=
  if env.handler frame ≠ 0 then
    let (rc, dispatch) := env.handlers (env.handler frame) flags frame
    (rc, dispatch, [.call frame flags])
  else
    (exceptionContinueSearch, 0, [])

/-! ## Dispatch -/

structure Dispatched where
  rc : ℕ
  flags : Flags
  events : List Event

/-- The loop of `RtlDispatchException` from a frame on; the bound is on its rounds. -/
def rtlDispatchFrom (env : Env) : ℕ → Addr → Addr → Flags → ℕ → Option Dispatched
  | 0, _, _, _, _ => none
  | fuel + 1, frame, nestedFrame, flags, rc =>
    if frame = 0 ∨ LastPage frame then some ⟨rc, flags, []⟩
    else if frame = env.prevFrame frame then some ⟨0, flags, [.read frame]⟩
    else if ¬ env.OnStack frame then some ⟨rc, flags ||| ehStackInvalid, [.read frame]⟩
    else
      let (rc, dispatch, called) := excCallHandler env flags frame
      let unnested := frame = nestedFrame
      let nestedFrame := if unnested then 0 else nestedFrame
      let flags := if unnested then flags &&& ~~~ehNestedCall else flags
      if rc = exceptionContinueExecution ∧ flags &&& ehNonContinuable = 0 then
        some ⟨rc, flags, .read frame :: called⟩
      else
        let nested := rc = exceptionNestedException
        let nestedFrame := if nested then max nestedFrame dispatch else nestedFrame
        let flags := if nested then flags ||| ehNestedCall else flags
        (rtlDispatchFrom env fuel (env.prevFrame frame) nestedFrame flags rc).map fun rest =>
          { rest with events := .read frame :: called ++ rest.events }

/-- `RtlDispatchException` with the chain at `except`. -/
def rtlDispatchException (env : Env) (fuel : ℕ) (except : Addr) (flags : Flags) :
    Option Dispatched :=
  rtlDispatchFrom env fuel except 0 flags exceptionContinueSearch

/-! ## The record of a raised exception -/

structure ExceptionRecord where
  exceptionCode : ℕ
  exceptionFlags : Flags
  numberParameters : ℕ
  exceptionAddress : Addr
  /-- The stores to `ExceptionInformation`, by index. -/
  stores : List (ℕ × ℕ)

/-- The record that `OS2RaiseException` builds before it dispatches. -/
def raiseRecord (mem : Memory) (dwExceptionCode : ℕ) (dwExceptionFlags : Flags)
    (cArguments lpArguments eip : ℕ) : ExceptionRecord where
  exceptionCode := dwExceptionCode
  exceptionFlags := dwExceptionFlags
  numberParameters := cArguments
  exceptionAddress := eip
  stores :=
    if lpArguments ≠ 0 then
      (List.range cArguments).map fun i => (i, mem (lpArguments + 4 * i))
    else []

/-! ## Unwinding -/

inductive Unwound where
  /-- With the head of the thread's chain. -/
  | returned (except : Addr) (events : List Event)
  /-- `DosExit(EXIT_THREAD, 0)`. -/
  | exitThread
deriving DecidableEq

def Unwound.after (events : List Event) : Unwound → Unwound
  | .returned except rest => .returned except (events ++ rest)
  | .exitThread => .exitThread

/-- The loop of `OS2RtlUnwind` from a frame on, with the chain of the thread at `except`. -/
def os2RtlUnwindFrom (env : Env) (pEndFrame : Addr) (flags : Flags) :
    ℕ → Addr → Addr → Option Unwound
  | 0, _, _ => none
  | fuel + 1, frame, except =>
    if LastPage frame ∨ frame = pEndFrame then some (.returned except [])
    else
      let prevFrame := env.prevFrame frame
      if pEndFrame ≠ 0 ∧ pEndFrame < frame then some .exitThread
      else if ¬ env.OnStack frame then some .exitThread
      else
        let (rc, dispatch, called) := excCallHandler env flags frame
        if rc = exceptionContinueSearch ∨ rc = exceptionCollidedUnwind then
          -- After a collided unwind the frame is the dispatched one, but only up to the end
          -- of the round: the chain and the next frame come from the link read before.
          let _frame := if rc = exceptionCollidedUnwind then dispatch else frame
          (os2RtlUnwindFrom env pEndFrame flags fuel prevFrame prevFrame).map fun rest =>
            rest.after (.read frame :: called)
        else some .exitThread

/-- The flags that `OS2RtlUnwind` adds to the record it was given or built. -/
def unwindFlags (pEndFrame : Addr) (flags : Flags) : Flags :=
  if pEndFrame ≠ 0 then flags ||| ehUnwinding else flags ||| (ehUnwinding ||| ehExitUnwind)

def os2RtlUnwind (env : Env) (fuel : ℕ) (pEndFrame except : Addr) (record : Option Flags) :
    Option Unwound :=
  os2RtlUnwindFrom env pEndFrame (unwindFlags pEndFrame (record.getD 0)) fuel except except

end Odin32.Exceptions
