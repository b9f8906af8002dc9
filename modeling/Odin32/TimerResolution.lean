import Odin32.LinkedList
import Mathlib.Data.Int.Notation
import Mathlib.Data.Multiset.AddSub

/-! # Timer resolution requests

`OS2TimerResolution` of `os2timer.cpp` and its callers in `time.cpp`. A result of `none` is an
access to memory no request lives in, or a walk without an end. -/

set_option autoImplicit false

namespace Odin32.TimerResolution

open LinkedList

abbrev Addr := ℕ

abbrev MMRESULT := UInt32

def timerrNoerror : MMRESULT := 0
def timerrNocando : MMRESULT := 97

def os2timerResolutionMinimum : UInt32 := 1
def os2timerResolutionMaximum : UInt32 := 0x7ffffffe

structure OS2TimerResolution where
  dwPeriod : ℤ
  next : Option Addr
deriving DecidableEq

abbrev Heap := Addr → Option OS2TimerResolution

/-- `allocated` is how often `new` gave an entry. -/
structure State where
  sTimerResolutions : Option Addr
  heap : Heap
  allocated : ℕ

def State.init : State := ⟨none, fun _ => none, 0⟩

/-- The conversion of an `UINT` to an `int`. -/
def intOf (c : UInt32) : ℤ := c.toBitVec.toInt

/-- The walk `for (; timeRes->next != NULL; timeRes = timeRes->next)`, or the one that stands
still where `timeRes->next` is the entry asked for. -/
def walk (s : State) (stop : Addr → OS2TimerResolution → Bool) (timeRes : Addr) :
    Option (Addr × Option Addr) :=
  (seek OS2TimerResolution.next s.heap stop s.allocated timeRes).toOption

/-- `a->next = link`. -/
def setNext (heap : Heap) (a : Addr) (link : Option Addr) : Option Heap :=
  (heap a).map fun e => Function.update heap a (some { e with next := link })

namespace State

/-- The constructor: the new entry goes behind the last one. -/
def construct (s : State) (this : Addr) (dwPeriod : ℤ) : Option State := do
  let heap := Function.update s.heap this (some ⟨dwPeriod, none⟩)
  match s.sTimerResolutions with
  | none => return ⟨some this, heap, s.allocated + 1⟩
  | some timeRes =>
    let (last, _) ← walk s (fun _ _ => false) timeRes
    let heap ← setNext heap last (some this)
    return ⟨some timeRes, heap, s.allocated + 1⟩

/-- The destructor, and the memory given back. -/
def destruct (s : State) (this : Addr) : Option State := do
  let timeRes ← s.sTimerResolutions
  let e ← s.heap this
  if timeRes = this then
    return { s with sTimerResolutions := e.next, heap := Function.update s.heap this none }
  else
    let (before, found) ← walk s (fun a _ => a == this) timeRes
    -- a walk to the end of the list goes on over its NULL
    let _ ← found
    let heap ← setNext s.heap before e.next
    return { s with heap := Function.update heap this none }

def enterResolutionScope (s : State) (dwPeriod : ℤ) : Option Addr → Option (State × Bool)
  | none => some (s, false)
  | some timeRes => (s.construct timeRes dwPeriod).map fun s' => (s', true)

def leaveResolutionScope (s : State) (dwPeriod : ℤ) : Option (State × Bool) :=
  match s.sTimerResolutions with
  | none => some (s, false)
  | some timeRes => do
    let (last, _) ← walk s (fun _ _ => false) timeRes
    let e ← s.heap last
    if e.dwPeriod = dwPeriod then
      return (← s.destruct last, true)
    else
      return (s, false)

end State

/-- The loop of `queryCurrentResolution`. -/
def minLoop (heap : Heap) : ℕ → Addr → ℤ → Option ℤ
  | 0, _, _ => none
  | fuel + 1, timeRes, iMin => do
    let e ← heap timeRes
    match e.next with
    | none => return iMin
    | some a => minLoop heap fuel a (if e.dwPeriod < iMin then e.dwPeriod else iMin)

def State.queryCurrentResolution (s : State) : Option ℤ :=
  match s.sTimerResolutions with
  | none => some (-1)
  | some timeRes => minLoop s.heap s.allocated timeRes (-1)

/-- The range check of both calls. -/
def accepted (cMilliseconds : UInt32) : Bool :=
  !(decide (cMilliseconds < os2timerResolutionMinimum) ||
    decide (os2timerResolutionMaximum < cMilliseconds))

def State.timeBeginPeriod (s : State) (cMilliseconds : UInt32) (mem : Option Addr) :
    Option (State × MMRESULT) := do
  if !accepted cMilliseconds then return (s, timerrNocando)
  let (s', ok) ← s.enterResolutionScope (intOf cMilliseconds) mem
  return (s', if ok then timerrNoerror else timerrNocando)

def State.timeEndPeriod (s : State) (cMilliseconds : UInt32) : Option (State × MMRESULT) := do
  if !accepted cMilliseconds then return (s, timerrNocando)
  let (s', ok) ← s.leaveResolutionScope (intOf cMilliseconds)
  return (s', if ok then timerrNoerror else timerrNocando)

/-- A call, with the entry `new` gives where it asks for one. -/
inductive Op where
  | timeBeginPeriod (cMilliseconds : UInt32) (mem : Option Addr)
  | timeEndPeriod (cMilliseconds : UInt32)
  | queryCurrentResolution

inductive Answer where
  | result (rc : MMRESULT)
  | period (iMin : ℤ)
deriving DecidableEq

def step (s : State) : Op → Option (State × Answer)
  | .timeBeginPeriod c mem => (s.timeBeginPeriod c mem).map (Prod.map id .result)
  | .timeEndPeriod c => (s.timeEndPeriod c).map (Prod.map id .result)
  | .queryCurrentResolution => s.queryCurrentResolution.map fun iMin => (s, .period iMin)

/-! ## What the calls promise -/

/-- The requests after a call. -/
def outstanding (m : Multiset ℤ) : Op → Multiset ℤ
  | .timeBeginPeriod c mem => if accepted c && mem.isSome then intOf c ::ₘ m else m
  | .timeEndPeriod c => if accepted c then m.erase (intOf c) else m
  | .queryCurrentResolution => m

def rcOf (ok : Bool) : MMRESULT := if ok then timerrNoerror else timerrNocando

/-- The answer a call has to give while the requests are `m`. -/
def Right (m : Multiset ℤ) : Op → Answer → Prop
  | .timeBeginPeriod c mem, answer => answer = .result (rcOf (accepted c && mem.isSome))
  | .timeEndPeriod c, answer => answer = .result (rcOf (accepted c && decide (intOf c ∈ m)))
  | .queryCurrentResolution, answer =>
    m ≠ 0 → ∃ p, answer = .period p ∧ p ∈ m ∧ ∀ q ∈ m, p ≤ q

/-- The list has the periods of `l` in its entries. -/
def Lists (s : State) (l : List ℤ) : Prop :=
  ∃ cells : List Addr, Chain OS2TimerResolution.next s.heap s.sTimerResolutions cells ∧
    cells.map (fun a => (s.heap a).map OS2TimerResolution.dwPeriod) = l.map some

/-- Every call of a run gives the right answer and leaves the requests in the list. -/
def RunPromised : State → Multiset ℤ → List Op → Prop
  | _, _, [] => True
  | s, m, op :: ops => ∃ s' answer l, step s op = some (s', answer) ∧ Right m op answer ∧
      Lists s' l ∧ (l : Multiset ℤ) = outstanding m op ∧ RunPromised s' (outstanding m op) ops

/-- `new` gives memory no entry lives in. -/
def Offered (s : State) : Op → Prop
  | .timeBeginPeriod _ mem => ∀ a, mem = some a → s.heap a = none
  | _ => True

def RunOffered : State → List Op → Prop
  | _, [] => True
  | s, op :: ops => Offered s op ∧ ∀ s' answer, step s op = some (s', answer) → RunOffered s' ops

/-! ## The requests as a stack -/

/-- The periods in the list, oldest first, after a call. -/
def stacked (l : List ℤ) : Op → List ℤ
  | .timeBeginPeriod c mem => if accepted c && mem.isSome then l ++ [intOf c] else l
  | .timeEndPeriod c => if accepted c && decide (l.getLast? = some (intOf c)) then l.dropLast else l
  | .queryCurrentResolution => l

/-- A request ends while it is the newest, and no one asks while there are requests. -/
def StepFits (l : List ℤ) : Op → Prop
  | .timeBeginPeriod _ _ => True
  | .timeEndPeriod c => accepted c = true → intOf c ∈ l → l.getLast? = some (intOf c)
  | .queryCurrentResolution => l = []

def RunFits : List ℤ → List Op → Prop
  | _, [] => True
  | l, op :: ops => StepFits l op ∧ RunFits (stacked l op) ops

end Odin32.TimerResolution
