import Odin32.StepRun
import Mathlib.Algebra.BigOperators.Group.Finset.Piecewise
import Mathlib.Algebra.Ring.Int.Defs

/-! # Critical sections

`EnterCriticalSection`, `TryEnterCriticalSection` and `LeaveCriticalSection` of `critsection.cpp`
in the release build. Each access to the fields of the section is a step of the thread that makes
it, and so are the calls to the semaphore that `get_semaphore` creates when it is first needed. -/

set_option autoImplicit false

namespace Odin32.CriticalSection

/-- `InterlockedIncrement` of a `LONG`. -/
def inc32 (n : ℤ) : ℤ := if n = 0x7fffffff then -0x80000000 else n + 1

/-- `InterlockedDecrement` of a `LONG`. -/
def dec32 (n : ℤ) : ℤ := if n = -0x80000000 then 0x7fffffff else n - 1

/-- Where a thread stands in `get_semaphore`. -/
inductive Get where
  | load
  | create
  | compareSwap
deriving DecidableEq

/-- What the semaphore is wanted for. -/
inductive Purpose where
  | wait
  | release
deriving DecidableEq

inductive Call where
  | idle
  /-- `EnterCriticalSection` before its increment. -/
  | increment
  /-- The section is taken; it may be by this thread. -/
  | compareOwner
  | recurse
  | recurseStore (n : ℤ)
  | get (g : Get) (p : Purpose)
  | wait
  /-- In `RaiseException`, after a wait for no semaphore. -/
  | raised
  /-- The section is this thread's, with the fields still to be set. -/
  | own
  | ownCount
  /-- `TryEnterCriticalSection` before its compare-and-swap. -/
  | trySwap
  | tryOwner
  | tryIncrement
  /-- `LeaveCriticalSection` before `--RecursionCount`. -/
  | leave
  | leaveStore (n : ℤ)
  | decrement
  | disown
  | lastDecrement
  | release
deriving DecidableEq

/-- `CRITICAL_SECTION`. Of `LockSemaphore` the count is kept, of the threads how often each has
entered without leaving. -/
structure State (τ : Type) where
  lockCount : ℤ
  recursionCount : ℤ
  owningThread : Option τ
  lockSemaphore : Option ℕ
  calls : τ → Call
  entered : τ → ℕ

inductive Action where
  | enter
  | tryEnter
  | leave
  /-- The next access; `ok` says whether `CreateSemaphoreA` succeeds. -/
  | go (ok : Bool)
  | timeout
deriving DecidableEq

variable {τ : Type} [DecidableEq τ]

/-- `InitializeCriticalSection` -/
def init : State τ := ⟨-1, 0, none, none, fun _ => .idle, fun _ => 0⟩

def State.goto (s : State τ) (t : τ) (c : Call) : State τ :=
  { s with calls := Function.update s.calls t c }

/-- The thread has returned, inside the section so many times. -/
def State.back (s : State τ) (t : τ) (n : ℕ) : State τ :=
  { s with calls := Function.update s.calls t .idle, entered := Function.update s.entered t n }

/-- With a semaphore in hand. -/
def Purpose.next : Purpose → Call
  | .wait => .wait
  | .release => .release

/-- `WaitForSingleObject` and `ReleaseSemaphore` without a semaphore. -/
def Purpose.fail : Purpose → Call
  | .wait => .raised
  | .release => .idle

/-- `ReleaseSemaphore` of a semaphore whose maximum is 1. -/
def releaseSemaphore (n : ℕ) : ℕ := if n = 0 then 1 else n

/-- The accesses of `get_semaphore`. -/
def State.getSemaphore (s : State τ) (t : τ) (p : Purpose) (ok : Bool) : Get → State τ
  | .load => if s.lockSemaphore.isSome then s.goto t p.next else s.goto t (.get .create p)
  | .create => if ok then s.goto t (.get .compareSwap p) else s.goto t p.fail
  | .compareSwap => { s with lockSemaphore := some (s.lockSemaphore.getD 0) }.goto t p.next

/-- The next access of a thread. -/
def State.go (s : State τ) (t : τ) (ok : Bool) : Call → Option (State τ)
  | .idle => none
  | .increment =>
    let n := inc32 s.lockCount
    some ({ s with lockCount := n }.goto t (if n = 0 then .own else .compareOwner))
  | .compareOwner =>
    some (s.goto t (if s.owningThread = some t then .recurse else .get .load .wait))
  | .recurse => some (s.goto t (.recurseStore s.recursionCount))
  | .recurseStore n => some ({ s with recursionCount := inc32 n }.back t (s.entered t + 1))
  | .get g p => some (s.getSemaphore t p ok g)
  | .wait =>
    match s.lockSemaphore with
    | some (n + 1) => some ({ s with lockSemaphore := some n }.goto t .own)
    | _ => none
  | .raised => some (s.goto t (.get .load .wait))
  | .own => some ({ s with owningThread := some t }.goto t .ownCount)
  | .ownCount => some ({ s with recursionCount := 1 }.back t 1)
  | .trySwap =>
    if s.lockCount = -1 then some ({ s with lockCount := 0 }.goto t .own)
    else some (s.goto t .tryOwner)
  | .tryOwner => some (s.goto t (if s.owningThread = some t then .tryIncrement else .idle))
  | .tryIncrement => some ({ s with lockCount := inc32 s.lockCount }.goto t .recurse)
  | .leave => some (s.goto t (.leaveStore s.recursionCount))
  | .leaveStore n =>
    some ({ s with recursionCount := dec32 n }.goto t
      (if dec32 n ≠ 0 then .decrement else .disown))
  | .decrement => some ({ s with lockCount := dec32 s.lockCount }.back t (s.entered t - 1))
  | .disown => some ({ s with owningThread := none }.goto t .lastDecrement)
  | .lastDecrement =>
    let n := dec32 s.lockCount
    let s := { s with lockCount := n }.back t (s.entered t - 1)
    some (if 0 ≤ n then s.goto t (.get .load .release) else s)
  | .release =>
    some ({ s with lockSemaphore := s.lockSemaphore.map releaseSemaphore }.goto t .idle)

def step (s : State τ) (op : τ × Action) : Option (State τ) :=
  match s.calls op.1, op.2 with
  | .idle, .enter => some (s.goto op.1 .increment)
  | .idle, .tryEnter => some (s.goto op.1 .trySwap)
  | .idle, .leave => some (s.goto op.1 .leave)
  | .wait, .timeout => some (s.goto op.1 (.get .load .wait))
  | c, .go ok => s.go op.1 ok c
  | _, _ => none

/-! ## What the section promises -/

/-- How often a thread has raised `LockCount` without lowering it. -/
def Call.claims (d : ℕ) : Call → ℕ
  | .compareOwner | .recurse | .recurseStore _ | .get _ .wait | .wait | .raised => d + 1
  | .own | .ownCount => d + 1
  | _ => d

/-- One of the threads carries the section: it is inside, on its way in or waking another up. -/
def Call.Carries (d : ℕ) : Call → Prop
  | .own | .ownCount | .get _ .release | .release => True
  | _ => 0 < d

structure Exclusive [Fintype τ] (s : State τ) : Prop where
  exclusive : ∀ t t', 0 < s.entered t → 0 < s.entered t' → t = t'
  owner : ∀ t, s.calls t = .idle → (s.owningThread = some t ↔ 0 < s.entered t)
  recursion : ∀ t, s.calls t = .idle → 0 < s.entered t → s.recursionCount = s.entered t
  count : s.lockCount + 1 = ((∑ t, (s.calls t).claims (s.entered t) : ℕ) : ℤ)

/-- Whoever waits will be woken up: by the semaphore, or by a thread that goes on or is inside. -/
structure Awake (s : State τ) : Prop where
  supplied : ∀ t, s.calls t = .wait → (step s (t, .go true)).isSome ∨
    ∃ t', (s.calls t').Carries (s.entered t') ∧
      ((step s (t', .go true)).isSome ∨ (step s (t', .leave)).isSome)
  posted : ∀ t, s.calls t = .release → s.lockSemaphore = some 0

/-- A thread leaves what it has entered, and `LockCount` stays a `LONG`. -/
def StepFits (s : State τ) (op : τ × Action) : Prop :=
  (op.2 = .leave → 0 < s.entered op.1) ∧ s.lockCount < 0x7ffffffe

instance (s : State τ) (op : τ × Action) : Decidable (StepFits s op) :=
  inferInstanceAs (Decidable (_ ∧ _))

/-- The semaphore is created when it is needed. -/
def Created (_ : State τ) (op : τ × Action) : Prop := op.2 ≠ .go false

instance (s : State τ) (op : τ × Action) : Decidable (Created s op) :=
  inferInstanceAs (Decidable (¬_))

end Odin32.CriticalSection
