import Odin32.StepRun

/-! # One-time initialisation

`InitOnceBeginInitialize`, `InitOnceComplete` and `InitOnceExecuteOnce` of
`vistacompat.cpp`. The word is 0 before, 1 during and the context with the bit 2 after the
initialisation. Each access to the word is a step of the thread that makes it. -/

set_option autoImplicit false

namespace Odin32.InitOnce

abbrev Word := BitVec 32

def checkOnly : Word := 1
def async : Word := 2
def initFailed : Word := 4

/-- What `InitOnceBeginInitialize` does with the word it loaded. -/
inductive Loaded where
  /-- `FALSE` with `ERROR_GEN_FAILURE`. -/
  | failed
  | compareAndSwap
  | pending
  | sleep
  | complete (context : Word)
deriving DecidableEq

def beginLoaded (dwFlags state : Word) : Loaded :=
  if state = 0 ∨ state = 1 then
    if dwFlags &&& checkOnly ≠ 0 then .failed
    else if state = 0 then .compareAndSwap
    else if dwFlags &&& async ≠ 0 then .pending
    else .sleep
  else .complete (state &&& ~~~3)

/-- The word `InitOnceComplete` stores, unless it refuses its arguments. -/
def completeStore (dwFlags lpContext : Word) : Option Word :=
  if dwFlags &&& ~~~(async ||| initFailed) ≠ 0 ∨ lpContext &&& 3 ≠ 0 ∨
      (dwFlags &&& initFailed ≠ 0 ∧ lpContext ≠ 0) then none
  else if dwFlags &&& initFailed ≠ 0 then some 0
  else some (lpContext ||| 2)

/-- Where a thread stands in `InitOnceExecuteOnce`. -/
inductive Call where
  | idle
  /-- Before the load in the loop of `InitOnceBeginInitialize`. -/
  | load
  | compareAndSwap
  /-- The word is 1 by this thread; `InitFn` is about to be called. -/
  | won
  | running
  /-- `InitFn` returned, and `InitOnceComplete` is about to store. -/
  | failing
  | completing (context : Word)
  | returning (rc : Bool) (context : Word)
deriving DecidableEq

/-- From the successful compare-and-swap to the store of the outcome. -/
def Call.holds : Call → Bool
  | .won | .running | .failing | .completing _ => true
  | _ => false

inductive Event (τ : Type) where
  | started (t : τ)
  | failed (t : τ)
  | succeeded (t : τ) (context : Word)
  | returned (t : τ) (rc : Bool) (context : Word)

structure State (τ : Type) where
  once : Word
  calls : τ → Call
  events : List (Event τ)

inductive Action where
  | enter
  | load
  | compareAndSwap
  | start
  /-- `InitFn` returns. -/
  | callback (ok : Bool) (context : Word)
  | complete
  | leave

variable {τ : Type} [DecidableEq τ]

def init : State τ := ⟨0, fun _ => .idle, []⟩

def State.goto (s : State τ) (t : τ) (c : Call) : State τ :=
  { s with calls := Function.update s.calls t c }

def State.log (s : State τ) (e : Event τ) : State τ := { s with events := s.events ++ [e] }

/-- The load of a call, whose flags are 0. -/
def State.loaded (s : State τ) (t : τ) : State τ :=
  match beginLoaded 0 s.once with
  | .failed => s.goto t (.returning false 0)
  | .compareAndSwap => s.goto t .compareAndSwap
  | .pending => s.goto t .won
  | .sleep => s.goto t .load
  | .complete context => s.goto t (.returning true context)

/-- `InitOnceComplete` at the end of a call. -/
def State.complete (s : State τ) (t : τ) : Call → Option (State τ)
  | .failing =>
    match completeStore initFailed 0 with
    | some word => some ({ s with once := word }.goto t (.returning false 0))
    | none => some (s.goto t (.returning false 0))
  | .completing context =>
    match completeStore 0 context with
    | some word => some ({ s with once := word }.goto t (.returning true context))
    | none => some (s.goto t (.returning false context))
  | _ => none

def step (s : State τ) (op : τ × Action) : Option (State τ) :=
  match s.calls op.1, op.2 with
  | .idle, .enter => some (s.goto op.1 .load)
  | .load, .load => some (s.loaded op.1)
  | .compareAndSwap, .compareAndSwap =>
    if s.once = 0 then some ({ s with once := 1 }.goto op.1 .won) else some (s.goto op.1 .load)
  | .won, .start => some ((s.log (.started op.1)).goto op.1 .running)
  | .running, .callback true context =>
    some ((s.log (.succeeded op.1 context)).goto op.1 (.completing context))
  | .running, .callback false _ => some ((s.log (.failed op.1)).goto op.1 .failing)
  | c, .complete => s.complete op.1 c
  | .returning rc context, .leave =>
    some ((s.log (.returned op.1 rc context)).goto op.1 .idle)
  | _, _ => none

/-! ## What the calls promise -/

/-- Nothing starts after a success, and what returns successfully returns its context. -/
def AfterSuccess (events : List (Event τ)) : Prop :=
  ∀ before t context after, events = before ++ .succeeded t context :: after →
    (∀ t', .started t' ∉ after) ∧
      ∀ t' context', .returned t' true context' ∈ after → context' = context

/-- An invocation is in progress from the winning compare-and-swap to the store of its
outcome. -/
structure Promised (s : State τ) : Prop where
  exclusive : ∀ t t', s.calls t = .running → s.calls t' = .running → t = t'
  once : AfterSuccess s.events
  released : ∀ t context, s.calls t = .returning false context → s.once = 1 →
    ∃ t', t' ≠ t ∧ (s.calls t').holds = true

/-- A callback that succeeds gives a context with its two lowest bits clear. -/
def StepFits (_ : State τ) (op : τ × Action) : Prop :=
  ∀ context, op.2 = .callback true context → context &&& 3 = 0

end Odin32.InitOnce
