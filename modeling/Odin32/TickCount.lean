import Odin32.StepRun
import Mathlib.Data.Nat.Notation

/-! # The 64-bit tick count

`GetTickCount64` of `vistacompat.cpp`, each access to `lastlo` and `hiword` a step. The clock
counts milliseconds in 64 bits, and `GetTickCount` returns its low half. What the code does not
keep is carried beside it: the count a thread read, and the count `lastlo` came from. -/

set_option autoImplicit false

namespace Odin32.TickCount

/-- 49.7 days. -/
def period : ℕ := 0x100000000

/-- Where a thread stands, with the true count when it read the clock. -/
inductive Call where
  | idle
  /-- `lo` is read. -/
  | read (count : ℕ)
  /-- `prev` is read; `seen` is the count it came from. -/
  | loaded (count prev seen : ℕ)
  /-- Behind the compare-and-swap, `hiword` not yet read. -/
  | swapped (count : ℕ) (wrapped : Bool)
  | returning (count value : ℕ)
deriving DecidableEq

/-- The reading of the clock. -/
def Call.count : Call → Option ℕ
  | .idle => none
  | .read count | .loaded count _ _ | .swapped count _ | .returning count _ => some count

inductive Event (τ : Type) where
  | read (t : τ) (count : ℕ)
  /-- A call that read the clock at `count` returned. -/
  | returned (t : τ) (count value : ℕ)
deriving DecidableEq

structure State (τ : Type) where
  now : ℕ
  lastlo : ℕ
  hiword : ℕ
  calls : τ → Call
  events : List (Event τ)
  /-- The count that `lastlo` is the low half of. -/
  stored : ℕ
  /-- The latest count read by a call that has returned. -/
  lastRun : ℕ

inductive Action (τ : Type) where
  /-- Time goes by. -/
  | tick (ms : ℕ)
  | read (t : τ)
  | load (t : τ)
  | compareAndSwap (t : τ)
  /-- `hiword` is read, or incremented and read. -/
  | high (t : τ)
  | leave (t : τ)

variable {τ : Type} [DecidableEq τ]

def init : State τ where
  now := 0
  lastlo := 0
  hiword := 0
  calls _ := .idle
  events := []
  stored := 0
  lastRun := 0

def State.goto (s : State τ) (t : τ) (c : Call) : State τ :=
  { s with calls := Function.update s.calls t c }

def step (s : State τ) : Action τ → Option (State τ)
  | .tick ms =>
    -- The count is a `ULONGLONG`.
    if s.now + ms < period * period then some { s with now := s.now + ms } else none
  | .read t =>
    match s.calls t with
    | .idle => some ({ s with events := s.events ++ [Event.read t s.now] }.goto t (.read s.now))
    | _ => none
  | .load t =>
    match s.calls t with
    | .read count => some (s.goto t (.loaded count s.lastlo s.stored))
    | _ => none
  | .compareAndSwap t =>
    match s.calls t with
    | .loaded count prev _ =>
      let wrapped := decide (count % period < prev)
      if s.lastlo = prev then
        some ({ s with lastlo := count % period, stored := count }.goto t (.swapped count wrapped))
      else some (s.goto t (.swapped count wrapped))
    | _ => none
  | .high t =>
    match s.calls t with
    | .swapped count true =>
      let hi := (s.hiword + 1) % period
      some ({ s with hiword := hi }.goto t (.returning count (hi * period + count % period)))
    | .swapped count false =>
      some (s.goto t (.returning count (s.hiword * period + count % period)))
    | _ => none
  | .leave t =>
    match s.calls t with
    | .returning count value =>
      some ({ s with
        lastRun := max s.lastRun count
        events := s.events ++ [Event.returned t count value] }.goto t .idle)
    | _ => none

/-- The function runs at least once in the period: at no time is the latest clock reading of a
call that has returned a whole period old. -/
def Frequent (s : State τ) : Action τ → Prop
  | .tick ms => s.now + ms < s.lastRun + period
  | _ => True

/-- What every call returned is the true count when it read the clock, and calls that do not
overlap return counts in order. -/
structure Promised (events : List (Event τ)) : Prop where
  exact : ∀ t count value, .returned t count value ∈ events →
    value = count ∧ .read t count ∈ events
  ordered : ∀ before between after t₁ c₁ v₁ t₂ c₂ v₂,
    events = before ++ .returned t₁ c₁ v₁ :: between ++ .read t₂ c₂ :: after →
    .returned t₂ c₂ v₂ ∈ after → v₁ ≤ v₂

/-- A reading of a new period is stored and not yet counted. -/
def Call.uncounted : Call → Bool
  | .swapped _ true => true
  | _ => false

def Counted (s : State τ) : Prop := ∀ t, (s.calls t).uncounted = false

/-- No other call has stored a later reading than this one's. -/
def Call.loadsInTime (stored : ℕ) : Call → Prop
  | .read count => stored ≤ count
  | _ => True

/-- The word is the one this call loaded; a call that saw no wrap may also miss a later store
of the same period. -/
def Call.swapsInTime (stored : ℕ) : Call → Prop
  | .loaded count prev seen => stored = seen ∨
    (¬ count % period < prev ∧ count ≤ stored ∧ count / period = stored / period)
  | _ => True

/-- The last stored reading is of this call's period, and counted. -/
def Call.readsInTime (s : State τ) : Call → Prop
  | .swapped count false => count / period = s.stored / period ∧ Counted s
  | _ => True

def StepFits (s : State τ) : Action τ → Prop
  | .load t => (s.calls t).loadsInTime s.stored
  | .compareAndSwap t => (s.calls t).swapsInTime s.stored
  | .high t => (s.calls t).readsInTime s
  | _ => True

end Odin32.TickCount
