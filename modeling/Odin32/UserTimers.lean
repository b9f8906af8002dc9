import Mathlib.Logic.Function.Basic
import Mathlib.Order.Basic

/-! # Window timers

`timer.cpp` of USER32, with the windows and the timers that PM runs beside the table. Handles,
ids and callbacks are numbers; 0 is no window and no callback. -/

set_option autoImplicit false

namespace Odin32.UserTimers

inductive Use where
  | free
  | userTimer
  | systemTimer
deriving DecidableEq

/-- `TIMER`. -/
structure Timer where
  inUse : Use
  hwnd : ℕ
  id : ℕ
  pmHwnd : ℕ
  pmId : ℕ
  proc : ℕ
deriving DecidableEq

def nbTimers : ℕ := 34

def nbReservedTimers : ℕ := 2

structure State where
  timersArray : ℕ → Timer
  /-- The PM window behind a window handle. -/
  windows : ℕ → Option ℕ
  /-- The timeouts of the timers that run, by their PM window and their PM id. -/
  pm : ℕ × ℕ → Option ℕ

/-- What `WinStartTimer` does if it is called: whether it fails, and the id it makes for a timer
without a window. -/
structure Start where
  fails : Bool
  fresh : ℕ

/-- The id that is returned, 0 for a failure, and the timers that run. -/
def winStartTimer (pm : ℕ × ℕ → Option ℕ) (hwnd idTimer timeout : ℕ) (start : Start) :
    ℕ × (ℕ × ℕ → Option ℕ) :=
  if start.fails then (0, pm)
  else
    let idTimer := if hwnd = 0 then start.fresh else idTimer
    (idTimer, Function.update pm (hwnd, idTimer) (some timeout))

namespace State

variable (s : State)

/-- The loops along the table. -/
def scan (p : Timer → Bool) : Option ℕ := (List.range nbTimers).find? fun i => p (s.timersArray i)

/-- The test of both lookups. -/
def hit (sys : Bool) (hwnd id : ℕ) (t : Timer) : Bool :=
  t.inUse ≠ .free && t.hwnd = hwnd && t.id = id && ((sys && t.inUse = .systemTimer) || !sys)

/-- `TIMER_SetTimer`. -/
def setTimer (hwnd id timeout proc : ℕ) (sys : Bool) (start : Start) : State × ℕ :=
  if hwnd ≠ 0 ∧ s.windows hwnd = none then (s, 0)
  else
    let hwndOS2 := if hwnd ≠ 0 then (s.windows hwnd).getD 0 else 0
    match s.scan (hit sys hwnd id) with
    | none =>
      match s.scan fun t => t.inUse = .free with
      | none => (s, 0)
      | some i =>
        if !sys && i ≥ nbTimers - nbReservedTimers then (s, 0)
        else
          let id := if hwnd = 0 then i + 1 else id
          let pmHwnd := if hwnd ≠ 0 then hwndOS2 else 0
          let started := winStartTimer s.pm pmHwnd (i + 1) timeout start
          let id := if started.1 = 0 then 0 else id
          ({ s with
            timersArray := Function.update s.timersArray i
              ⟨if sys then .systemTimer else .userTimer, hwnd, id, pmHwnd, started.1, proc⟩
            pm := started.2 }, if id = 0 then 1 else id)
    | some i =>
      let t := s.timersArray i
      ({ s with pm := (winStartTimer s.pm t.pmHwnd t.pmId timeout start).2 },
        if id = 0 then 1 else id)

/-- `TIMER_KillTimer`. -/
def killTimer (hwnd id : ℕ) (sys : Bool) : State × ℕ :=
  match s.scan (hit sys hwnd id) with
  | none => (s, 0)
  | some i =>
    let t := s.timersArray i
    if (!sys && i ≥ nbTimers - nbReservedTimers) || (!sys && t.inUse ≠ .userTimer) ||
        (sys && t.inUse ≠ .systemTimer) then (s, 0)
    else
      ({ s with
        timersArray := Function.update s.timersArray i
          { t with inUse := .free, pmHwnd := 0, pmId := 0 }
        pm := Function.update s.pm (t.pmHwnd, t.pmId) none }, 1)

/-- `TIMER_IsTimerValid`. -/
def isTimerValid (hwnd id proc : ℕ) : ℕ :=
  match s.scan fun t => t.hwnd = hwnd && t.id = id && t.proc = proc with
  | none => 0
  | some _ => 1

/-- `TIMER_KillTimerFromWindow`. -/
def killTimerFromWindow (hwnd : ℕ) : State :=
  if s.windows hwnd = none then s
  else
    { s with
      timersArray := fun i =>
        let t := s.timersArray i
        if i < nbTimers ∧ t.inUse ≠ .free ∧ t.hwnd = hwnd then
          { t with inUse := .free, pmHwnd := 0, pmId := 0 }
        else t }

/-- A window is destroyed: its timers are taken from the table, and PM stops the ones of the PM
window. -/
def destroyWindow (hwnd : ℕ) : State :=
  let after := s.killTimerFromWindow hwnd
  { after with
    windows := Function.update s.windows hwnd none
    pm := fun key => if some key.1 = s.windows hwnd then none else s.pm key }

end State

inductive Op where
  | setTimer (sys : Bool) (hwnd id timeout proc : ℕ) (start : Start)
  | killTimer (sys : Bool) (hwnd id : ℕ)
  | isTimerValid (hwnd id proc : ℕ)
  | destroyWindow (hwnd : ℕ)
  | createWindow (hwnd hwndOS2 : ℕ)

/-- The state after a call, and what it returns. -/
def step (s : State) : Op → State × ℕ
  | .setTimer sys hwnd id timeout proc start => s.setTimer hwnd id timeout proc sys start
  | .killTimer sys hwnd id => s.killTimer hwnd id sys
  | .isTimerValid hwnd id proc => (s, s.isTimerValid hwnd id proc)
  | .destroyWindow hwnd => (s.destroyWindow hwnd, 1)
  | .createWindow hwnd hwndOS2 =>
    ({ s with windows := Function.update s.windows hwnd (some hwndOS2) }, 1)

/-! ## What the table is for -/

namespace State

variable (s : State)

def Used (i : ℕ) : Prop := i < nbTimers ∧ (s.timersArray i).inUse ≠ .free

/-- The PM timer of a slot. -/
def key (i : ℕ) : ℕ × ℕ := ((s.timersArray i).pmHwnd, (s.timersArray i).pmId)

def kind (sys : Bool) : Use := if sys then .systemTimer else .userTimer

/-- A slot holds the timer of a kind for a window and an id. -/
def Holds (sys : Bool) (hwnd id i : ℕ) : Prop :=
  i < nbTimers ∧ (s.timersArray i).inUse = kind sys ∧ (s.timersArray i).hwnd = hwnd ∧
    (s.timersArray i).id = id

/-- The slots in use and the timers that run, one to one. -/
structure Mirrors : Prop where
  running : ∀ key timeout, s.pm key = some timeout → ∃ i, s.Used i ∧ s.key i = key
  used : ∀ i, s.Used i → ∃ timeout, s.pm (s.key i) = some timeout
  one : ∀ i j, s.Used i → s.Used j → s.key i = s.key j → i = j

end State

/-- Every other timer is as it was. -/
def Kept (s t : State) (mine : ℕ → Prop) : Prop :=
  ∀ i, s.Used i → ¬ mine i → t.timersArray i = s.timersArray i ∧ t.pm (s.key i) = s.pm (s.key i)

structure SetRight (s : State) (sys : Bool) (hwnd id timeout proc : ℕ) (fails : Bool)
    (result : State × ℕ) : Prop where
  failing : fails = true → result = (s, 0)
  existing : fails = false → ∀ i, s.Holds sys hwnd id i → result.2 ≠ 0 ∧
    result.1.timersArray i = { s.timersArray i with proc := proc } ∧
    result.1.pm (s.key i) = some timeout
  others : Kept s result.1 (s.Holds sys hwnd id)

structure KillRight (s : State) (sys : Bool) (hwnd id : ℕ) (result : State × ℕ) : Prop where
  existing : ∀ i, s.Holds sys hwnd id i → result.2 = 1 ∧ ¬ result.1.Used i ∧
    result.1.pm (s.key i) = none
  missing : (∀ i, ¬ s.Holds sys hwnd id i) → result = (s, 0)
  others : Kept s result.1 (s.Holds sys hwnd id)

def StepRight (s : State) : Op → Prop
  | .setTimer sys hwnd id timeout proc start =>
    SetRight s sys hwnd id timeout proc start.fails
      (step s (.setTimer sys hwnd id timeout proc start))
  | .killTimer sys hwnd id => KillRight s sys hwnd id (step s (.killTimer sys hwnd id))
  | .isTimerValid hwnd id proc => (step s (.isTimerValid hwnd id proc)).2 = 1 →
    ∃ i, s.Used i ∧ (s.timersArray i).hwnd = hwnd ∧ (s.timersArray i).id = id ∧
      (s.timersArray i).proc = proc
  | .destroyWindow hwnd =>
    (s.windows hwnd ≠ none → ∀ i, (step s (.destroyWindow hwnd)).1.Used i →
      (s.timersArray i).hwnd ≠ hwnd) ∧
    Kept s (step s (.destroyWindow hwnd)).1 fun i => (s.timersArray i).hwnd = hwnd
  | .createWindow hwnd hwndOS2 => Kept s (step s (.createWindow hwnd hwndOS2)).1 fun _ => False

def RunPromised : State → List Op → Prop
  | s, [] => s.Mirrors
  | s, op :: ops => s.Mirrors ∧ StepRight s op ∧ RunPromised (step s op).1 ops

/-! ## What PM and the windows promise -/

/-- Windows have PM windows of their own. -/
structure WindowsOk (windows : ℕ → Option ℕ) : Prop where
  null : windows 0 = none
  handle : ∀ hwnd hwndOS2, windows hwnd = some hwndOS2 → hwndOS2 ≠ 0
  one : ∀ hwnd hwnd' hwndOS2, windows hwnd = some hwndOS2 → windows hwnd' = some hwndOS2 →
    hwnd = hwnd'

/-- What PM makes up is new. -/
def Legal (s : State) : Op → Prop
  | .setTimer _ _ _ _ _ start => start.fresh ≠ 0 ∧ s.pm (0, start.fresh) = none
  | .createWindow hwnd hwndOS2 => hwnd ≠ 0 ∧ hwndOS2 ≠ 0 ∧ s.windows hwnd = none ∧
    ∀ other, s.windows other ≠ some hwndOS2
  | _ => True

def RunLegal : State → List Op → Prop
  | _, [] => True
  | s, op :: ops => Legal s op ∧ RunLegal (step s op).1 ops

/-! ## When the calls are right -/

/-- There is a slot for the timer, and a window. -/
def CanSet (s : State) (sys : Bool) (hwnd id : ℕ) : Prop :=
  (hwnd = 0 ∨ s.windows hwnd ≠ none) ∧
    ((∃ i < nbTimers, State.hit sys hwnd id (s.timersArray i) = true) ∨
      ∃ i < if sys then nbTimers else nbTimers - nbReservedTimers,
        (s.timersArray i).inUse = .free)

/-- The start does not fail; a timer that is set again has a window and keeps its callback; and a
system timer for the same window and id stands behind the user timer. -/
structure SetFits (s : State) (sys : Bool) (hwnd id proc : ℕ) (fails : Bool) : Prop where
  starts : CanSet s sys hwnd id → fails = false
  callback : ∀ i, s.Holds sys hwnd id i → hwnd ≠ 0 ∧ (s.timersArray i).proc = proc
  user : sys = false → ∀ j, s.Holds true hwnd id j → ∃ i < j, s.Holds false hwnd id i

def StepFits (s : State) : Op → Prop
  | .setTimer sys hwnd id _ proc start => SetFits s sys hwnd id proc start.fails
  | .killTimer sys hwnd id =>
    sys = false → ∀ i j, s.Holds false hwnd id i → s.Holds true hwnd id j → i < j
  | .isTimerValid hwnd id proc => ∀ i < nbTimers, (s.timersArray i).inUse = .free →
    (s.timersArray i).hwnd = hwnd → (s.timersArray i).id = id → (s.timersArray i).proc = proc →
      ∃ j, s.Used j ∧ (s.timersArray j).hwnd = hwnd ∧ (s.timersArray j).id = id ∧
        (s.timersArray j).proc = proc
  | .destroyWindow _ => True
  | .createWindow _ _ => True

def RunFits : State → List Op → Prop
  | _, [] => True
  | s, op :: ops => StepFits s op ∧ RunFits (step s op).1 ops

section Decisions

variable (s : State) (sys : Bool) (hwnd id proc : ℕ)

instance (i : ℕ) : Decidable (s.Holds sys hwnd id i) :=
  inferInstanceAs (Decidable (_ ∧ _ ∧ _ ∧ _))

instance (i : ℕ) : Decidable (s.Used i) := inferInstanceAs (Decidable (_ ∧ _))

instance : Decidable (CanSet s sys hwnd id) := inferInstanceAs (Decidable (_ ∧ (_ ∨ _)))

theorem forall_holds (p : ℕ → Prop) :
    (∀ i < nbTimers, s.Holds sys hwnd id i → p i) ↔ ∀ i, s.Holds sys hwnd id i → p i :=
  ⟨fun all i holds => all i holds.1 holds, fun all i _ holds => all i holds⟩

theorem exists_used (p : ℕ → Prop) :
    (∃ i < nbTimers, s.Used i ∧ p i) ↔ ∃ i, s.Used i ∧ p i := by
  constructor
  · rintro ⟨i, -, used, holds⟩
    exact ⟨i, used, holds⟩
  · rintro ⟨i, used, holds⟩
    exact ⟨i, used.1, used, holds⟩

instance (fails : Bool) : Decidable (SetFits s sys hwnd id proc fails) :=
  decidable_of_iff ((CanSet s sys hwnd id → fails = false) ∧
      (∀ i < nbTimers, s.Holds sys hwnd id i → hwnd ≠ 0 ∧ (s.timersArray i).proc = proc) ∧
      (sys = false → ∀ j < nbTimers, s.Holds true hwnd id j → ∃ i < j, s.Holds false hwnd id i))
    ⟨fun h => ⟨h.1, (forall_holds ..).mp h.2.1, fun user => (forall_holds ..).mp (h.2.2 user)⟩,
      fun h => ⟨h.starts, (forall_holds ..).mpr h.callback,
        fun user => (forall_holds ..).mpr (h.user user)⟩⟩

end Decisions

instance (s : State) : (op : Op) → Decidable (StepFits s op)
  | .setTimer sys hwnd id _ proc start =>
    inferInstanceAs (Decidable (SetFits s sys hwnd id proc start.fails))
  | .killTimer sys hwnd id =>
    decidable_of_iff (sys = false → ∀ i < nbTimers, s.Holds false hwnd id i →
        ∀ j < nbTimers, s.Holds true hwnd id j → i < j)
      ⟨fun h user i j here there => h user i here.1 here j there.1 there,
        fun h user i _ here j _ there => h user i j here there⟩
  | .isTimerValid hwnd id proc =>
    decidable_of_iff (∀ i < nbTimers, (s.timersArray i).inUse = .free ∧
        (s.timersArray i).hwnd = hwnd ∧ (s.timersArray i).id = id ∧
        (s.timersArray i).proc = proc → ∃ j < nbTimers, s.Used j ∧
          (s.timersArray j).hwnd = hwnd ∧ (s.timersArray j).id = id ∧
            (s.timersArray j).proc = proc)
      ⟨fun h i lt free at_hwnd at_id at_proc =>
          (exists_used ..).mp (h i lt ⟨free, at_hwnd, at_id, at_proc⟩),
        fun h i lt here =>
          (exists_used ..).mpr (h i lt here.1 here.2.1 here.2.2.1 here.2.2.2)⟩
  | .destroyWindow _ => .isTrue trivial
  | .createWindow _ _ => .isTrue trivial

instance runFitsDecidable : (s : State) → (ops : List Op) → Decidable (RunFits s ops)
  | _, [] => .isTrue trivial
  | s, op :: ops =>
    haveI := runFitsDecidable (step s op).1 ops
    inferInstanceAs (Decidable (_ ∧ _))

/-- The table at the start. -/
def init (windows : ℕ → Option ℕ) : State where
  timersArray := fun _ => ⟨.free, 0, 0, 0, 0, 0⟩
  windows := windows
  pm := fun _ => none

end Odin32.UserTimers
