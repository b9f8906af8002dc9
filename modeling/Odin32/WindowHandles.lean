import Mathlib.Data.Nat.Notation
import Mathlib.Logic.Function.Basic

/-! # Window handles

The table of `win32wndhandle.cpp` and the walk over the handle values of
`Win32BaseWindow::EnumWindows`. A result of `none` is an access outside the table. -/

set_option autoImplicit false

namespace Odin32.WindowHandles

abbrev HWND := UInt32
abbrev DWORD := UInt32

def maxWindowHandles : ℕ := 1024
def wndhandleMagicHighword : HWND := 0x68000000
def wndhandleMagicMask : HWND := 0x0000FFFF

structure State where
  WindowHandleTable : ℕ → DWORD
  lastIndex : ℕ

def State.init : State := ⟨fun _ => 0, 0⟩

namespace State

def read (s : State) (i : ℕ) : Option DWORD :=
  if i < maxWindowHandles then some (s.WindowHandleTable i) else none

def write (s : State) (i : ℕ) (value : DWORD) : Option State :=
  if i < maxWindowHandles then
    some { s with WindowHandleTable := Function.update s.WindowHandleTable i value }
  else none

/-- The loop of `HwAllocateWindowHandle`; it leaves `i` behind. -/
def findFree (s : State) : ℕ → ℕ → Option ℕ
  | 0, i => some i
  | n + 1, i => do
    if (← s.read i) = 0 then return i else findFree s n (i + 1)

/-- Where the next search begins. -/
def start (s : State) : ℕ := if maxWindowHandles - 1 ≤ s.lastIndex then 0 else s.lastIndex

end State

/-- Handle `0x68000000` is skipped. -/
def handleOf (i : ℕ) : HWND := UInt32.ofNat (i + 1) ||| wndhandleMagicHighword

def hwAllocateWindowHandle (s : State) (dwUserData : DWORD) : Option (State × Option HWND) := do
  let s := { s with lastIndex := s.start }
  let i ← s.findFree (maxWindowHandles - s.lastIndex) s.lastIndex
  if i = maxWindowHandles then
    return (s, none)
  else
    let s ← s.write i dwUserData
    return ({ s with lastIndex := i + 1 }, some (handleOf i))

def hwFreeWindowHandle (s : State) (hwnd : HWND) : Option State :=
  let i := ((hwnd - 1) &&& wndhandleMagicMask).toNat
  if i < maxWindowHandles then s.write i 0 else some s

/-- The result and what `*pdwUserData` gets. -/
def hwGetWindowHandleData (s : State) (hwnd : HWND) : Option (Bool × Option DWORD) :=
  if (hwnd - 1) &&& 0xFFFF0000 ≠ wndhandleMagicHighword then
    some (false, none)
  else
    let i := ((hwnd - 1) &&& wndhandleMagicMask).toNat
    if i < maxWindowHandles then
      (s.read i).map fun dwUserData => (true, some dwUserData)
    else
      some (false, some 0)

/-- The data in an answer: `GetWindowFromHandle` returns it as a pointer, and zero is none. -/
def dataOf : Bool × Option DWORD → Option DWORD
  | (true, some dwUserData) => if dwUserData = 0 then none else some dwUserData
  | _ => none

/-- The handles `EnumWindows` looks at. Behind a window that is there the walk goes on when its
style leaves it out or `lpfn` returns `TRUE` for it. -/
def enumFrom (s : State) (goesOn : HWND → Bool) : ℕ → HWND → Option (List HWND)
  | 0, _ => some []
  | n + 1, hwnd => do
    let window ← hwGetWindowHandleData s hwnd
    if (dataOf window).isSome && !goesOn hwnd then return [hwnd]
    return hwnd :: (← enumFrom s goesOn n (hwnd + 1))

def enumWindows (s : State) (goesOn : HWND → Bool) : Option (List HWND) :=
  enumFrom s goesOn maxWindowHandles wndhandleMagicHighword

inductive Op where
  | allocate (dwUserData : DWORD)
  | free (hwnd : HWND)
  | getData (hwnd : HWND)
  | enumWindows (goesOn : HWND → Bool)

inductive Answer where
  | allocated (hwnd : Option HWND)
  | freed
  | data (answer : Bool × Option DWORD)
  | looked (hwnds : List HWND)

def step (s : State) : Op → Option (State × Answer)
  | .allocate dwUserData => (hwAllocateWindowHandle s dwUserData).map (Prod.map id .allocated)
  | .free hwnd => (hwFreeWindowHandle s hwnd).map fun s' => (s', .freed)
  | .getData hwnd => (hwGetWindowHandleData s hwnd).map fun answer => (s, .data answer)
  | .enumWindows goesOn => (enumWindows s goesOn).map fun hwnds => (s, .looked hwnds)

/-! ## What the calls promise -/

/-- The live handles, each with its data. -/
abbrev Live := HWND → Option DWORD

def after (live : Live) : Op → Answer → Live
  | .allocate dwUserData, .allocated (some hwnd) => Function.update live hwnd (some dwUserData)
  | .free hwnd, _ => Function.update live hwnd none
  | _, _ => live

/-- What a caller may ask. -/
def Offered (live : Live) : Op → Prop
  | .allocate dwUserData => dwUserData ≠ 0
  | .free hwnd => live hwnd ≠ none
  | .getData _ | .enumWindows _ => True

def HasFree (s : State) (low : ℕ) : Prop :=
  ∃ i, low ≤ i ∧ i < maxWindowHandles ∧ s.WindowHandleTable i = 0

/-- The answer a call has to give. -/
def Right (s : State) (live : Live) : Op → Answer → Prop
  | .allocate _, .allocated hwnd =>
    (HasFree s 0 → hwnd ≠ none) ∧ ∀ h, hwnd = some h → live h = none
  | .free _, .freed => True
  | .getData hwnd, .data answer => dataOf answer = live hwnd
  | .enumWindows goesOn, .looked hwnds =>
    (∀ h, goesOn h = true) → ∀ h, live h ≠ none → h ∈ hwnds
  | _, _ => False

def RunOffered : State → Live → List Op → Prop
  | _, _, [] => True
  | s, live, op :: ops => Offered live op ∧
      ∀ s' answer, step s op = some (s', answer) → RunOffered s' (after live op answer) ops

/-- No call of a run leaves the table, and each gives the right answer. -/
def RunPromised : State → Live → List Op → Prop
  | _, _, [] => True
  | s, live, op :: ops => ∃ s' answer, step s op = some (s', answer) ∧ Right s live op answer ∧
      RunPromised s' (after live op answer) ops

/-- A search finds a free slot if there is one, and the last slot is free where a walk that is
not broken off begins. -/
def StepFits (s : State) : Op → Prop
  | .allocate _ => HasFree s 0 → HasFree s s.start
  | .enumWindows goesOn => (∀ h, goesOn h = true) →
      s.WindowHandleTable (maxWindowHandles - 1) = 0
  | .free _ | .getData _ => True

def RunFits : State → List Op → Prop
  | _, [] => True
  | s, op :: ops =>
    StepFits s op ∧ ∀ s' answer, step s op = some (s', answer) → RunFits s' ops

end Odin32.WindowHandles
