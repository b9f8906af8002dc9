import Mathlib.Data.Nat.Notation
import Mathlib.Logic.Function.Basic
import Mathlib.Algebra.Group.Nat.Defs
import Mathlib.Algebra.Ring.Int.Defs

/-! # The index lookup of the collections

`CIndexLookup` and `CIndexLookupLimit` of `ccollection.cpp`, with 32-bit integers and sizes that
wrap. A result of `none` is an access outside an array. Memory is always given; what is in it
comes with the call. -/

set_option autoImplicit false

namespace Odin32.IndexLookup

abbrev Pointer := UInt32

abbrev intMax : Int32 := Int32.maxValue
abbrev intMin : Int32 := Int32.minValue

/-- An array of `INDEXLOOKUPENTRY`, of four bytes each. -/
structure Block where
  size : ℕ
  data : ℕ → Pointer

/-- A number of entries, or how many entries a pointer moves: bytes are counted modulo
`2 ^ 32`. -/
def units (n : Int32) : ℕ := (n.toInt % 2 ^ 30).toNat

/-- `malloc(n * sizeof(INDEXLOOKUPENTRY))`. -/
def malloc (n : Int32) (mem : ℕ → Pointer) : Block := ⟨units n, mem⟩

/-- `n` entries are set to zero. -/
def memset (block : Block) (offset n : ℕ) : Option Block :=
  if n = 0 then some block
  else if offset + n ≤ block.size then
    some { block with data := fun k => if offset ≤ k ∧ k < offset + n then 0 else block.data k }
  else none

/-- `n` entries of `old` are copied. -/
def memmove (block : Block) (offset : ℕ) (old : Block) (from_ n : ℕ) : Option Block :=
  if n = 0 then some block
  else if offset + n ≤ block.size ∧ from_ + n ≤ old.size then
    some { block with data := fun k =>
      if offset ≤ k ∧ k < offset + n then old.data (from_ + (k - offset)) else block.data k }
  else none

/-- `limits` are the hard limits of a `CIndexLookupLimit`. -/
structure State where
  limits : Option (Int32 × Int32)
  pEntries : Option Block
  iSize : Int32
  iOffset : Int32
  iUsedOffset : Int32
  iHigh : Int32
  iUsedHigh : Int32
  iInitialized : Int32

namespace State

/-- The constructor, which leaves `iInitialized` as it was and `iSize` at zero. -/
def new (iInitialSize : Int32) (mem : ℕ → Pointer) (iInitialized : Int32) : Option State :=
  let empty : State := ⟨none, none, 0, intMax, intMax, intMin, intMin, iInitialized⟩
  if 0 < iInitialSize then
    (memset (malloc iInitialSize mem) 0 (units iInitialSize)).map fun pEntries =>
      { empty with pEntries := some pEntries }
  else some empty

def isValidIndex (s : State) (iIndex : Int32) : Bool :=
  decide (s.iOffset ≤ iIndex) && decide (iIndex ≤ s.iHigh)

/-- Offsets are scaled by the size of an entry before they are added to the pointer. -/
def reallocateData (s : State) (iShift iRequiredSize : Int32) (mem : ℕ → Pointer) :
    Option Block := do
  let pNewData := malloc iRequiredSize mem
  match s.pEntries with
  | some pEntries =>
    let pNewData ← memmove pNewData (units (iShift * 4)) pEntries 0 (units s.iSize)
    if iShift = 0 then memset pNewData (units (4 * s.iSize)) (units (iRequiredSize - s.iSize))
    else memset pNewData 0 (units iShift)
  | none => memset pNewData 0 (units iRequiredSize)

/-- `CIndexLookup::ensureCapacity`. -/
def ensureCapacity0 (s : State) (iIndex : Int32) (mem : ℕ → Pointer) : Option (State × Bool) :=
  if s.isValidIndex iIndex then some (s, true)
  else if iIndex < s.iOffset then do
    let iRequiredSize := s.iHigh - iIndex + 1
    let iShift := s.iOffset - iIndex
    let pNewData ← s.reallocateData iShift iRequiredSize mem
    return ({ s with pEntries := some pNewData, iSize := iRequiredSize, iOffset := iIndex }, true)
  else if s.iHigh < iIndex then do
    let iRequiredSize := iIndex - s.iOffset + 1
    let pNewData ← s.reallocateData 0 iRequiredSize mem
    return ({ s with pEntries := some pNewData, iSize := iRequiredSize, iHigh := iIndex }, true)
  else some (s, false)

/-- The hard limits leave an index out. -/
def refuses (s : State) (iIndex : Int32) : Bool :=
  match s.limits with
  | none => false
  | some (iLimitLow, iLimitHigh) => decide (iIndex < iLimitLow) || decide (iLimitHigh < iIndex)

def ensureCapacity (s : State) (iIndex : Int32) (mem : ℕ → Pointer) : Option (State × Bool) :=
  if s.refuses iIndex then some (s, false) else s.ensureCapacity0 iIndex mem

/-- `pEntries[iIndex - iOffset].pObject`. -/
def load (s : State) (iIndex : Int32) : Option Pointer := do
  let pEntries ← s.pEntries
  if units (iIndex - s.iOffset) < pEntries.size then
    return pEntries.data (units (iIndex - s.iOffset))
  else none

/-- `pEntries[iIndex - iOffset].pObject = pObject`. -/
def store (s : State) (iIndex : Int32) (pObject : Pointer) : Option State := do
  let pEntries ← s.pEntries
  if units (iIndex - s.iOffset) < pEntries.size then
    return { s with pEntries := some { pEntries with
      data := Function.update pEntries.data (units (iIndex - s.iOffset)) pObject } }
  else none

def addElement (s : State) (iIndex : Int32) (pObject : Pointer) (mem : ℕ → Pointer) :
    Option (State × Pointer) := do
  let (s, ok) ← s.ensureCapacity iIndex mem
  if ok then
    let s := { s with
      iUsedOffset := if iIndex < s.iUsedOffset then iIndex else s.iUsedOffset
      iUsedHigh := if s.iUsedHigh < iIndex then iIndex else s.iUsedHigh
      iInitialized := 1 }
    let s ← s.store iIndex pObject
    return (s, pObject)
  else
    return (s, 0)

def removeElement (s : State) (iIndex : Int32) : Option (State × Pointer) :=
  if s.isValidIndex iIndex then do
    let pOld ← s.load iIndex
    let s ← s.store iIndex 0
    return (s, pOld)
  else some (s, 0)

def getElement (s : State) (iIndex : Int32) : Option Pointer :=
  if s.isValidIndex iIndex then s.load iIndex else some 0

def clear (s : State) : State :=
  { s with
    pEntries := none
    iOffset := intMax
    iHigh := intMin
    iSize := 0
    iUsedOffset := intMax
    iUsedHigh := intMin
    iInitialized := 0 }

/-- The array `shrink` moves the used entries to. -/
def shrunk (s : State) (mem : ℕ → Pointer) : Option Block :=
  let iRequiredSize := s.iUsedHigh - s.iUsedOffset + 1
  let pNewData := malloc iRequiredSize mem
  match s.pEntries with
  | some pEntries =>
    memmove pNewData 0 pEntries (units (s.iUsedOffset - s.iOffset)) (units iRequiredSize)
  | none => memset pNewData 0 (units iRequiredSize)

def shrink (s : State) (mem : ℕ → Pointer) : Option State :=
  if s.iInitialized = 0 then some { s with pEntries := none }
  else if s.iOffset < s.iUsedOffset ∨ s.iUsedHigh < s.iHigh then do
    let pNewData ← s.shrunk mem
    return { s with
      pEntries := some pNewData
      iSize := s.iUsedHigh - s.iUsedOffset + 1
      iOffset := s.iUsedOffset
      iHigh := s.iUsedHigh }
  else some s

/-- The constructor of `CIndexLookupLimit`. -/
def newLimit (iHardLimitLow iHardLimitHigh : Int32) (mem : ℕ → Pointer) (iInitialized : Int32) :
    Option State := do
  let s ← new 0 mem iInitialized
  let iLimitLow := if iHardLimitLow < iHardLimitHigh then iHardLimitLow else iHardLimitHigh
  let iLimitHigh := if iHardLimitHigh < iHardLimitLow then iHardLimitLow else iHardLimitHigh
  let iSize := iLimitHigh - iLimitLow + 1
  let s := { s with
    limits := some (iLimitLow, iLimitHigh), iOffset := iLimitLow, iHigh := iLimitHigh,
    iSize := iSize }
  let pEntries ← s.reallocateData 0 iSize mem
  return { s with pEntries := some pEntries }

end State

/-- How a table is made. -/
inductive Construction where
  | lookup (iInitialSize : Int32)
  | limit (iHardLimitLow iHardLimitHigh : Int32)

def Construction.state (mem : ℕ → Pointer) (iInitialized : Int32) : Construction → Option State
  | .lookup iInitialSize => State.new iInitialSize mem iInitialized
  | .limit iHardLimitLow iHardLimitHigh =>
    State.newLimit iHardLimitLow iHardLimitHigh mem iInitialized

/-- A call, with what is in the memory it is given. -/
inductive Op where
  | addElement (iIndex : Int32) (pObject : Pointer) (mem : ℕ → Pointer)
  | removeElement (iIndex : Int32)
  | getElement (iIndex : Int32)
  | shrink (mem : ℕ → Pointer)
  | clear

/-- `none` where a call answers nothing about an object. -/
abbrev Answer := Option Pointer

def step (s : State) : Op → Option (State × Answer)
  | .addElement iIndex pObject mem => (s.addElement iIndex pObject mem).map (Prod.map id some)
  | .removeElement iIndex => (s.removeElement iIndex).map (Prod.map id some)
  | .getElement iIndex => (s.getElement iIndex).map fun pObject => (s, some pObject)
  | .shrink mem => (s.shrink mem).map fun s' => (s', none)
  | .clear => some (s.clear, none)

/-! ## What the calls promise -/

/-- The objects that are there; zero is none. -/
abbrev Objects := Int32 → Pointer

/-- An index is inside the hard limits, if there are any. -/
def inside (limits : Option (Int32 × Int32)) (iIndex : Int32) : Bool :=
  match limits with
  | none => true
  | some (low, high) => decide (low ≤ iIndex) && decide (iIndex ≤ high)

def after (limits : Option (Int32 × Int32)) (objects : Objects) : Op → Objects
  | .addElement iIndex pObject _ =>
    if inside limits iIndex then Function.update objects iIndex pObject else objects
  | .removeElement iIndex => Function.update objects iIndex 0
  | .getElement _ | .shrink _ => objects
  | .clear => fun _ => 0

def answerOf (limits : Option (Int32 × Int32)) (objects : Objects) : Op → Answer
  | .addElement iIndex pObject _ => some (if inside limits iIndex then pObject else 0)
  | .removeElement iIndex | .getElement iIndex => some (objects iIndex)
  | .shrink _ | .clear => none

/-- Every call of a run stays inside the arrays and gives the right answer. -/
def RunPromised (limits : Option (Int32 × Int32)) : State → Objects → List Op → Prop
  | _, _, [] => True
  | s, objects, op :: ops => ∃ s', step s op = some (s', answerOf limits objects op) ∧
      RunPromised limits s' (after limits objects op) ops

/-- The hard limits of a table. -/
def Construction.limits : Construction → Option (Int32 × Int32)
  | .lookup _ => none
  | .limit low high => if low < high then some (low, high) else some (high, low)

/-- The array for all the indices between the hard limits has fewer than `2 ^ 30` entries. -/
def Construction.Fits : Construction → Prop
  | .lookup _ => True
  | .limit low high => (high.toInt - low.toInt).natAbs < 2 ^ 30 - 1

/-- The array grows only from nothing and at one of the sentinels, and is shrunk only when an
element was added since it was made, or while it is empty. -/
def StepFits (s : State) : Op → Prop
  | .addElement iIndex _ _ => s.isValidIndex iIndex = true ∨ s.refuses iIndex = true ∨
      s.iHigh < s.iOffset ∧ (iIndex = intMax ∨ iIndex = intMin ∧ s.pEntries = none)
  | .shrink _ => s.iUsedOffset ≤ s.iUsedHigh ∨ s.iHigh < s.iOffset
  | .removeElement _ | .getElement _ | .clear => True

def RunFits : State → List Op → Prop
  | _, [] => True
  | s, op :: ops =>
    StepFits s op ∧ ∀ s' answer, step s op = some (s', answer) → RunFits s' ops

end Odin32.IndexLookup
