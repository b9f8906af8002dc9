import Odin32.LinearList
import Mathlib.Data.Nat.Sqrt
import Mathlib.Algebra.Group.Nat.Defs
import Mathlib.Algebra.Ring.Int.Defs

/-! # The hash table of the collections

`CHashtableLookup` of `ccollection.cpp`: an array of linear lists with the entries whose names
have the same hash code. A result of `none` is a division by zero or an access to memory that
is not there. Memory is always given; names stay as they are while the table has them. -/

set_option autoImplicit false

namespace Odin32.HashtableLookup

open LinearList

/-- A string that is not empty, without its NUL. -/
structure Name where
  bytes : List UInt8
  cons : bytes ≠ []
  noNul : 0 ∉ bytes
deriving DecidableEq

abbrev Pointer := UInt32

structure HASHTABLEENTRY where
  pszName : Name
  pObject : Pointer
deriving DecidableEq

/-- The loop of `hashcode`, with `iRing` as the divisor. -/
def hashLoop (iRing : ℕ) : ℕ → List UInt8 → Option ℕ
  | h, [] => some h
  | h, t :: ts =>
    if iRing = 0 then none
    else hashLoop iRing ((h * 2 ^ 6 % 2 ^ 32 + t.toNat) % 2 ^ 32 % iRing) ts

def hashcode (iRing : ℕ) (pszName : Name) : Option ℕ := hashLoop iRing 0 pszName.bytes

abbrev Slots := List (Option (CLinearList Addr))

abbrev Entry := Addr → Option HASHTABLEENTRY

structure State where
  iSize : ℕ
  iElements : ℤ
  parrLists : Slots
  entries : Entry

/-- The constructor. -/
def State.new (iInitialSize : ℕ) : State :=
  ⟨iInitialSize, 0, List.replicate iInitialSize none, fun _ => none⟩

/-- An entry at the end of a slot's list, which is made when it is not there. -/
def addToSlot (parrLists : Slots) (ulHash : ℕ) (pHTE pLLE : Addr) : Option Slots := do
  let slot ← parrLists[ulHash]?
  let list ← (slot.getD CLinearList.new).addLast pHTE (some pLLE)
  return parrLists.set ulHash (some list)

/-- The loop of `removeElement` and `getElement`: the list entry, the hash table entry and what
is in it. -/
def findFrom (entries : Entry) (list : CLinearList Addr) (pszName : Name) :
    ℕ → Option Addr → Option (Option (Addr × Addr × HASHTABLEENTRY))
  | _, none => some none
  | 0, some _ => none
  | fuel + 1, some pLLE => do
    let e ← list.heap pLLE
    let pHTE ← entries e.pObject
    if pHTE.pszName.bytes.head? = pszName.bytes.head? ∧ pHTE.pszName = pszName then
      return some (pLLE, e.pObject, pHTE)
    else findFrom entries list pszName fuel e.pNext

/-- The search of a slot. -/
def find (s : State) (list : CLinearList Addr) (pszName : Name) :
    Option (Option (Addr × Addr × HASHTABLEENTRY)) :=
  findFrom s.entries list pszName list.allocated list.pFirst

/-- `clear` of the list of a slot. -/
def clearSlot (parrLists : Slots) (i : ℕ) : Option Slots := do
  match ← parrLists[i]? with
  | none => return parrLists
  | some list => return parrLists.set i (some (← list.clear))

/-- Whether `n` is behind the divisors that are tried, or divides `x`. -/
def oddLoop (x sqr : ℕ) : ℕ → ℕ → ℕ
  | 0, n => n
  | fuel + 1, n => if n ≤ sqr ∧ x % n ≠ 0 then oddLoop x sqr fuel (n + 2) else n

def primeLoop (sqr : ℕ) : ℕ → ℕ → Option ℕ
  | 0, _ => none
  | fuel + 1, x => if sqr < oddLoop x sqr sqr 3 then some x else primeLoop sqr fuel (x + 2)

/-- The bound for the divisors is not raised with `x`. Since `2 ^ 31 - 1` is a prime, the search
from an `int` ends at an `int`. -/
def nextPrime (x : ℕ) : Option ℕ :=
  if x < 2 then some 2
  else if x = 3 then some 3
  else
    let x := if x % 2 = 0 then x + 1 else x
    primeLoop (Nat.sqrt x + 1) x x

/-- The inner loop of `setSize0`; `moved` entries have been moved before, and `mem` is what
`malloc` gives for them. -/
def moveEntries (entries : Entry) (list : CLinearList Addr) (iNewSize : ℕ) (mem : ℕ → Addr) :
    ℕ → Option Addr → Slots × ℕ → Option (Slots × ℕ)
  | _, none, made => some made
  | 0, some _, _ => none
  | fuel + 1, some pLLE, (parrNew, moved) => do
    let e ← list.heap pLLE
    let pHTE ← entries e.pObject
    let ulHash ← hashcode iNewSize pHTE.pszName
    let parrNew ← addToSlot parrNew ulHash e.pObject (mem moved)
    moveEntries entries list iNewSize mem fuel e.pNext (parrNew, moved + 1)

/-- A slot is moved and its list killed. -/
def moveSlot (s : State) (iNewSize : ℕ) (mem : ℕ → Addr) (made : Slots × ℕ) (i : ℕ) :
    Option (Slots × ℕ) := do
  match ← s.parrLists[i]? with
  | none => return made
  | some list =>
    let made ← moveEntries s.entries list iNewSize mem list.allocated list.pFirst made
    let _ ← list.clear
    return made

namespace State

def setSize0 (s : State) (iNewSize : ℕ) (mem : ℕ → Addr) : Option State :=
  if s.iSize = iNewSize then some s
  else do
    let made ← (List.range s.iSize).foldlM (moveSlot s iNewSize mem)
      (List.replicate iNewSize none, 0)
    return { s with iSize := iNewSize, parrLists := made.1 }

def setSize (s : State) (iNewSize : ℤ) (mem : ℕ → Addr) : Option State :=
  if (s.iSize : ℤ) < iNewSize then do
    let iPrime ← nextPrime iNewSize.toNat
    s.setSize0 iPrime mem
  else some s

def rehash (s : State) (mem : ℕ → Addr) : Option State := s.setSize s.iElements mem

def clear (s : State) : Option State := do
  let parrLists ← (List.range s.iSize).foldlM clearSlot s.parrLists
  return { s with iSize := 0, iElements := 0, parrLists := parrLists }

def addElement (s : State) (pszName : Name) (pObject : Pointer) (pHTE pLLE : Addr) :
    Option State := do
  let ulHash ← hashcode s.iSize pszName
  let entries := Function.update s.entries pHTE (some ⟨pszName, pObject⟩)
  let parrLists ← addToSlot s.parrLists ulHash pHTE pLLE
  return { s with iElements := s.iElements + 1, parrLists := parrLists, entries := entries }

def removeElement (s : State) (pszName : Name) : Option (State × Pointer) := do
  let ulHash ← hashcode s.iSize pszName
  match ← s.parrLists[ulHash]? with
  | none => return (s, 0)
  | some list =>
    match ← find s list pszName with
    | none => return (s, 0)
    | some (pLLE, pHTE, entry) =>
      let list ← list.removeElement pLLE
      return ({ s with
        iElements := s.iElements - 1
        parrLists := s.parrLists.set ulHash (some list)
        entries := Function.update s.entries pHTE none }, entry.pObject)

def getElement (s : State) (pszName : Name) : Option Pointer := do
  let ulHash ← hashcode s.iSize pszName
  match ← s.parrLists[ulHash]? with
  | none => return 0
  | some list =>
    match ← find s list pszName with
    | none => return 0
    | some (_, _, entry) => return entry.pObject

end State

/-- A call, with the memory that is given to it. -/
inductive Op where
  | addElement (pszName : Name) (pObject : Pointer) (pHTE pLLE : Addr)
  | removeElement (pszName : Name)
  | getElement (pszName : Name)
  | setSize (iNewSize : ℤ) (mem : ℕ → Addr)
  | rehash (mem : ℕ → Addr)
  | clear

/-- `none` where a call answers nothing about an object. -/
abbrev Answer := Option Pointer

def step (s : State) : Op → Option (State × Answer)
  | .addElement pszName pObject pHTE pLLE =>
    (s.addElement pszName pObject pHTE pLLE).map fun s' => (s', none)
  | .removeElement pszName => (s.removeElement pszName).map (Prod.map id some)
  | .getElement pszName => (s.getElement pszName).map fun pObject => (s, some pObject)
  | .setSize iNewSize mem => (s.setSize iNewSize mem).map fun s' => (s', none)
  | .rehash mem => (s.rehash mem).map fun s' => (s', none)
  | .clear => s.clear.map fun s' => (s', none)

def slotCount : Option (Option (CLinearList Addr)) → ℤ
  | some (some list) => list.iSize
  | _ => 0

/-- The number of entries in the lists. -/
def entryCount (s : State) : ℤ :=
  ((List.range s.iSize).map fun i => slotCount s.parrLists[i]?).sum

/-! ## What the calls are for -/

/-- The names and objects that are there, the oldest first. -/
abbrev Table := List (Name × Pointer)

def after (table : Table) : Op → Table
  | .addElement pszName pObject _ _ => table ++ [(pszName, pObject)]
  | .removeElement pszName => table.eraseP fun x => decide (x.1 = pszName)
  | .getElement _ | .setSize _ _ | .rehash _ => table
  | .clear => []

/-- The object of the oldest entry with the name. -/
def objectOf (table : Table) (pszName : Name) : Pointer :=
  ((table.find? fun x => decide (x.1 = pszName)).map Prod.snd).getD 0

def answerOf (table : Table) : Op → Answer
  | .removeElement pszName | .getElement pszName => some (objectOf table pszName)
  | .addElement _ _ _ _ | .setSize _ _ | .rehash _ | .clear => none

/-- No call of a run divides by zero or leaves its memory, each gives the right answer, and the
entries are counted. -/
def RunPromised : State → Table → List Op → Prop
  | _, _, [] => True
  | s, table, op :: ops => ∃ s', step s op = some (s', answerOf table op) ∧
      s'.iElements = (after table op).length ∧ entryCount s' = (after table op).length ∧
      RunPromised s' (after table op) ops

/-- The memory a call is given is not in use. -/
def Offered (s : State) : Op → Prop
  | .addElement _ _ pHTE pLLE => s.entries pHTE = none ∧
      ∀ list, some list ∈ s.parrLists → list.heap pLLE = none
  | .setSize _ mem | .rehash mem => Function.Injective mem
  | .removeElement _ | .getElement _ | .clear => True

def RunOffered : State → List Op → Prop
  | _, [] => True
  | s, op :: ops => Offered s op ∧ ∀ s' answer, step s op = some (s', answer) → RunOffered s' ops

/-- Names are looked for only while the array has slots. -/
def StepFits (s : State) : Op → Prop
  | .addElement _ _ _ _ | .removeElement _ | .getElement _ => s.iSize ≠ 0
  | .setSize _ _ | .rehash _ | .clear => True

def RunFits : State → List Op → Prop
  | _, [] => True
  | s, op :: ops =>
    StepFits s op ∧ ∀ s' answer, step s op = some (s', answer) → RunFits s' ops

end Odin32.HashtableLookup
