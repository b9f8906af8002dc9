import Odin32.LinkedList
import Mathlib.Data.Int.Notation

/-! # The linear list of the collections

`CLinearList` of `ccollection.cpp`: entries on the heap with links both ways. A result of
`none` is an access to memory that no entry lives in, or a walk without an end. -/

set_option autoImplicit false

namespace Odin32.LinearList

open LinkedList

abbrev Addr := ℕ

structure LinearListEntry (ω : Type) where
  pNext : Option Addr
  pPrev : Option Addr
  pObject : ω
deriving DecidableEq

abbrev Heap (ω : Type) := Addr → Option (LinearListEntry ω)

/-- `iSize` is an `int`; the entries that fit into a 32-bit address space do not reach its
bound. `allocated` is how often `malloc` gave an entry. -/
structure CLinearList (ω : Type) where
  iSize : ℤ
  pFirst : Option Addr
  pLast : Option Addr
  heap : Heap ω
  allocated : ℕ

variable {ω : Type}

def CLinearList.new : CLinearList ω := ⟨0, none, none, fun _ => none, 0⟩

/-- `a->pNext = link`. -/
def setNext (heap : Heap ω) (a : Addr) (link : Option Addr) : Option (Heap ω) :=
  (heap a).map fun e => Function.update heap a (some { e with pNext := link })

/-- `a->pPrev = link`. -/
def setPrev (heap : Heap ω) (a : Addr) (link : Option Addr) : Option (Heap ω) :=
  (heap a).map fun e => Function.update heap a (some { e with pPrev := link })

namespace CLinearList

/-- `add0`, with the entry `malloc` gave. -/
def add0 (s : CLinearList ω) (pObject : ω) : Option Addr → Option (CLinearList ω)
  | none => some s
  | some new => some
    { iSize := 1
      pFirst := some new
      pLast := some new
      heap := Function.update s.heap new (some ⟨none, none, pObject⟩)
      allocated := s.allocated + 1 }

def addBefore (s : CLinearList ω) (pLLE : Addr) (pObject : ω) :
    Option Addr → Option (CLinearList ω)
  | none => some s
  | some new => do
    let e ← s.heap pLLE
    let heap := Function.update s.heap new (some ⟨some pLLE, e.pPrev, pObject⟩)
    let heap ← setPrev heap pLLE (some new)
    return { s with
      heap := heap
      pFirst := if s.pFirst = some pLLE then some new else s.pFirst
      iSize := s.iSize + 1
      allocated := s.allocated + 1 }

def addAfter (s : CLinearList ω) (pLLE : Addr) (pObject : ω) :
    Option Addr → Option (CLinearList ω)
  | none => some s
  | some new => do
    let e ← s.heap pLLE
    let heap := Function.update s.heap new (some ⟨e.pNext, some pLLE, pObject⟩)
    let heap ← setNext heap pLLE (some new)
    return { s with
      heap := heap
      pLast := if s.pLast = some pLLE then some new else s.pLast
      iSize := s.iSize + 1
      allocated := s.allocated + 1 }

def addFirst (s : CLinearList ω) (pObject : ω) (mem : Option Addr) : Option (CLinearList ω) :=
  match s.pFirst with
  | some first => s.addBefore first pObject mem
  | none => s.add0 pObject mem

def addLast (s : CLinearList ω) (pObject : ω) (mem : Option Addr) : Option (CLinearList ω) :=
  match s.pLast with
  | some last => s.addAfter last pObject mem
  | none => s.add0 pObject mem

/-- `if (a) a->pNext = link`. -/
def setNextOf (heap : Heap ω) (a link : Option Addr) : Option (Heap ω) :=
  match a with
  | some a => setNext heap a link
  | none => some heap

/-- `if (a) a->pPrev = link`. -/
def setPrevOf (heap : Heap ω) (a link : Option Addr) : Option (Heap ω) :=
  match a with
  | some a => setPrev heap a link
  | none => some heap

def removeElement (s : CLinearList ω) (pLLE : Addr) : Option (CLinearList ω) := do
  let e ← s.heap pLLE
  let heap ← setNextOf s.heap e.pPrev e.pNext
  let heap ← setPrevOf heap e.pNext e.pPrev
  return { s with
    pFirst := if s.pFirst = some pLLE then e.pNext else s.pFirst
    pLast := if s.pLast = some pLLE then e.pPrev else s.pLast
    heap := Function.update heap pLLE none
    iSize := s.iSize - 1 }

/-- The loop of `findForward`. -/
def findForward [DecidableEq ω] (heap : Heap ω) (pObject : ω) :
    ℕ → Option Addr → Option (Option Addr)
  | _, none => some none
  | 0, some _ => none
  | fuel + 1, some a => do
    let e ← heap a
    if e.pObject = pObject then return some a else findForward heap pObject fuel e.pNext

/-- A walk that meets more entries than were ever allocated goes round for ever. -/
def removeObject [DecidableEq ω] (s : CLinearList ω) (pObject : ω) : Option (CLinearList ω) := do
  match ← findForward s.heap pObject s.allocated s.pFirst with
  | none => return s
  | some a => s.removeElement a

/-- The loop of `clear`. -/
def freeAll : ℕ → Heap ω → Option Addr → Option (Heap ω)
  | _, heap, none => some heap
  | 0, _, some _ => none
  | fuel + 1, heap, some a => do
    let e ← heap a
    freeAll fuel (Function.update heap a none) e.pNext

/-- `clear` takes the ends away first; it does not count. -/
def clear (s : CLinearList ω) : Option (CLinearList ω) := do
  let heap ← freeAll s.allocated s.heap s.pFirst
  return { s with pFirst := none, pLast := none, heap := heap }

end CLinearList

/-- A call, with the entry `malloc` gives where it asks for one. -/
inductive Op (ω : Type) where
  | addFirst (pObject : ω) (mem : Option Addr)
  | addLast (pObject : ω) (mem : Option Addr)
  | addBefore (pLLE : Addr) (pObject : ω) (mem : Option Addr)
  | addAfter (pLLE : Addr) (pObject : ω) (mem : Option Addr)
  | removeElement (pLLE : Addr)
  | removeObject (pObject : ω)
  | clear

def step [DecidableEq ω] (s : CLinearList ω) : Op ω → Option (CLinearList ω)
  | .addFirst pObject mem => s.addFirst pObject mem
  | .addLast pObject mem => s.addLast pObject mem
  | .addBefore pLLE pObject mem => s.addBefore pLLE pObject mem
  | .addAfter pLLE pObject mem => s.addAfter pLLE pObject mem
  | .removeElement pLLE => s.removeElement pLLE
  | .removeObject pObject => s.removeObject pObject
  | .clear => s.clear

/-! ## What the calls are for -/

/-- The entries of a list in order, each with its object. -/
abbrev Entries (ω : Type) := List (Addr × ω)

def insertBefore (pLLE : Addr) (x : Addr × ω) : Entries ω → Entries ω
  | [] => []
  | y :: l => if y.1 = pLLE then x :: y :: l else y :: insertBefore pLLE x l

def insertAfter (pLLE : Addr) (x : Addr × ω) : Entries ω → Entries ω
  | [] => []
  | y :: l => if y.1 = pLLE then y :: x :: l else y :: insertAfter pLLE x l

/-- The entries after a call; without memory nothing is inserted. -/
def expected [DecidableEq ω] (l : Entries ω) : Op ω → Entries ω
  | .addFirst pObject (some new) => (new, pObject) :: l
  | .addLast pObject (some new) => l ++ [(new, pObject)]
  | .addBefore pLLE pObject (some new) => insertBefore pLLE (new, pObject) l
  | .addAfter pLLE pObject (some new) => insertAfter pLLE (new, pObject) l
  | .addFirst _ none | .addLast _ none | .addBefore _ _ none | .addAfter _ _ none => l
  | .removeElement pLLE => l.eraseP fun x => decide (x.1 = pLLE)
  | .removeObject pObject => l.eraseP fun x => decide (x.2 = pObject)
  | .clear => []

/-- The walks from both ends and the count agree with the entries. -/
structure Represents (s : CLinearList ω) (l : Entries ω) : Prop where
  forward : Chain LinearListEntry.pNext s.heap s.pFirst (l.map Prod.fst)
  backward : Chain LinearListEntry.pPrev s.heap s.pLast (l.map Prod.fst).reverse
  objects : ∀ x ∈ l, (s.heap x.1).map LinearListEntry.pObject = some x.2
  size : s.iSize = l.length

end Odin32.LinearList
