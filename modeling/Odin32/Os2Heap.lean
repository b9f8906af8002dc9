import Odin32.ByteMemory
import Odin32.Word
import Mathlib.Logic.Function.Basic
import Mathlib.Data.List.Pairwise

/-! # The Win32 heap

The blocks of an `OS2Heap`: each has a header in front, and both lie in a block of the C
library. What the C library answers, what it leaves in memory it has back and whether a
stray header can be read are part of a call. -/

set_option autoImplicit false

namespace Odin32.Os2Heap

open ByteMemory Word

def magicNrHeap : ℕ := 0x87654321

/-- `sizeof(HEAPELEM)`: `magic`, `lpMem`, `cursize` and `orgsize`. -/
def heapOverhead : ℕ := 16

def heapZeroMemory : ℕ := 8

def heapAlign (a : ℕ) : ℕ := u32 (a + 7) / 8 * 8

/-- A block of the C library. -/
structure Region where
  base : ℕ
  size : ℕ
deriving DecidableEq

structure State where
  mem : Mem
  ulMaxAddr : ℕ
  regions : List Region
  /-- A block was left on a write, or something was freed that is no block. -/
  corrupt : Bool
  /-- The pointers the application was given, with the size it asked for last. -/
  live : ℕ → Option ℕ

def init (ulMaxAddr : UInt32) (mem : Mem) : State where
  mem := mem
  ulMaxAddr := ulMaxAddr.toNat
  regions := []
  corrupt := false
  live _ := none

/-- What the C library does: the block it gives, and the bytes it leaves outside of blocks. -/
structure Env where
  given : Option ℕ
  scribble : Mem

namespace State

def owns (s : State) (a : ℕ) : Bool :=
  s.regions.any fun r => decide (r.base ≤ a ∧ a < r.base + r.size)

/-- The `n` bytes at `a` lie in the block that `q` points into. -/
def within (s : State) (q a n : ℕ) : Bool :=
  s.regions.any fun r =>
    decide (r.base ≤ q ∧ q < r.base + r.size ∧ r.base ≤ a ∧ a + n ≤ r.base + r.size)

/-- A write of `n` bytes at `a`, through a pointer that comes from `q`. -/
def put (s : State) (q a n : ℕ) (m : Mem) : State :=
  if n = 0 then s
  else if s.within q a n then { s with mem := m }
  else { s with corrupt := true }

def setDword (s : State) (q a v : ℕ) : State := s.put q a 4 (copyBytes s.mem a v 0 4)

def memset0 (s : State) (a n : ℕ) : State :=
  s.put a a n fun b => if a ≤ b ∧ b < a + n then 0 else s.mem b

def memcpy (s : State) (dst src n : ℕ) : State :=
  s.put dst dst n fun b => if dst ≤ b ∧ b < dst + n then s.mem (src + (b - dst)) else s.mem b

def scribbled (s : State) (m : Mem) : State :=
  { s with mem := fun a => if s.owns a then s.mem a else m a }

/-- `_umalloc`: `NULL`, or an aligned block apart from all others. -/
def umalloc (s : State) (n : ℕ) (env : Env) : Option (State × ℕ) :=
  match env.given with
  | none => some (s.scribbled env.scribble, 0)
  | some p =>
    if 0x10000 ≤ p ∧ p % 8 = 0 ∧ p + n ≤ s.ulMaxAddr ∧
        ∀ r ∈ s.regions, p + n ≤ r.base ∨ r.base + r.size ≤ p then
      some ({ s.scribbled env.scribble with regions := ⟨p, n⟩ :: s.regions }, p)
    else none

/-- `free` of the C library. -/
def ufree (s : State) (p : ℕ) (scribble : Mem) : State :=
  match s.regions.find? fun r => r.base == p with
  | none => { s with corrupt := true }
  | some r => { s with regions := s.regions.erase r }.scribbled scribble

def getHeapObj (lpMem : ℕ) : ℕ := sub32 lpMem heapOverhead

/-- With `bad` as the answer of `IsBadReadPtr` where the header is in no block. -/
def heapElemValid (s : State) (bad : Bool) (helem : ℕ) : Bool :=
  (s.within helem helem heapOverhead || !bad) && word s.mem helem 4 == magicNrHeap

def alloc (s : State) (dwFlags dwBytes : ℕ) (env : Env) : Option (State × ℕ) :=
  let dwAllocBytes := heapAlign dwBytes
  match s.umalloc (add32 dwAllocBytes heapOverhead) env with
  | none => none
  | some (s, lpMem) =>
    if lpMem = 0 then some (s, 0)
    else
      let s := if dwFlags &&& heapZeroMemory ≠ 0 then
        s.memset0 lpMem (add32 dwAllocBytes heapOverhead) else s
      let lpHeapObj := heapAlign lpMem
      let s := s.setDword lpMem (lpHeapObj + 4) lpMem
      let s := s.setDword lpMem lpHeapObj magicNrHeap
      let s := s.setDword lpMem (lpHeapObj + 12) dwBytes
      let s := s.setDword lpMem (lpHeapObj + 8) dwBytes
      some (s, lpHeapObj + heapOverhead)

/-- What `Size` returns for what is no block. -/
def noSize : ℕ := 0xFFFFFFFF

def size (s : State) (lpMem : ℕ) (bad : Bool) : ℕ :=
  let helem := getHeapObj lpMem
  if lpMem = 0 then noSize
  else if lpMem ≥ s.ulMaxAddr ∨ lpMem < 0x10000 then noSize
  else if s.heapElemValid bad helem = false then noSize
  else word s.mem (helem + 8) 4

def free (s : State) (lpMem : ℕ) (bad : Bool) (scribble : Mem) : State × Bool :=
  let helem := getHeapObj lpMem
  if lpMem ≥ s.ulMaxAddr ∨ lpMem < 0x10000 then (s, false)
  else if s.heapElemValid bad helem = false then (s, false)
  else (s.ufree (word s.mem (helem + 4) 4) scribble, true)

def reAlloc (s : State) (dwFlags lpMem dwBytes : ℕ) (bad : Bool) (env : Env) (scribble : Mem) :
    Option (State × ℕ) :=
  let helem := getHeapObj lpMem
  if dwBytes = 0 then some (s, 0)
  else if lpMem = 0 then s.alloc dwFlags dwBytes env
  else if s.heapElemValid bad helem = false then some (s, lpMem)
  else
    let maxSize := heapAlign (word s.mem (helem + 12) 4)
    if dwBytes ≤ maxSize then some (s.setDword helem (helem + 8) dwBytes, lpMem)
    else
      match s.alloc dwFlags dwBytes env with
      | none => none
      | some (s, lpNewMem) =>
        let s := s.memcpy lpNewMem lpMem (if dwBytes < maxSize then dwBytes else maxSize)
        some ((s.free lpMem bad scribble).1, lpNewMem)

end State

/-- A call, or a write of the application to one of its blocks. -/
inductive Op where
  | alloc (dwFlags dwBytes : UInt32) (env : Env)
  | reAlloc (dwFlags lpMem dwBytes : UInt32) (bad : Bool) (env : Env) (scribble : Mem)
  | free (lpMem : UInt32) (bad : Bool) (scribble : Mem)
  | size (lpMem : UInt32) (bad : Bool)
  | store (lpMem : UInt32) (offset : ℕ) (value : UInt8)

/-- One call, with what it returns; `none` where the C library cannot answer so, or the
application does not write to a block of its own. -/
def step (s : State) : Op → Option (State × ℕ)
  | .alloc dwFlags dwBytes env => do
    let (s', p) ← s.alloc dwFlags.toNat dwBytes.toNat env
    if p = 0 then some (s', 0)
    else some ({ s' with live := Function.update s.live p (some dwBytes.toNat) }, p)
  | .reAlloc dwFlags lpMem dwBytes bad env scribble => do
    let (s', p) ← s.reAlloc dwFlags.toNat lpMem.toNat dwBytes.toNat bad env scribble
    if p = 0 then some (s', 0)
    else
      let live := Function.update s.live lpMem.toNat none
      some ({ s' with live := Function.update live p (some dwBytes.toNat) }, p)
  | .free lpMem bad scribble =>
    match s.free lpMem.toNat bad scribble with
    | (s', true) => some ({ s' with live := Function.update s.live lpMem.toNat none }, 1)
    | (s', false) => some (s', 0)
  | .size lpMem bad => some (s, s.size lpMem.toNat bad)
  | .store lpMem offset value =>
    match s.live lpMem.toNat with
    | none => none
    | some n =>
      if offset < n then
        some ({ s with mem := Function.update s.mem (lpMem.toNat + offset) value }, 0)
      else none

end Odin32.Os2Heap
