import Odin32.ByteTable
import Odin32.LxFixups

/-! # The buffered reader of an image

`BufferedRVARead` with its `readAtRVA`, `dupString`, assignment and `readToBuffer`. The loop
that fills the buffer is that of `Pe2Lx::readAtRVA`. A call has no result where its loop would
need more rounds than it is given, and the loops are given as many as a call that ends can
take. -/

set_option autoImplicit false

namespace Odin32.LxReader
open Word ByteMemory ByteTable LxPages LxFixups

/-- `~0UL`: there is nothing in the buffer. -/
def noRVA : ℕ := 0xffffffff

/-- A reader; the file and the objects stand in `pe`. -/
structure BufferedRVARead where
  pe : PeModule
  ulRVA : ℕ
  achBuffer : Mem

/-- The constructor, over the memory it finds. -/
def BufferedRVARead.new (pe : PeModule) (fresh : Mem) : BufferedRVARead := ⟨pe, noRVA, fresh⟩

/-- What a call returns instead of `NO_ERROR`; `trap` is that it stores outside of its heap
block. -/
inductive Failure where
  | rc (rc : ApiRet)
  | notEnoughMemory
  | trap
deriving DecidableEq, Repr

namespace BufferedRVARead

/-- `operator =`; the buffer of a reader that has nothing in it is not copied. -/
def assign (this srcObj : BufferedRVARead) : BufferedRVARead where
  pe := srcObj.pe
  ulRVA := srcObj.ulRVA
  achBuffer := if srcObj.ulRVA ≠ noRVA then srcObj.achBuffer else this.achBuffer

/-- Where `readToBuffer` reads: behind the buffer, or the page of the RVA. -/
def readStart (this : BufferedRVARead) (ulRVA : ℕ) : ℕ :=
  if ulRVA ≠ add32 this.ulRVA 0x1000 ∨ this.ulRVA = noRVA then ulRVA / 0x1000 * 0x1000
  else add32 this.ulRVA 0x1000

/-- `readToBuffer`. After an error nothing counts as being in the buffer. -/
def readToBuffer (this : BufferedRVARead) (ulRVA : ℕ) : BufferedRVARead × Except ApiRet Unit :=
  let ulRVARead := this.readStart ulRVA
  match readAtRVAFrom this.pe.file 0x1000 this.pe.paObjects ulRVARead 0x1000 with
  | .error rc => ({ this with ulRVA := noRVA }, .error rc)
  | .ok achBuffer => ({ this with ulRVA := ulRVARead, achBuffer := achBuffer }, .ok ())

/-- The RVA is in the buffer. -/
def has (this : BufferedRVARead) (ulRVA : ℕ) : Prop :=
  this.ulRVA ≤ ulRVA ∧ ulRVA < add32 this.ulRVA 0x1000

instance (this : BufferedRVARead) (ulRVA : ℕ) : Decidable (this.has ulRVA) :=
  inferInstanceAs (Decidable (_ ∧ _))

/-- The bytes of the buffer from an RVA in it on. -/
def tail (this : BufferedRVARead) (ulRVA : ℕ) : List UInt8 :=
  slice this.achBuffer (ulRVA - this.ulRVA) (0x1000 - (ulRVA - this.ulRVA))

/-- The loop of `readAtRVA`, where `read` has been delivered. -/
def readLoop : ℕ → BufferedRVARead → ℕ → ℕ → List UInt8 →
    Option (BufferedRVARead × Except Failure (List UInt8))
  | 0, _, _, _, _ => none
  | rounds + 1, this, ulRVA, cbBuffer, read =>
    if this.has ulRVA then
      let cbRead := min (this.tail ulRVA).length cbBuffer
      let read := read ++ (this.tail ulRVA).take cbRead
      if cbBuffer = cbRead then some (this, .ok read)
      else readLoop rounds this (add32 ulRVA cbRead) (cbBuffer - cbRead) read
    else
      match this.readToBuffer ulRVA with
      | (this, .error rc) => some (this, .error (.rc rc))
      | (this, .ok ()) =>
        if cbBuffer = 0 then some (this, .ok read)
        else readLoop rounds this ulRVA cbBuffer read

/-- A round of the loop delivers a byte at least, or it is followed by one that does. -/
def readAtRVA (this : BufferedRVARead) (ulRVA cbBuffer : ℕ) :
    Option (BufferedRVARead × Except Failure (List UInt8)) :=
  readLoop (2 * cbBuffer + 2) this ulRVA cbBuffer []

/-- The heap block of `dupString`: what has been stored in it, and its size. -/
structure HeapString where
  stored : List UInt8
  cchAllocated : ℕ
deriving DecidableEq, Repr

/-- `malloc` for the first part of the string, whose answer is not looked at, and `realloc` for
more; `room` says whether there is memory. -/
def grow (room : Bool) (cchAlloc : ℕ) : Option HeapString → Except Failure HeapString
  | none => if room then .ok ⟨[], cchAlloc⟩ else .error .trap
  | some psz =>
    if room then .ok { psz with cchAllocated := psz.cchAllocated + cchAlloc }
    else .error .notEnoughMemory

def HeapString.store (psz : HeapString) (chars : List UInt8) : Except Failure HeapString :=
  if psz.stored.length + chars.length ≤ psz.cchAllocated then
    .ok { psz with stored := psz.stored ++ chars }
  else .error .trap

/-- One round of `dupString` in the buffer: the string so far, and whether it is complete. -/
def dupPart (room : Bool) (tail : List UInt8) (psz : Option HeapString) :
    Except Failure (HeapString × Bool) :=
  if (0 : UInt8) ∈ tail then
    let chars := tail.takeWhile (· ≠ 0)
    (grow room (chars.length + 1) psz).bind fun psz =>
      (psz.store (chars ++ [0])).map fun psz => (psz, true)
  else
    (grow room (tail.length + 42) psz).bind fun psz =>
      (psz.store tail).map fun psz => (psz, false)

def dupLoop (room : ℕ → Bool) : ℕ → BufferedRVARead → ℕ → Option HeapString →
    Option (BufferedRVARead × Except Failure (List UInt8))
  | 0, _, _, _ => none
  | rounds + 1, this, ulRVA, psz =>
    if this.has ulRVA then
      match dupPart (room rounds) (this.tail ulRVA) psz with
      | .error e => some (this, .error e)
      | .ok (psz, true) => some (this, .ok psz.stored)
      | .ok (psz, false) => dupLoop room rounds this (alignPage (add32 ulRVA 1)) (some psz)
    else
      match this.readToBuffer ulRVA with
      | (this, .error rc) => some (this, .error (.rc rc))
      | (this, .ok ()) => dupLoop room rounds this ulRVA psz

/-- A round gets behind a page, or it is followed by one that does. -/
def dupString (room : ℕ → Bool) (this : BufferedRVARead) (ulRVA : ℕ) :
    Option (BufferedRVARead × Except Failure (List UInt8)) :=
  dupLoop room 0x200002 this ulRVA none

end BufferedRVARead

end Odin32.LxReader
