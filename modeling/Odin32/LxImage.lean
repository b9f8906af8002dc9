import Odin32.LxFixups

/-! # The whole image

What the page loader is meant to deliver: the contiguous image of the objects, with
every base relocation applied to it once and in full. The placement of an object
moves the pointers into it, and the delta of the object that holds a fixup moves
everything else. -/

set_option autoImplicit false

namespace Odin32.LxImage
open Odin32.Word Odin32.ByteMemory Odin32.LxPages Odin32.LxFixups

/-- Where the pages of an object end. -/
def pagesEnd (o : LxObject) : ℕ := o.ulRVA + 0x1000 * pagesFor o.cbVirtual

def imageEnd : List LxObject → ℕ
  | [] => 0
  | [o] => pagesEnd o
  | _ :: o :: rest => imageEnd (o :: rest)

/-- The object that an RVA belongs to, with its index: the last one that starts at
or below it, up to the end of the image. -/
def objectFrom (r : ℕ) : ℕ → List LxObject → Option (ℕ × LxObject)
  | _, [] => none
  | k, [o] => if o.ulRVA ≤ r ∧ r < pagesEnd o then some (k, o) else none
  | k, o :: next :: rest =>
    if next.ulRVA ≤ r then objectFrom r (k + 1) (next :: rest)
    else if o.ulRVA ≤ r then some (k, o) else none

def objectAt (pe : PeModule) (r : ℕ) : Option (ℕ × LxObject) := objectFrom r 0 pe.paObjects

/-- The unrelocated image: the file data of the objects, and zeros. -/
def image (pe : PeModule) : Mem := fun r =>
  match objectAt pe r with
  | some (_, o) => if r < o.ulRVA + o.cbPhysical then pe.file (o.offPEFile + (r - o.ulRVA)) else 0
  | none => 0

/-- What a byte at an RVA moves by. In one object everything moves by the same. -/
def deltaAt (pe : PeModule) (r : ℕ) : ℕ :=
  match if pe.fAllInOneObject then pe.paObjects.head?.map (0, ·) else objectAt pe r with
  | some (k, o) => objectDelta pe k o
  | none => 0

structure Fixup where
  ulRVA : ℕ
  fType : ℕ
deriving DecidableEq, Repr

def Fixup.size (f : Fixup) : ℕ := acbFixupTypes f.fType

def fixupAt (virtualAddress typeOffset : ℕ) : Fixup :=
  ⟨virtualAddress + typeOffset % 0x1000, typeOffset / 0x1000⟩

def fixupsOf (pbr : BaseRelocation) : List Fixup :=
  pbr.typeOffset.map (fixupAt pbr.virtualAddress)

def fixups (pe : PeModule) : List Fixup := (pe.pBaseRelocs.getD []).flatMap fixupsOf

/-- The new value of a pointer at a place that moves by `delta`. -/
def pointerValue (pe : PeModule) (delta v : ℕ) : ℕ :=
  let r := sub32 v pe.ulImageBase
  match if pe.fAllInOneObject then none else objectAt pe r with
  | some (k, o) => sub32 (add32 (pe.oteBase k) r) o.ulRVA
  | none => add32 v delta

def fixupValue (pe : PeModule) (fType delta v : ℕ) : ℕ :=
  match fType with
  | imageRelBasedHighLow => pointerValue pe delta v
  | imageRelBasedHigh => v + delta / 0x10000
  | imageRelBasedLow => v + delta % 0x10000
  | _ => v

/-- One fixup, applied in full. -/
def applyWhole (pe : PeModule) (f : Fixup) (img : Mem) : Mem :=
  copyBytes img f.ulRVA (fixupValue pe f.fType (deltaAt pe f.ulRVA) (word img f.ulRVA f.size))
    0 f.size

def wholeImage (pe : PeModule) : Mem :=
  (fixups pe).foldl (fun img f => applyWhole pe f img) (image pe)

/-- An RVA on a page of the module. -/
def Loaded (pe : PeModule) (r : ℕ) : Prop :=
  if pe.fAllInOneObject then r < imageEnd pe.paObjects
  else ∃ o ∈ pe.paObjects, o.ulRVA ≤ r ∧ r < pagesEnd o

/-- A module as `init` and `loadBaseRelocations` leave it for a PE image that fits
the address space: the header object comes first, the objects are page aligned and
apart, their file data lies in the file; the blocks go up by pages, and the fixups
of the three types go up without overlap, on loaded pages. -/
structure WellFormed (pe : PeModule) : Prop where
  header : ∃ o rest, pe.paObjects = o :: rest ∧ o.ulRVA = 0
  aligned : ∀ o ∈ pe.paObjects, 0x1000 ∣ o.ulRVA
  physical : ∀ o ∈ pe.paObjects, o.cbPhysical ≤ o.cbVirtual
  inFile : ∀ o ∈ pe.paObjects, o.offPEFile + o.cbPhysical < 0x100000000
  fits : ∀ o ∈ pe.paObjects, pagesEnd o < 0x100000000
  apart : pe.paObjects.Pairwise fun o o' => pagesEnd o ≤ o'.ulRVA
  imageBase : pe.ulImageBase < 0x100000000
  placement : ∀ i, pe.oteBase i < 0x100000000
  blockAligned : ∀ pbr ∈ pe.pBaseRelocs.getD [], 0x1000 ∣ pbr.virtualAddress
  blockSorted : (pe.pBaseRelocs.getD []).Pairwise fun b b' => b.virtualAddress < b'.virtualAddress
  types : ∀ f ∈ fixups pe, f.fType = imageRelBasedHighLow ∨ f.fType = imageRelBasedHigh ∨
    f.fType = imageRelBasedLow
  fixupsApart : (fixups pe).Pairwise fun f f' => f.ulRVA + f.size ≤ f'.ulRVA
  loaded : ∀ f ∈ fixups pe, ∀ k < f.size, Loaded pe (f.ulRVA + k)

/-- A page of an object, counted from the start of the object. -/
structure Page where
  iObject : ℕ
  index : ℕ
deriving DecidableEq, Repr

def Page.Valid (pe : PeModule) (p : Page) : Prop :=
  if pe.fAllInOneObject then p.iObject = 0 ∧ 0x1000 * p.index < imageEnd pe.paObjects
  else ∃ o, pe.paObjects[p.iObject]? = some o ∧ p.index < pagesFor o.cbVirtual

def Page.ulRVA (pe : PeModule) (p : Page) : ℕ :=
  match pe.paObjects[p.iObject]? with
  | some o => o.ulRVA + 0x1000 * p.index
  | none => 0

/-- One page as the loader makes it: filled from the file, then given to `applyFixups`. -/
def loadPage (pe : PeModule) (st : FixupState) (p : Page) : Except ApiRet Mem × FixupState :=
  match readAtRVA pe (p.ulRVA pe) 0x1000 with
  | .error rc => (.error rc, st)
  | .ok pvPage =>
    applyFixups pe st p.iObject (add32 (pe.oteBase p.iObject) (0x1000 * p.index)) pvPage

def loadPages (pe : PeModule) : FixupState → List Page → List (Page × Except ApiRet Mem)
  | _, [] => []
  | st, p :: ps =>
    let (result, st') := loadPage pe st p
    (p, result) :: loadPages pe st' ps

/-- A page result that holds the bytes of the relocated image. -/
def IsWhole (pe : PeModule) (p : Page) (result : Except ApiRet Mem) : Prop :=
  ∃ pvPage, result = .ok pvPage ∧ ∀ i < 0x1000, pvPage i = wholeImage pe (p.ulRVA pe + i)

/-- Page-wise relocation is whole-image relocation, for pages loaded in any order. -/
def PagewiseIsWhole (pe : PeModule) : Prop :=
  ∀ ps : List Page, (∀ p ∈ ps, p.Valid pe) →
    ∀ r ∈ loadPages pe {} ps, IsWhole pe r.1 r.2

/-- The bytes of a fixup on its first page, if it goes beyond. -/
def Fixup.room (f : Fixup) : ℕ := 0x1000 - f.ulRVA % 0x1000

def Fixup.Straddles (f : Fixup) : Prop := f.room < f.size

/-- The value of a fixup before any relocation. -/
def Fixup.original (pe : PeModule) (f : Fixup) : ℕ := word (image pe) f.ulRVA f.size

/-- When the two halves of a fixup on two pages come out right. Its first page moves
by `a` and its second one by `b`. The half of a `HIGH` fixup on the first page is
moved by `a >> 8`, so that this must look like `a >> 16`; everywhere else the second
half must not see a difference between `a` and `b`. -/
def StraddleOk (pe : PeModule) (f : Fixup) : Prop :=
  let v := f.original pe
  let a := deltaAt pe f.ulRVA
  let b := deltaAt pe (f.ulRVA + f.room)
  match f.fType with
  | imageRelBasedHigh => a / 0x100 % 0x100 = a / 0x10000 % 0x100 ∧
      (v + b / 0x10000) / 0x100 % 0x100 = (v + a / 0x10000) / 0x100 % 0x100
  | imageRelBasedLow => (v + b) / 0x100 % 0x100 = (v + a) / 0x100 % 0x100
  | imageRelBasedHighLow => objectAt pe (sub32 v pe.ulImageBase) = none →
      add32 v b / 0x100 ^ f.room = add32 v a / 0x100 ^ f.room
  | _ => True

end Odin32.LxImage
