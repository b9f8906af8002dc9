import Odin32.HeapBlocks

/-! # The resident heap

`rmalloc`, `rrealloc`, `rfree` and `_res_heapmin` over the list of heap anchors. A heap anchor and
the headers of its blocks stand in the memory they describe, so a block is known by its address.
What the system answers to a call is given with the call. The signature words of the debug layout
take room in the headers; they are taken to be intact. -/

set_option autoImplicit false

namespace Odin32.ResHeap
open Odin32.RankedTree Odin32.Avl Odin32.FreeSize Odin32.HeapBlocks Odin32.Word

/-- `CB_HDR`: a node core of 16 bytes, the signature in the debug layout, and `cbSize`. -/
def cbHdr (debug : Bool) : ℕ := if debug then 24 else 20

/-- `sizeof(MEMBLOCKFREE) - CB_HDR`. -/
def cbLeast : ℕ := 16

/-- `sizeof(MEMBLOCKFREE)`. -/
def cbMemblockFree (debug : Bool) : ℕ := cbHdr debug + cbLeast

/-- `sizeof(HEAPANCHOR)`. -/
def cbHeapAnchor (debug : Bool) : ℕ := if debug then 36 else 32

structure HeapAnchor where
  pha : ℕ
  cbSize : ℕ
  trees : BlockTrees
deriving DecidableEq, Repr

structure ResHeap where
  anchors : List HeapAnchor
  cbResHeapMax : ℕ
deriving DecidableEq, Repr

/-- What one call is answered by the system, for a heap block of a size. -/
structure Answers where
  block : ℕ → Option ℕ

/-- Where a call goes out of what the C code defines. In a new anchor the header of the block in
use is written over the free block, or out of the anchor, when the free one, of `cbFree` bytes,
has no room in front of it. -/
inductive Trap where
  | stackOverrun
  | overlap (cbFree : ℕ)
deriving DecidableEq, Repr

def orOverrun {α : Type} : Option α → Except Trap α
  | none => .error .stackOverrun
  | some a => .ok a

/-- The block with its header at an address. -/
def blockAt (uData cbSize : ℕ) : Memblock := ⟨uData, uData, cbSize⟩

/-! ## Finding memory -/

/-- What the search makes of one anchor. -/
inductive Attempt where
  | tooSmall
  | null (trees : BlockTrees)
  | block (trees : BlockTrees) (pmb : Memblock)

def takeFrom (debug : Bool) (cbUserSize : ℕ) (trees : BlockTrees) : Except Trap Attempt :=
  if trees.cbFree < add32 cbUserSize (cbHdr debug) then .ok .tooSmall
  else
    match bestFit cbUserSize trees with
    | none => .ok .tooSmall
    | some pmbf =>
      if add32 (cbMemblockFree debug) cbUserSize < pmbf.cbSize then do
        let node := sub32 (add32 pmbf.uData pmbf.cbSize) cbUserSize
        let trees ← orOverrun (carve (cbHdr debug) cbUserSize pmbf trees)
        .ok (.block trees (carved cbUserSize node pmbf))
      else do
        let (trees, found) ← orOverrun (takeWhole pmbf trees)
        if found then .ok (.block trees pmbf) else .ok (.null trees)

/-- The block for a request: none, with the heap afterwards, or one that is in no tree yet, with
the anchor it belongs to. -/
inductive FreeMemblock where
  | null (heap : ResHeap)
  | block (front : List HeapAnchor) (pha : HeapAnchor) (back : List HeapAnchor) (pmb : Memblock)

/-- The loop over the anchors: the sum of their sizes when none has a block. -/
inductive Search where
  | exhausted (cbTotalSize : ℕ)
  | done (result : FreeMemblock)

/-- A result of the search further down the list. -/
def Search.behind (pha : HeapAnchor) : Search → Search
  | .exhausted cbTotalSize => .exhausted cbTotalSize
  | .done (.null heap) => .done (.null { heap with anchors := pha :: heap.anchors })
  | .done (.block front other back pmb) => .done (.block (pha :: front) other back pmb)

def search (debug : Bool) (cbUserSize cbResHeapMax : ℕ) :
    ℕ → List HeapAnchor → Except Trap Search
  | cbTotalSize, [] => .ok (.exhausted cbTotalSize)
  | cbTotalSize, pha :: rest => do
    match ← takeFrom debug cbUserSize pha.trees with
    | .tooSmall =>
      let found ← search debug cbUserSize cbResHeapMax (add32 cbTotalSize pha.cbSize) rest
      .ok (found.behind pha)
    | .null trees => .ok (.done (.null ⟨{ pha with trees := trees } :: rest, cbResHeapMax⟩))
    | .block trees pmb => .ok (.done (.block [] { pha with trees := trees } rest pmb))

/-- The anchor and both headers, with the least a free block can have, fit in a block. -/
def Roomy (debug : Bool) (cbUserSize cbBlockSize : ℕ) : Prop :=
  cbHeapAnchor debug + (cbHdr debug + cbLeast) + (cbHdr debug + cbUserSize) ≤ cbBlockSize

instance (debug : Bool) (cbUserSize cbBlockSize : ℕ) :
    Decidable (Roomy debug cbUserSize cbBlockSize) :=
  inferInstanceAs (Decidable (_ ≤ _))

/-- The size `resGetFreeMemblock` gives the free block of a new anchor. -/
def cbNewFree (debug : Bool) (cbUserSize cbBlockSize : ℕ) : ℕ :=
  sub32 (sub32 (sub32 cbBlockSize (cbHeapAnchor debug)) (cbHdr debug * 2)) cbUserSize

/-- A new heap anchor. -/
def addAnchor (debug : Bool) (a : Answers) (cbUserSize cbBlockSize : ℕ) (h : ResHeap) :
    Except Trap FreeMemblock :=
  match a.block cbBlockSize with
  | none => .ok (.null h)
  | some pha =>
    let cbFree := cbNewFree debug cbUserSize cbBlockSize
    if Roomy debug cbUserSize cbBlockSize then do
      let (trees, _) ← orOverrun
        (insertFree (cbHdr debug) (blockAt (add32 pha (cbHeapAnchor debug)) cbFree) .empty)
      .ok (.block h.anchors ⟨pha, cbBlockSize, trees⟩ []
        (blockAt (sub32 (sub32 (add32 pha cbBlockSize) cbUserSize) (cbHdr debug)) cbUserSize))
    else .error (.overlap cbFree)

/-- The bytes a request takes: 16 more for safety when not in debug. -/
def request (debug : Bool) (cbUserSize : ℕ) : ℕ :=
  max (align (if debug then cbUserSize else add32 cbUserSize 16) 4) cbLeast

def resGetFreeMemblock (debug : Bool) (a : Answers) (cbUserSize : ℕ) (h : ResHeap) :
    Except Trap FreeMemblock := do
  let cbUserSize := request debug cbUserSize
  match ← search debug cbUserSize h.cbResHeapMax 0 h.anchors with
  | .done result => .ok result
  | .exhausted cbTotalSize =>
    let cbBlockSize := align (add32 cbUserSize (cbHdr debug * 2)) blockSize
    if add32 cbTotalSize cbBlockSize ≤ h.cbResHeapMax then
      addAnchor debug a cbUserSize cbBlockSize h
    else .ok (.null h)

/-! ## Finding a pointer -/

/-- The anchors before the one a pointer lies in, that one and those behind it. -/
def findAnchor (pv : ℕ) : List HeapAnchor → Option (List HeapAnchor × HeapAnchor × List HeapAnchor)
  | [] => none
  | pha :: rest =>
    if pha.pha < pv ∧ pv < add32 pha.pha pha.cbSize then some ([], pha, rest)
    else (findAnchor pv rest).map fun r => (pha :: r.1, r.2)

def resFindUsedBlock (debug : Bool) (pvUser : ℕ) (h : ResHeap) :
    Option ((List HeapAnchor × HeapAnchor × List HeapAnchor) × Memblock) :=
  if pvUser = 0 then none
  else do
    let place ← findAnchor pvUser h.anchors
    let e ← avlGet (sub32 pvUser (cbHdr debug)) place.2.1.trees.pcoreUsed
    some (place, e.2)

def resFindWithinUsedBlock (debug : Bool) (pvUser : ℕ) (h : ResHeap) : Option Memblock := do
  let place ← findAnchor pvUser h.anchors
  let e ← avlGetBestFit pvUser true place.2.1.trees.pcoreUsed none
  let pmb := e.2
  if pvUser < add32 (add32 pmb.uData pmb.cbSize) (cbHdr debug) ∧
      add32 pmb.uData (cbHdr debug) ≤ pvUser then some pmb
  else none

def resMsize (debug : Bool) (pv : ℕ) (h : ResHeap) : ℕ :=
  match resFindUsedBlock debug pv h with
  | none => 0
  | some (_, pmb) => pmb.cbSize

def resValidptr (debug : Bool) (pv : ℕ) (h : ResHeap) : Bool :=
  (resFindWithinUsedBlock debug pv h).isSome

def resValidptr2 (debug : Bool) (pv cbSize : ℕ) (h : ResHeap) : Bool :=
  match resFindWithinUsedBlock debug pv h with
  | none => false
  | some pmb =>
    decide (cbSize ≤ sub32 pmb.cbSize (sub32 (sub32 pv pmb.uData) (cbHdr debug)))

/-! ## The calls -/

/-- The heap with other trees in the anchor of a place. -/
def ResHeap.put (h : ResHeap) (place : List HeapAnchor × HeapAnchor × List HeapAnchor)
    (trees : BlockTrees) : ResHeap :=
  { h with anchors := place.1 ++ { place.2.1 with trees := trees } :: place.2.2 }

def rmalloc (debug : Bool) (a : Answers) (cbSize : ℕ) (h : ResHeap) :
    Except Trap (ResHeap × Option ℕ) :=
  if cbSize = 0 then .ok (h, none)
  else do
    match ← resGetFreeMemblock debug a cbSize h with
    | .null heap => .ok (heap, none)
    | .block front pha back pmb =>
      let trees ← orOverrun (insertUsed pmb pha.trees)
      .ok (h.put (front, pha, back) trees, some (add32 pmb.uData (cbHdr debug)))

def rfree (debug : Bool) (pv : ℕ) (h : ResHeap) : Except Trap ResHeap :=
  if pv = 0 then .ok h
  else
    match findAnchor pv h.anchors with
    | none => .ok h
    | some place => do
      let (trees, gone) ← orOverrun (removeUsed (sub32 pv (cbHdr debug)) place.2.1.trees)
      match gone with
      | none => .ok (h.put place trees)
      | some pmb =>
        let (trees, _) ← orOverrun (insertFree (cbHdr debug) pmb trees)
        .ok (h.put place trees)

/-- The size a reallocation goes by. -/
def newSize (cbNew : ℕ) : ℕ := max (align cbNew 4) cbLeast

/-- The part of `rrealloc` that makes a block smaller. -/
def shrink (debug : Bool) (pv cbNew : ℕ)
    (place : List HeapAnchor × HeapAnchor × List HeapAnchor) (pmb : Memblock) (h : ResHeap) :
    Except Trap (ResHeap × Option ℕ) :=
  if add32 cbNew (cbMemblockFree debug) ≤ pmb.cbSize then do
    let node := u32 (pmb.uData + cbHdr debug + cbNew)
    let (trees, _) ← orOverrun
      (insertFree (cbHdr debug) (tailOf (cbHdr debug) cbNew node pmb)
        (trim cbNew pmb place.2.1.trees))
    .ok (h.put place trees, some pv)
  else .ok (h, some pv)

/-- The part that makes a block larger, at the cost of the free block right of it or elsewhere. -/
def expand (debug : Bool) (a : Answers) (pv cbNew : ℕ)
    (place : List HeapAnchor × HeapAnchor × List HeapAnchor) (pmb : Memblock) (h : ResHeap) :
    Except Trap (ResHeap × Option ℕ) :=
  let trees := place.2.1.trees
  match (rightOf (cbHdr debug) pmb trees).filter fun pmbfRight =>
      cbNew ≤ add32 (add32 pmbfRight.cbSize pmb.cbSize) (cbHdr debug) with
  | some pmbfRight =>
    if cbNew ≤ sub32 (add32 (add32 pmbfRight.cbSize pmb.cbSize) (cbHdr debug))
        (cbMemblockFree debug) then do
      let node := u32 (pmb.uData + cbHdr debug + cbNew)
      let trees ← orOverrun (growInto (cbHdr debug) cbNew node pmb pmbfRight trees)
      .ok (h.put place trees, some pv)
    else do
      let (trees, found) ← orOverrun (growOver (cbHdr debug) pmb pmbfRight trees)
      .ok (h.put place trees, if found then some pv else none)
  | none => do
    let (heap, pvRet) ← rmalloc debug a cbNew h
    match pvRet with
    | none => .ok (heap, none)
    | some pvRet =>
      let heap ← rfree debug pv heap
      .ok (heap, some pvRet)

def rrealloc (debug : Bool) (a : Answers) (pv cbNew : ℕ) (h : ResHeap) :
    Except Trap (ResHeap × Option ℕ) :=
  match resFindUsedBlock debug pv h with
  | some (place, pmb) =>
    if newSize cbNew ≤ pmb.cbSize then shrink debug pv (newSize cbNew) place pmb h
    else expand debug a pv (newSize cbNew) place pmb h
  | none => if pv = 0 then rmalloc debug a cbNew h else .ok (h, none)

/-- The anchors behind the first one that hold no block in use are given back. -/
def minAnchors : List HeapAnchor → List HeapAnchor
  | [] => []
  | pha :: rest => pha :: rest.filter fun other => other.trees.cbUsed ≠ 0

def resHeapmin (h : ResHeap) : ResHeap := { h with anchors := minAnchors h.anchors }

/-- `resHeapInit`, where it succeeds. -/
def resHeapInit (debug : Bool) (a : Answers) (cbSizeInit cbSizeMax : ℕ) :
    Except Trap (Option ResHeap) :=
  let cbSize := max blockSize cbSizeInit
  match a.block cbSize with
  | none => .ok none
  | some pha => do
    let pmb := blockAt (add32 pha (cbHeapAnchor debug))
      (sub32 (sub32 cbSize (cbHeapAnchor debug)) (cbHdr debug))
    let (trees, _) ← orOverrun (insertFree (cbHdr debug) pmb .empty)
    .ok (some ⟨[⟨pha, cbSize, trees⟩], cbSizeMax⟩)

inductive Op where
  | malloc (cbSize : ℕ)
  | realloc (pv cbNew : ℕ)
  | free (pv : ℕ)
  | heapmin
deriving DecidableEq, Repr

def step (debug : Bool) (a : Answers) (op : Op) (h : ResHeap) : Except Trap (ResHeap × Option ℕ) :=
  match op with
  | .malloc cbSize => rmalloc debug a cbSize h
  | .realloc pv cbNew => rrealloc debug a pv cbNew h
  | .free pv => (rfree debug pv h).map fun heap => (heap, none)
  | .heapmin => .ok (resHeapmin h, none)

end Odin32.ResHeap
