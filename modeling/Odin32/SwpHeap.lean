import Odin32.HeapBlocks
import Odin32.MemblockPool

/-! # The swappable heap

`smalloc`, `srealloc`, `sfree` and `_swp_heapmin` over the list of heap anchors and the chunks of
block descriptors. What `rmalloc` and the system answer to a call is given with the call. The
signature words of the debug layout take room around the bytes of a block; they are taken to be
intact. -/

set_option autoImplicit false

namespace Odin32.SwpHeap
open Odin32.RankedTree Odin32.Avl Odin32.FreeSize Odin32.HeapBlocks Odin32.MemblockPool Odin32.Word

/-- `CB_SIGNATURE_START`, and as much `CB_SIGNATURE_END`. -/
def cbSignature (debug : Bool) : ℕ := if debug then 4 else 0

def cbSignatures (debug : Bool) : ℕ := cbSignature debug + cbSignature debug

structure HeapAnchor where
  pha : ℕ
  pvBlock : ℕ
  cbSize : ℕ
  trees : BlockTrees
deriving DecidableEq, Repr

structure SwpHeap where
  anchors : List HeapAnchor
  cbSwpHeapMax : ℕ
  chunks : List MemblockChunk
deriving DecidableEq, Repr

/-- What one call is answered: `rmalloc` for an anchor and for the chunks of the first and the
second descriptor, and the system for a heap block of a size. -/
structure Answers where
  anchor : Option ℕ
  chunk : Option ℕ
  chunk' : Option ℕ
  block : ℕ → Option ℕ

/-- Where a call goes out of what the C code defines. -/
inductive Trap where
  | nullPointer
  | stackOverrun
  | pastBitmap
deriving DecidableEq, Repr

def orTrap {α : Type} (trap : Trap) : Option α → Except Trap α
  | none => .error trap
  | some a => .ok a

/-- `swpReleaseMemblock`, for which no chunk holds a null pointer. -/
def release : Option ℕ → List MemblockChunk → List MemblockChunk
  | none, chunks => chunks
  | some pmb, chunks => swpReleaseMemblock pmb chunks

def releaseAll (released : List Memblock) (chunks : List MemblockChunk) : List MemblockChunk :=
  released.foldl (fun chunks pmb => swpReleaseMemblock pmb.pmb chunks) chunks

/-! ## Finding memory -/

/-- What the search makes of one anchor. -/
inductive Attempt where
  | tooSmall
  | null (trees : BlockTrees) (chunks : List MemblockChunk)
  | block (trees : BlockTrees) (chunks : List MemblockChunk) (pmb : Memblock)

def takeFrom (debug : Bool) (cbUserSize : ℕ) (rmalloc : Option ℕ) (trees : BlockTrees)
    (chunks : List MemblockChunk) : Except Trap Attempt :=
  if trees.cbFree < cbUserSize then .ok .tooSmall
  else
    match bestFit cbUserSize trees with
    | none => .ok .tooSmall
    | some pmb =>
      if add32 cbUserSize (cbSignatures debug) < pmb.cbSize then do
        let (chunks, node) ← orTrap .pastBitmap (swpAllocateMemblock rmalloc chunks)
        match node with
        | none =>
          let trees ← orTrap .stackOverrun (putBack pmb trees)
          .ok (.null trees chunks)
        | some node =>
          let trees ← orTrap .stackOverrun (carve 0 cbUserSize pmb trees)
          .ok (.block trees chunks (carved cbUserSize node pmb))
      else do
        let (trees, found) ← orTrap .stackOverrun (takeWhole pmb trees)
        if found then .ok (.block trees chunks pmb) else .ok (.null trees chunks)

/-- The block for a request: none, with the heap afterwards, or one that is in no tree yet, with
the anchor it belongs to. -/
inductive FreeMemblock where
  | null (heap : SwpHeap)
  | block (front : List HeapAnchor) (pha : HeapAnchor) (back : List HeapAnchor)
      (chunks : List MemblockChunk) (pmb : Memblock)

/-- The loop over the anchors: the sum of their sizes when none has a block. -/
inductive Search where
  | exhausted (cbTotalSize : ℕ)
  | done (result : FreeMemblock)

/-- A result of the search further down the list. -/
def Search.behind (pha : HeapAnchor) : Search → Search
  | .exhausted cbTotalSize => .exhausted cbTotalSize
  | .done (.null heap) => .done (.null { heap with anchors := pha :: heap.anchors })
  | .done (.block front other back chunks pmb) =>
    .done (.block (pha :: front) other back chunks pmb)

def search (debug : Bool) (cbUserSize : ℕ) (rmalloc : Option ℕ) (cbSwpHeapMax : ℕ)
    (chunks : List MemblockChunk) : ℕ → List HeapAnchor → Except Trap Search
  | cbTotalSize, [] => .ok (.exhausted cbTotalSize)
  | cbTotalSize, pha :: rest => do
    match ← takeFrom debug cbUserSize rmalloc pha.trees chunks with
    | .tooSmall =>
      let found ← search debug cbUserSize rmalloc cbSwpHeapMax chunks
        (add32 cbTotalSize pha.cbSize) rest
      .ok (found.behind pha)
    | .null trees chunks =>
      .ok (.done (.null ⟨{ pha with trees := trees } :: rest, cbSwpHeapMax, chunks⟩))
    | .block trees chunks pmb =>
      .ok (.done (.block [] { pha with trees := trees } rest chunks pmb))

/-- A new heap anchor. `ppha` is never a null pointer, so a missing anchor is first seen when it
is filled. -/
def addAnchor (a : Answers) (cbUserSize cbBlockSize : ℕ) (h : SwpHeap) :
    Except Trap FreeMemblock := do
  let (chunks, pmbFree) ← orTrap .pastBitmap (swpAllocateMemblock a.chunk h.chunks)
  let (chunks, pmbUsed) ← orTrap .pastBitmap (swpAllocateMemblock a.chunk' chunks)
  let fails := FreeMemblock.null { h with chunks := release pmbUsed (release pmbFree chunks) }
  match pmbFree, pmbUsed with
  | some pmbFree, some pmbUsed =>
    match a.anchor with
    | none => .error .nullPointer
    | some pha =>
      match a.block cbBlockSize with
      | none => .ok fails
      | some pvBlock =>
        let free : Memblock := ⟨pmbFree, pvBlock, sub32 cbBlockSize cbUserSize⟩
        let (trees, released) ← orTrap .stackOverrun (insertFree 0 free .empty)
        .ok (.block h.anchors ⟨pha, pvBlock, cbBlockSize, trees⟩ [] (releaseAll released chunks)
          ⟨pmbUsed, add32 free.uData free.cbSize, cbUserSize⟩)
  | _, _ => .ok fails

/-- The bytes a request takes, signatures included. -/
def request (debug : Bool) (cbUserSize : ℕ) : ℕ :=
  add32 (align cbUserSize 4) (cbSignatures debug)

def swpGetFreeMemblock (debug : Bool) (a : Answers) (cbUserSize : ℕ) (h : SwpHeap) :
    Except Trap FreeMemblock := do
  let cbUserSize := request debug cbUserSize
  match ← search debug cbUserSize a.chunk h.cbSwpHeapMax h.chunks 0 h.anchors with
  | .done result => .ok result
  | .exhausted cbTotalSize =>
    let cbBlockSize := align (add32 (add32 cbUserSize (cbSignatures debug)) 1) blockSize
    if add32 cbTotalSize cbBlockSize ≤ h.cbSwpHeapMax then addAnchor a cbUserSize cbBlockSize h
    else .ok (.null h)

/-! ## Finding a pointer -/

/-- The anchors before the one a pointer lies in, that one and those behind it. -/
def findAnchor (pv : ℕ) : List HeapAnchor → Option (List HeapAnchor × HeapAnchor × List HeapAnchor)
  | [] => none
  | pha :: rest =>
    if pha.pvBlock < pv ∧ pv < add32 pha.pvBlock pha.cbSize then some ([], pha, rest)
    else (findAnchor pv rest).map fun r => (pha :: r.1, r.2)

def swpFindUsedBlock (debug : Bool) (pvUser : ℕ) (h : SwpHeap) :
    Option ((List HeapAnchor × HeapAnchor × List HeapAnchor) × Memblock) :=
  if pvUser = 0 then none
  else do
    let place ← findAnchor pvUser h.anchors
    let e ← avlGet (sub32 pvUser (cbSignature debug)) place.2.1.trees.pcoreUsed
    some (place, e.2)

def swpFindWithinUsedBlock (debug : Bool) (pvUser : ℕ) (h : SwpHeap) : Option Memblock :=
  if pvUser = 0 then none
  else do
    let place ← findAnchor pvUser h.anchors
    let e ← avlGetBestFit (sub32 pvUser (cbSignature debug)) true place.2.1.trees.pcoreUsed none
    let pmb := e.2
    if pvUser < sub32 (add32 pmb.uData pmb.cbSize) (cbSignature debug) ∧
        add32 pmb.uData (cbSignature debug) ≤ pvUser then some pmb
    else none

def swpMsize (debug : Bool) (pv : ℕ) (h : SwpHeap) : ℕ :=
  match swpFindUsedBlock debug pv h with
  | none => 0
  | some (_, pmb) => sub32 pmb.cbSize (cbSignatures debug)

def swpValidptr (debug : Bool) (pv : ℕ) (h : SwpHeap) : Bool :=
  match swpFindWithinUsedBlock debug pv h with
  | none => false
  | some pmb =>
    decide (pmb.uData ≤ sub32 pv (cbSignature debug)) &&
      decide (sub32 (sub32 pv pmb.uData) (cbSignatures debug) < pmb.cbSize)

def swpValidptr2 (debug : Bool) (pv cbSize : ℕ) (h : SwpHeap) : Bool :=
  match swpFindWithinUsedBlock debug pv h with
  | none => false
  | some pmb =>
    let pv := sub32 pv pmb.uData
    decide (cbSignature debug < pv) &&
      decide (cbSize ≤ sub32 (sub32 pmb.cbSize (cbSignatures debug)) pv)

/-! ## The calls -/

/-- The heap with other trees in the anchor of a place. -/
def SwpHeap.put (h : SwpHeap) (place : List HeapAnchor × HeapAnchor × List HeapAnchor)
    (trees : BlockTrees) (chunks : List MemblockChunk) : SwpHeap :=
  { h with anchors := place.1 ++ { place.2.1 with trees := trees } :: place.2.2, chunks := chunks }

def smalloc (debug : Bool) (a : Answers) (cbSize : ℕ) (h : SwpHeap) :
    Except Trap (SwpHeap × Option ℕ) :=
  if cbSize = 0 then .ok (h, none)
  else do
    match ← swpGetFreeMemblock debug a cbSize h with
    | .null heap => .ok (heap, none)
    | .block front pha back chunks pmb =>
      let trees ← orTrap .stackOverrun (insertUsed pmb pha.trees)
      .ok (h.put (front, pha, back) trees chunks, some (add32 pmb.uData (cbSignature debug)))

def sfree (debug : Bool) (pv : ℕ) (h : SwpHeap) : Except Trap SwpHeap :=
  if pv = 0 then .ok h
  else
    match findAnchor pv h.anchors with
    | none => .ok h
    | some place => do
      let (trees, gone) ← orTrap .stackOverrun
        (removeUsed (sub32 pv (cbSignature debug)) place.2.1.trees)
      match gone with
      | none => .ok (h.put place trees h.chunks)
      | some pmb =>
        let (trees, released) ← orTrap .stackOverrun (insertFree 0 pmb trees)
        .ok (h.put place trees (releaseAll released h.chunks))

/-- The part of `srealloc` that makes a block smaller. -/
def shrink (debug : Bool) (a : Answers) (pv cbNew : ℕ)
    (place : List HeapAnchor × HeapAnchor × List HeapAnchor) (pmb : Memblock) (h : SwpHeap) :
    Except Trap (SwpHeap × Option ℕ) :=
  if add32 cbNew (cbSignatures debug) < pmb.cbSize then do
    let (chunks, node) ← orTrap .pastBitmap (swpAllocateMemblock a.chunk h.chunks)
    match node with
    | none => .ok ({ h with chunks := chunks }, some pv)
    | some node =>
      let (trees, released) ← orTrap .stackOverrun
        (insertFree 0 (tailOf 0 cbNew node pmb) (trim cbNew pmb place.2.1.trees))
      .ok (h.put place trees (releaseAll released chunks), some pv)
  else .ok (h, some pv)

/-- The part that makes a block larger, at the cost of the free block right of it or elsewhere. -/
def expand (debug : Bool) (a : Answers) (pv cbNew : ℕ)
    (place : List HeapAnchor × HeapAnchor × List HeapAnchor) (pmb : Memblock) (h : SwpHeap) :
    Except Trap (SwpHeap × Option ℕ) :=
  let trees := place.2.1.trees
  match (rightOf 0 pmb trees).filter fun pmbRight => cbNew ≤ add32 pmbRight.cbSize pmb.cbSize with
  | some pmbRight =>
    if cbNew < sub32 (add32 pmbRight.cbSize pmb.cbSize) (cbSignatures debug) then do
      let trees ← orTrap .stackOverrun (growInto 0 cbNew pmbRight.pmb pmb pmbRight trees)
      .ok (h.put place trees h.chunks, some pv)
    else do
      let (trees, found) ← orTrap .stackOverrun (growOver 0 pmb pmbRight trees)
      if found then
        .ok (h.put place trees (swpReleaseMemblock pmbRight.pmb h.chunks), some pv)
      else .ok (h.put place trees h.chunks, none)
  | none => do
    let (heap, pvRet) ← smalloc debug a cbNew h
    match pvRet with
    | none => .ok (heap, none)
    | some pvRet =>
      let heap ← sfree debug pv heap
      .ok (heap, some pvRet)

def srealloc (debug : Bool) (a : Answers) (pv cbNew : ℕ) (h : SwpHeap) :
    Except Trap (SwpHeap × Option ℕ) :=
  match swpFindUsedBlock debug pv h with
  | some (place, pmb) =>
    let cbNew := request debug cbNew
    if cbNew ≤ pmb.cbSize then shrink debug a pv cbNew place pmb h
    else expand debug a pv cbNew place pmb h
  | none => if pv = 0 then smalloc debug a cbNew h else .ok (h, none)

/-- The anchors behind the first one that hold no block in use are given back. -/
def minAnchors : List HeapAnchor → List HeapAnchor
  | [] => []
  | pha :: rest => pha :: rest.filter fun other => other.trees.cbUsed ≠ 0

def swpHeapmin (h : SwpHeap) : SwpHeap :=
  { h with anchors := minAnchors h.anchors, chunks := minChunks h.chunks }

/-- `swpHeapInit`, where it succeeds. -/
def swpHeapInit (a : Answers) (cbSizeInit cbSizeMax : ℕ) : Except Trap (Option SwpHeap) := do
  let (chunks, pmbFree) ← orTrap .pastBitmap (swpAllocateMemblock a.chunk [])
  let cbSize := max blockSize cbSizeInit
  match pmbFree, a.anchor, a.block cbSize with
  | some pmbFree, some pha, some pvBlock =>
    let (trees, released) ← orTrap .stackOverrun (insertFree 0 ⟨pmbFree, pvBlock, cbSize⟩ .empty)
    .ok (some ⟨[⟨pha, pvBlock, cbSize, trees⟩], cbSizeMax, releaseAll released chunks⟩)
  | _, _, _ => .ok none

inductive Op where
  | malloc (cbSize : ℕ)
  | realloc (pv cbNew : ℕ)
  | free (pv : ℕ)
  | heapmin
deriving DecidableEq, Repr

def step (debug : Bool) (a : Answers) (op : Op) (h : SwpHeap) : Except Trap (SwpHeap × Option ℕ) :=
  match op with
  | .malloc cbSize => smalloc debug a cbSize h
  | .realloc pv cbNew => srealloc debug a pv cbNew h
  | .free pv => (sfree debug pv h).map fun heap => (heap, none)
  | .heapmin => .ok (swpHeapmin h, none)

end Odin32.SwpHeap
