import Odin32.PeSections
import Odin32.Walk

/-! # Base relocations

`setFixups` over the bytes of the relocation directory, with what it reads of the directory and
what it modifies. -/

set_option autoImplicit false

namespace Odin32.PeFixups
open Odin32.Word Odin32.PageMap Odin32.PeSections Odin32.Walk

/-! ## Memory -/

/-- Bytes by their addresses. -/
abbrev Mem := ℕ → ℕ

@[irreducible] def ushort (mem : Mem) (a : ℕ) : ℕ := (mem a + 0x100 * mem (a + 1)) % 0x10000

@[irreducible] def ulong (mem : Mem) (a : ℕ) : ℕ := ushort mem a + 0x10000 * ushort mem (a + 2)

def storeUshort (mem : Mem) (a n : ℕ) : Mem := fun b =>
  if b = a then n % 0x100 else if b = a + 1 then n / 0x100 % 0x100 else mem b

def storeUlong (mem : Mem) (a n : ℕ) : Mem :=
  storeUshort (storeUshort mem a n) (a + 2) (n / 0x10000)

/-- The image, the base it was linked for, and where its relocation directory stands. -/
structure Loader where
  img : Image
  originalBaseAddress : ℕ
  relocsStripped : Bool
  pFixups : ℕ
  dwFixupSize : ℕ

namespace Loader
variable (L : Loader)

def fixupsEnd : ℕ := add32 L.pFixups L.dwFixupSize

def delta : ℕ := sub32 L.img.realBaseAddress L.originalBaseAddress

def addOff32Fixup (mem : Mem) (fixupaddr : ℕ) : Mem :=
  let fixup := add32 fixupaddr L.img.realBaseAddress
  storeUlong mem fixup
    (add32 L.img.realBaseAddress (sub32 (ulong mem fixup) L.originalBaseAddress))

def addOff16Fixup (mem : Mem) (fixupaddr : ℕ) (fHighFixup : Bool) : Mem :=
  let fixup := add32 fixupaddr L.img.realBaseAddress
  let off := if fHighFixup then L.delta / 0x10000 else L.delta % 0x10000
  storeUshort mem fixup (ushort mem fixup + off)

end Loader

def relHigh : ℕ := 1
def relLow : ℕ := 2
def relHighlow : ℕ := 3

def fixupSize (type : ℕ) : ℕ :=
  if type = relHighlow then 4 else if type = relHigh ∨ type = relLow then 2 else 0

/-- What is applied for an entry; the other types are skipped. -/
def Loader.applyFixup (L : Loader) (mem : Mem) (type fixupaddr : ℕ) : Mem :=
  if type = relHighlow then L.addOff32Fixup mem fixupaddr
  else if type = relHigh then L.addOff16Fixup mem fixupaddr true
  else if type = relLow then L.addOff16Fixup mem fixupaddr false
  else mem

/-! ## setFixups -/

/-- A read of the directory, or a fixup of so many bytes. -/
inductive Event where
  | read (a len : ℕ)
  | fixup (a len : ℕ)

/-- How far the function has come: whether it goes on, the memory and what was done. -/
structure Done where
  ok : Bool
  mem : Mem
  log : List Event

section SetFixups
variable (L : Loader) (commitPage : ℕ → Mem → Mem)

/-- `prel->TypeOffset[i]` -/
def typeOffset (mem : Mem) (prel i : ℕ) : ℕ := ushort mem (prel + 8 + 2 * i)

/-- The end of what the entry changes, by its relative address. -/
def fixupLimit (mem : Mem) (prel i : ℕ) : ℕ :=
  let fix := typeOffset mem prel i
  add32 (ulong mem prel) (fix % 0x1000 + fixupSize (fix / 0x1000))

/-- The page that is loaded for a fixup which crosses the end of the range. -/
def newpage (mem : Mem) (prel i : ℕ) : ℕ :=
  add32 L.img.realBaseAddress (fixupLimit mem prel i) / 0x1000 * 0x1000

/-- The address that the entry changes. -/
def target (mem : Mem) (prel i : ℕ) : ℕ :=
  add32 (add32 (ulong mem prel) (typeOffset mem prel i % 0x1000)) L.img.realBaseAddress

def targetSize (mem : Mem) (prel i : ℕ) : ℕ := fixupSize (typeOffset mem prel i / 0x1000)

/-- One entry of a block; `hi` is the relative end of the range. The type and the offset are read
before `commitPage`, `prel->VirtualAddress` again behind it. -/
def fixEntry (hi prel i : ℕ) (mem : Mem) : Done :=
  let type := typeOffset mem prel i / 0x1000
  let offset := typeOffset mem prel i % 0x1000
  let reads := [.read (prel + 8 + 2 * i) 2, .read prel 4]
  let apply := fun mem : Mem =>
    let fixupaddr := add32 (ulong mem prel) offset
    Done.mk true (L.applyFixup mem type fixupaddr)
      (reads ++ [.fixup (add32 fixupaddr L.img.realBaseAddress) (fixupSize type)])
  if hi < fixupLimit mem prel i then
    if (L.img.findSectionByOS2Addr (newpage L mem prel i)).isNone then ⟨false, mem, reads⟩
    else apply (commitPage (newpage L mem prel i) mem)
  else apply mem

/-- The loop over the entries from `i` on. -/
def fixEntries (hi prel : ℕ) : ℕ → ℕ → Mem → Done
  | 0, _, mem => ⟨true, mem, []⟩
  | left + 1, i, mem =>
    let done := fixEntry L commitPage hi prel i mem
    if done.ok then
      let later := fixEntries hi prel left (i + 1) done.mem
      ⟨later.ok, later.mem, done.log ++ later.log⟩
    else done

/-- The first loop, over the blocks below the range; the fuel bounds its rounds. -/
def skipBlocks (v : ℕ) (mem : Mem) : ℕ → ℕ → Option (ℕ × List Event)
  | 0, _ => none
  | n + 1, prel =>
    if prel < L.fixupsEnd then
      if ulong mem prel ≠ 0 ∧ ulong mem prel < v then
        (skipBlocks v mem n (add32 prel (ulong mem (prel + 4)))).map fun later =>
          (later.1, .read prel 4 :: .read (prel + 4) 4 :: later.2)
      else some (prel, [.read prel 4])
    else some (prel, [])

/-- `(prel->SizeOfBlock - 8)/2`, without a sign. -/
@[irreducible] def count (mem : Mem) (prel : ℕ) : ℕ := sub32 (ulong mem (prel + 4)) 8 / 2

/-- The second loop, over the blocks of the range. -/
def fixBlocks (hi : ℕ) : ℕ → ℕ → Mem → Option Done
  | 0, _, _ => none
  | n + 1, prel, mem =>
    if prel < L.fixupsEnd then
      if ulong mem prel ≠ 0 ∧ ulong mem prel < hi then
        let done := fixEntries L commitPage hi prel (count mem prel) 0 mem
        let log := .read prel 4 :: .read (prel + 4) 4 :: done.log
        if done.ok then
          (fixBlocks hi n (add32 prel (ulong done.mem (prel + 4))) done.mem).map fun later =>
            ⟨later.ok, later.mem, log ++ .read (prel + 4) 4 :: later.log⟩
        else some ⟨false, done.mem, log⟩
      else some ⟨true, mem, [.read prel 4]⟩
    else some ⟨true, mem, []⟩

/-- The size rounded to the next page boundary. -/
def roundSize (size : ℕ) : ℕ := add32 (sub32 size 1 / 0x1000 * 0x1000) 0x1000

/-- The image was moved, and its relocations can be applied. -/
def Loader.relocates : Bool :=
  L.img.realBaseAddress ≠ L.originalBaseAddress && !L.relocsStripped

def setFixups (n : ℕ) (mem : Mem) (virtAddress size : ℕ) : Option Done :=
  if L.relocates then
    let v := sub32 virtAddress L.img.realBaseAddress
    if L.pFixups ≠ 0 then
      (skipBlocks L v mem n L.pFixups).bind fun skipped =>
        (fixBlocks L commitPage (add32 v (roundSize size)) n skipped.1 mem).map fun done =>
          ⟨done.ok, done.mem, skipped.2 ++ done.log⟩
    else some ⟨false, mem, []⟩
  else some ⟨true, mem, []⟩

end SetFixups

end Odin32.PeFixups
