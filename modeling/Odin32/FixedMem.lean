import Odin32.Word
import Odin32.FirstFit
import Mathlib.Data.List.Range

/-! # Memory at the preferred base

`allocFixedMem`: memory is filled with 1MB blocks until one reaches the preferred base, a gap is
allocated in front of it, and the image block is whatever comes next. Addresses are in units of
64KB, and `OSLibDosAllocMem` gives the lowest area that is large enough. -/

set_option autoImplicit false

namespace Odin32.FixedMem
open Odin32.Word Odin32.FirstFit

def fallocSize : ℕ := 0x100000

structure Block where
  start : ℕ
  units : ℕ
deriving DecidableEq, Repr

def Block.address (b : Block) : ℕ := 0x10000 * b.start

/-- The units that memory comes from, in the 32-bit address space. -/
structure Arena where
  lo : ℕ
  hi : ℕ
  pos : 0 < lo
  top : hi < 0x10000

structure Space where
  /-- The arena of calls with `fLowMemory`. -/
  low : Arena
  /-- The arena of all other calls. -/
  high : Arena
  /-- The units that are not free before. -/
  taken : ℕ → Bool

/-- The number of 64KB units of a size. -/
def unitsFor (cbSize : ℕ) : ℕ := (cbSize + 0xffff) / 0x10000

namespace Space

def arena (sp : Space) (fLowMemory : Bool) : Arena := if fLowMemory then sp.low else sp.high

/-- The unit can be allocated beside the blocks `mine`. -/
def unitFree (sp : Space) (fLowMemory : Bool) (mine : List Block) (u : ℕ) : Bool :=
  (sp.arena fLowMemory).lo ≤ u && u < (sp.arena fLowMemory).hi && !sp.taken u &&
    mine.all fun b => u < b.start || b.start + b.units ≤ u

def lowest (sp : Space) (fLowMemory : Bool) (mine : List Block) (units : ℕ) : Option ℕ :=
  (List.range (sp.arena fLowMemory).hi).find? fun start =>
    (List.range' start units).all (sp.unitFree fLowMemory mine)

/-- `OSLibDosAllocMem`, with the address it stores. -/
def osLibDosAllocMem (sp : Space) (cbSize : ℕ) (fLowMemory : Bool) (mine : List Block) :
    Option (ℕ × List Block) :=
  if cbSize = 0 then none
  else
    match sp.lowest fLowMemory mine (unitsFor cbSize) with
    | none => none
    | some start => some (0x10000 * start, mine ++ [⟨start, unitsFor cbSize⟩])

end Space

def osLibDosFreeMem (address : ℕ) (mine : List Block) : List Block :=
  mine.filter fun b => b.address ≠ address

/-- What the loop leaves. -/
structure Outcome where
  realBaseAddress : ℕ
  memallocs : List ℕ
  mine : List Block
deriving DecidableEq, Repr

/-- The block for the image, once the block at `address` reaches the preferred base; the block
in front of it stays where there is no memory for the image. -/
def place (sp : Space) (originalBaseAddress imageSize address : ℕ) (fLowMemory : Bool)
    (memallocs : List ℕ) (mine : List Block) : Outcome :=
  let diff := originalBaseAddress - address
  if diff = 0 then
    match sp.osLibDosAllocMem imageSize fLowMemory mine with
    | none => ⟨0, memallocs, mine⟩
    | some (baseAddress, mine) => ⟨baseAddress, memallocs, mine⟩
  else
    match sp.osLibDosAllocMem diff fLowMemory mine with
    | none => ⟨0, memallocs, mine⟩
    | some (address, mine) =>
      match sp.osLibDosAllocMem imageSize fLowMemory mine with
      | none => ⟨0, memallocs, mine⟩
      | some (baseAddress, mine) => ⟨baseAddress, memallocs, osLibDosFreeMem address mine⟩

/-- `while(TRUE)`; `none` is out of fuel. -/
def fillLoop (sp : Space) (originalBaseAddress imageSize : ℕ) (fLowMemory : Bool) :
    ℕ → List ℕ → List Block → Option Outcome
  | 0, _, _ => none
  | n + 1, memallocs, mine =>
    match sp.osLibDosAllocMem fallocSize fLowMemory mine with
    | none => some ⟨0, memallocs, mine⟩
    | some (address, mine) =>
      if originalBaseAddress ≤ add32 address fallocSize then
        if originalBaseAddress < address then
          some ⟨0, memallocs, osLibDosFreeMem address mine⟩
        else
          some (place sp originalBaseAddress imageSize address fLowMemory memallocs
            (osLibDosFreeMem address mine))
      else fillLoop sp originalBaseAddress imageSize fLowMemory n (memallocs ++ [address]) mine

/-- What `allocFixedMem` answers and leaves. -/
structure Result where
  fOk : Bool
  realBaseAddress : ℕ
  /-- The entries of `memallocs` that were written. -/
  alloccnt : ℕ
  /-- The blocks it still holds. -/
  mine : List Block
deriving DecidableEq, Repr

def freeAll (memallocs : List ℕ) (mine : List Block) : List Block :=
  memallocs.foldl (fun mine address => osLibDosFreeMem address mine) mine

def Outcome.result (o : Outcome) : Result where
  fOk := o.realBaseAddress ≠ 0
  realBaseAddress := o.realBaseAddress
  alloccnt := o.memallocs.length
  mine := freeAll o.memallocs o.mine

/-- `allocFixedMem` where `realBaseAddress` is 0 before; `fMalloc` says whether there is memory
for `memallocs`. There is room for 4096 blocks of 1MB. -/
def allocFixedMem (sp : Space) (fMalloc : Bool) (originalBaseAddress imageSize : ℕ) :
    Option Result :=
  if fMalloc then
    (fillLoop sp originalBaseAddress imageSize (originalBaseAddress < 512 * 1024 * 1024) 4096
      [] []).map Outcome.result
  else some ⟨false, 0, 0, []⟩

/-! ## The lowest area -/

theorem unitsFor_pos {cbSize : ℕ} : 0 < unitsFor cbSize ↔ 0 < cbSize := by
  unfold unitsFor
  omega

theorem unitsFor_le {cbSize n : ℕ} : unitsFor cbSize ≤ n ↔ cbSize ≤ 0x10000 * n := by
  unfold unitsFor
  omega

theorem unitsFor_mul (n : ℕ) : unitsFor (0x10000 * n) = n := by
  unfold unitsFor
  omega

/-- The units that can be allocated beside some blocks. -/
def Space.Open (sp : Space) (fLowMemory : Bool) (mine : List Block) (u : ℕ) : Prop :=
  sp.unitFree fLowMemory mine u = true

instance (sp : Space) (fLowMemory : Bool) (mine : List Block) :
    DecidablePred (sp.Open fLowMemory mine) :=
  fun u => inferInstanceAs (Decidable (sp.unitFree fLowMemory mine u = true))

section

variable {sp : Space} {fLowMemory : Bool} {mine : List Block}

theorem open_iff {u : ℕ} : sp.Open fLowMemory mine u ↔
    (sp.arena fLowMemory).lo ≤ u ∧ u < (sp.arena fLowMemory).hi ∧ sp.taken u = false ∧
      ∀ b ∈ mine, u < b.start ∨ b.start + b.units ≤ u := by
  simp [Space.Open, Space.unitFree, and_assoc]

theorem open_append {b : Block} {u : ℕ} : sp.Open fLowMemory (mine ++ [b]) u ↔
    sp.Open fLowMemory mine u ∧ ¬ (b.start ≤ u ∧ u < b.start + b.units) := by
  rw [open_iff, open_iff]
  simp only [List.forall_mem_append, List.forall_mem_singleton]
  constructor
  · rintro ⟨lo, hi, free, others, out⟩
    exact ⟨⟨lo, hi, free, others⟩, by omega⟩
  · rintro ⟨⟨lo, hi, free, others⟩, out⟩
    exact ⟨lo, hi, free, others, by omega⟩

theorem area_all {start units : ℕ} :
    (List.range' start units).all (sp.unitFree fLowMemory mine) = true ↔
      Area (sp.Open fLowMemory mine) start units := by
  rw [List.all_eq_true]
  constructor
  · intro all u le lt
    exact all u (List.mem_range'_1.2 ⟨le, lt⟩)
  · intro area u inside
    obtain ⟨le, lt⟩ := List.mem_range'_1.1 inside
    exact area u le lt

theorem lowest_some {units a : ℕ} (found : sp.lowest fLowMemory mine units = some a) :
    Area (sp.Open fLowMemory mine) a units ∧
      ∀ j, Area (sp.Open fLowMemory mine) j units → a ≤ j := by
  obtain ⟨fits, -, first⟩ := List.find?_range_eq_some.1 found
  refine ⟨area_all.1 fits, fun j area => ?_⟩
  by_contra lower
  have := first j (not_le.1 lower)
  rw [area_all.2 area] at this
  exact absurd this (by decide)

theorem lowest_none {units : ℕ} (pos : 0 < units)
    (missing : sp.lowest fLowMemory mine units = none) (j : ℕ) :
    ¬ Area (sp.Open fLowMemory mine) j units := by
  intro area
  have inside : j < (sp.arena fLowMemory).hi := (open_iff.1 (area j le_rfl (by omega))).2.1
  have := List.find?_range_eq_none.1 missing j inside
  rw [area_all.2 area] at this
  exact absurd this (by decide)

theorem alloc_cases (sp : Space) (cbSize : ℕ) (fLowMemory : Bool) (mine : List Block) :
    (sp.osLibDosAllocMem cbSize fLowMemory mine = none ∧
      (0 < cbSize → ∀ j, ¬ Area (sp.Open fLowMemory mine) j (unitsFor cbSize))) ∨
    ∃ a, 0 < cbSize ∧ Area (sp.Open fLowMemory mine) a (unitsFor cbSize) ∧
      (∀ j, Area (sp.Open fLowMemory mine) j (unitsFor cbSize) → a ≤ j) ∧
      sp.osLibDosAllocMem cbSize fLowMemory mine =
        some (0x10000 * a, mine ++ [⟨a, unitsFor cbSize⟩]) := by
  by_cases pos : 0 < cbSize
  · rw [Space.osLibDosAllocMem, if_neg (by omega)]
    cases found : sp.lowest fLowMemory mine (unitsFor cbSize) with
    | none => exact .inl ⟨rfl, fun _ => lowest_none (unitsFor_pos.2 pos) found⟩
    | some a =>
      obtain ⟨area, least⟩ := lowest_some found
      exact .inr ⟨a, pos, area, least, rfl⟩
  · exact .inl ⟨by rw [Space.osLibDosAllocMem, if_pos (by omega)], fun now => absurd now pos⟩

end

end Odin32.FixedMem
