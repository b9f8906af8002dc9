import Odin32.PageMap
import Mathlib.Data.List.Basic
import Mathlib.Order.Basic
import Mathlib.Order.Nat

/-! # Sections of a PE image

`findSectionByOS2Addr`, `findPreviousSectionByOS2Addr` and what `commitPage` reads a page from.
Pages between two sections are read from the file behind the raw data of the section that
precedes them. -/

set_option autoImplicit false

namespace Odin32.PeSections
open Odin32.Word Odin32.PageMap

def sectionUninitdata : ℕ := 4
def sectionDebug : ℕ := 256

structure Section where
  type : ℕ
  rawoffset : ℕ
  rawsize : ℕ
  realvirtaddr : ℕ
  virtualsize : ℕ
  pageflags : ℕ
deriving DecidableEq, Repr

structure Image where
  realBaseAddress : ℕ
  /-- The offset of the image in its file. -/
  ulPEOffset : ℕ
  /-- `section[0]` to `section[nrsections - 1]` -/
  sections : List Section
deriving DecidableEq, Repr

/-- The start of an address behind the section. -/
def Section.endAddr (s : Section) : ℕ := add32 s.realvirtaddr s.virtualsize

def Image.findSectionByOS2Addr (img : Image) (addr : ℕ) : Option Section :=
  img.sections.find? fun s => s.realvirtaddr ≤ addr && addr < s.endAddr

/-- The loop, with `lowestAddr` and the section at `index`. -/
def findPreviousFrom (addr : ℕ) : List Section → ℕ → Option Section → Option Section
  | [], _, found => found
  | s :: rest, lowestAddr, found =>
    if s.realvirtaddr ≤ addr then
      if s.realvirtaddr < lowestAddr then findPreviousFrom addr rest s.realvirtaddr (some s)
      else findPreviousFrom addr rest lowestAddr found
    else findPreviousFrom addr rest lowestAddr found

def Image.findPreviousSectionByOS2Addr (img : Image) (addr : ℕ) : Option Section :=
  findPreviousFrom addr img.sections 0xffffffff none

/-! ## The place of a page in the file -/

/-- What `commitPage` has worked out before it enters the critical section. -/
structure Place where
  sect : Option Section
  virtAddress : ℕ
  size : ℕ
  sectionsize : ℕ
  protflags : ℕ
  fileoffset : ℕ
deriving DecidableEq, Repr

/-- Addresses outside of all sections: a page of the header or of a gap. -/
def Image.placeOutside (img : Image) (virtAddress : ℕ) : Place :=
  match img.findPreviousSectionByOS2Addr virtAddress with
  | none => ⟨none, virtAddress, 4096, 4096, pagRead, sub32 virtAddress img.realBaseAddress⟩
  | some s =>
    let offset := sub32 virtAddress s.endAddr
    ⟨some s, virtAddress, 4096, 4096, pagRead, add32 (add32 s.rawoffset s.rawsize) offset⟩

def placeInside (s : Section) (virtAddress : ℕ) : Place :=
  let offset := sub32 virtAddress s.realvirtaddr
  let sectionsize := sub32 s.virtualsize offset
  if s.rawsize < offset ∨ s.type = sectionUninitdata then
    -- uninitialized data
    ⟨some s, virtAddress, 0, sectionsize, s.pageflags, 0xffffffff⟩
  else
    ⟨some s, virtAddress, s.rawsize - offset, sectionsize, s.pageflags,
      add32 s.rawoffset offset⟩

/-- The place for an address that faulted, which is rounded down to its page where that page
starts in a section or the address itself is in none. -/
def Image.place (img : Image) (orgVirtAddress : ℕ) : Place :=
  let virtAddress := orgVirtAddress / 0x1000 * 0x1000
  match img.findSectionByOS2Addr virtAddress with
  | some s => placeInside s virtAddress
  | none =>
    match img.findSectionByOS2Addr orgVirtAddress with
    | some s => placeInside s orgVirtAddress
    | none => img.placeOutside virtAddress

/-- The file position that is read; pages at no position are filled with zeros. -/
def Image.filePosition (img : Image) (place : Place) : Option ℕ :=
  if place.size ≠ 0 ∧ place.fileoffset ≠ 0xffffffff then
    some (add32 img.ulPEOffset place.fileoffset)
  else none

/-! ## The section that precedes an address -/

theorem findPreviousFrom_stays {addr : ℕ} {sections : List Section} {lowestAddr : ℕ}
    (found : Option Section)
    (above : ∀ s ∈ sections, s.realvirtaddr ≤ addr → lowestAddr ≤ s.realvirtaddr) :
    findPreviousFrom addr sections lowestAddr found = found := by
  induction sections with
  | nil => rfl
  | cons s rest ih =>
    obtain ⟨first, others⟩ := List.forall_mem_cons.1 above
    by_cases starts : s.realvirtaddr ≤ addr
    · rw [findPreviousFrom, if_pos starts, if_neg (not_lt.2 (first starts))]
      exact ih others
    · rw [findPreviousFrom, if_neg starts]
      exact ih others

theorem findPreviousFrom_least (addr : ℕ) (sections : List Section) (lowestAddr : ℕ)
    (found : Option Section) :
    (∀ s ∈ sections, s.realvirtaddr ≤ addr → lowestAddr ≤ s.realvirtaddr) ∨
    ∃ s ∈ sections, findPreviousFrom addr sections lowestAddr found = some s ∧
      s.realvirtaddr ≤ addr ∧ s.realvirtaddr < lowestAddr ∧
      ∀ t ∈ sections, t.realvirtaddr ≤ addr → s.realvirtaddr ≤ t.realvirtaddr := by
  induction sections generalizing lowestAddr found with
  | nil => exact .inl (by simp)
  | cons s rest ih =>
    by_cases starts : s.realvirtaddr ≤ addr
    · by_cases lower : s.realvirtaddr < lowestAddr
      · rw [findPreviousFrom, if_pos starts, if_pos lower]
        right
        rcases ih s.realvirtaddr (some s) with rest_above | ⟨t, there, is, le, lt, least⟩
        · exact ⟨s, .head _, findPreviousFrom_stays _ rest_above, starts, lower,
            List.forall_mem_cons.2 ⟨fun _ => le_rfl, rest_above⟩⟩
        · exact ⟨t, .tail _ there, is, le, lt.trans lower,
            List.forall_mem_cons.2 ⟨fun _ => lt.le, least⟩⟩
      · rw [findPreviousFrom, if_pos starts, if_neg lower]
        rcases ih lowestAddr found with rest_above | ⟨t, there, is, le, lt, least⟩
        · exact .inl (List.forall_mem_cons.2 ⟨fun _ => not_lt.1 lower, rest_above⟩)
        · exact .inr ⟨t, .tail _ there, is, le, lt,
            List.forall_mem_cons.2 ⟨fun _ => lt.le.trans (not_lt.1 lower), least⟩⟩
    · rw [findPreviousFrom, if_neg starts]
      rcases ih lowestAddr found with rest_above | ⟨t, there, is, le, lt, least⟩
      · exact .inl (List.forall_mem_cons.2 ⟨fun le => absurd le starts, rest_above⟩)
      · exact .inr ⟨t, .tail _ there, is, le, lt,
          List.forall_mem_cons.2 ⟨fun le => absurd le starts, least⟩⟩

namespace Image

variable {img : Image} {addr : ℕ}

/-- The sections that start at or below an address, in the order of the table. -/
def startsBelow (img : Image) (addr : ℕ) : List Section :=
  img.sections.filter fun s => s.realvirtaddr ≤ addr

theorem mem_startsBelow {s : Section} :
    s ∈ img.startsBelow addr ↔ s ∈ img.sections ∧ s.realvirtaddr ≤ addr := by
  simp [startsBelow]

theorem findPrevious_least (word : addr < 0xffffffff) :
    (img.findPreviousSectionByOS2Addr addr = none ∧ img.startsBelow addr = []) ∨
    ∃ s ∈ img.startsBelow addr, img.findPreviousSectionByOS2Addr addr = some s ∧
      ∀ t ∈ img.startsBelow addr, s.realvirtaddr ≤ t.realvirtaddr := by
  rcases findPreviousFrom_least addr img.sections 0xffffffff none with
    above | ⟨s, inside, is, le, -, least⟩
  · refine .inl ⟨findPreviousFrom_stays none above, ?_⟩
    refine List.eq_nil_iff_forall_not_mem.2 fun s there => ?_
    obtain ⟨inside, le⟩ := mem_startsBelow.1 there
    have := above s inside le
    omega
  · refine .inr ⟨s, mem_startsBelow.2 ⟨inside, le⟩, is, ?_⟩
    intro t there
    obtain ⟨inside, le⟩ := mem_startsBelow.1 there
    exact least t inside le

theorem findPreviousFrom_first {sections : List Section} (word : addr < 0xffffffff)
    (same : ∀ s ∈ sections, s.realvirtaddr ≤ addr → ∀ t ∈ sections, t.realvirtaddr ≤ addr →
      s.realvirtaddr = t.realvirtaddr) :
    findPreviousFrom addr sections 0xffffffff none =
      (sections.filter fun s => s.realvirtaddr ≤ addr).head? := by
  induction sections with
  | nil => rfl
  | cons s rest ih =>
    by_cases starts : s.realvirtaddr ≤ addr
    · rw [findPreviousFrom, if_pos starts, if_pos (by omega), List.filter_cons_of_pos (by simpa)]
      refine findPreviousFrom_stays _ fun t there le => ?_
      exact (same s (.head _) starts t (.tail _ there) le).le
    · rw [findPreviousFrom, if_neg starts, List.filter_cons_of_neg (by simpa using starts)]
      refine ih fun s inside le t there le' => ?_
      exact same s (.tail _ inside) le t (.tail _ there) le'

/-- Sections in the 32-bit address space that do not overlap. -/
structure Disjoint (img : Image) : Prop where
  word : ∀ s ∈ img.sections, s.realvirtaddr + s.virtualsize ≤ 0x100000000
  apart : img.sections.Pairwise fun s t =>
    s.realvirtaddr + s.virtualsize ≤ t.realvirtaddr ∨
      t.realvirtaddr + t.virtualsize ≤ s.realvirtaddr

/-- A page-aligned address of the image that no section contains. -/
structure Outside (img : Image) (addr : ℕ) : Prop where
  word : addr < 0x100000000
  aligned : addr % 0x1000 = 0
  image : img.realBaseAddress ≤ addr
  outside : ∀ s ∈ img.sections, ¬ (s.realvirtaddr ≤ addr ∧ addr < s.realvirtaddr + s.virtualsize)

/-- It starts at or below the address, and no section that does starts above it. -/
def Precedes (img : Image) (addr : ℕ) (s : Section) : Prop :=
  s ∈ img.startsBelow addr ∧ ∀ t ∈ img.startsBelow addr, t.realvirtaddr ≤ s.realvirtaddr

/-- The file position of a page in the gap behind a section. -/
def behind (img : Image) (s : Section) (addr : ℕ) : ℕ :=
  u32 (img.ulPEOffset + (s.rawoffset + s.rawsize + (addr - (s.realvirtaddr + s.virtualsize))))

/-- The page comes from behind the section that precedes it, and from the header only where no
section does. -/
structure FromPreceding (img : Image) (addr : ℕ) : Prop where
  none_iff : img.findPreviousSectionByOS2Addr addr = none ↔ ∀ s ∈ img.sections, addr < s.realvirtaddr
  previous : ∀ s, img.findPreviousSectionByOS2Addr addr = some s → img.Precedes addr s
  place : img.place addr = img.placeOutside addr
  header : (img.place addr).sect = none → ∀ s ∈ img.sections, addr < s.realvirtaddr
  gap : ∀ s, img.findPreviousSectionByOS2Addr addr = some s →
    img.filePosition (img.place addr) = some (img.behind s addr)

/-- All sections that start at or below the address start at the same place. -/
def SameStart (img : Image) (addr : ℕ) : Prop :=
  ∀ s ∈ img.startsBelow addr, ∀ t ∈ img.startsBelow addr, s.realvirtaddr = t.realvirtaddr

/-- The position behind the first of them is not the mark of uninitialized data. -/
def Unmarked (img : Image) (addr : ℕ) : Prop :=
  ∀ s, (img.startsBelow addr).head? = some s →
    u32 (s.rawoffset + s.rawsize + (addr - (s.realvirtaddr + s.virtualsize))) ≠ 0xffffffff

theorem findPrevious_first (word : addr < 0xffffffff) (same : img.SameStart addr) :
    img.findPreviousSectionByOS2Addr addr = (img.startsBelow addr).head? := by
  refine findPreviousFrom_first word fun s inside le t there le' => ?_
  exact same s (mem_startsBelow.2 ⟨inside, le⟩) t (mem_startsBelow.2 ⟨there, le'⟩)

theorem findPrevious_none_iff (word : addr < 0xffffffff) :
    img.findPreviousSectionByOS2Addr addr = none ↔ ∀ s ∈ img.sections, addr < s.realvirtaddr := by
  rcases @findPrevious_least img addr word with ⟨is, empty⟩ | ⟨s, there, is, least⟩
  · refine iff_of_true is fun s inside => ?_
    by_contra le
    have there := mem_startsBelow.2 ⟨inside, not_lt.1 le⟩
    rw [empty] at there
    exact absurd there List.not_mem_nil
  · refine iff_of_false (by rw [is]; exact Option.some_ne_none s) fun above => ?_
    obtain ⟨inside, le⟩ := mem_startsBelow.1 there
    exact absurd (above s inside) (not_lt.2 le)

namespace Outside

variable (out : img.Outside addr)
include out

theorem below_end {s : Section} (there : s ∈ img.startsBelow addr) :
    s.realvirtaddr + s.virtualsize ≤ addr ∧ s.endAddr = s.realvirtaddr + s.virtualsize := by
  obtain ⟨inside, le⟩ := mem_startsBelow.1 there
  have below : s.realvirtaddr + s.virtualsize ≤ addr := by
    by_contra above
    exact out.outside s inside ⟨le, not_le.1 above⟩
  exact ⟨below, add32_of_lt (below.trans_lt out.word)⟩

theorem not_found : img.findSectionByOS2Addr addr = none := by
  refine List.find?_eq_none.2 fun s inside found => ?_
  obtain ⟨le, lt⟩ : s.realvirtaddr ≤ addr ∧ addr < s.endAddr := by simpa using found
  obtain ⟨below, is⟩ := below_end out (mem_startsBelow.2 ⟨inside, le⟩)
  omega

theorem place_eq : img.place addr = img.placeOutside addr := by
  have rounded : addr / 0x1000 * 0x1000 = addr := by
    have := out.aligned
    omega
  simp only [place, rounded, not_found out]

theorem fileoffset_eq {s : Section} (there : s ∈ img.startsBelow addr) :
    add32 (add32 s.rawoffset s.rawsize) (sub32 addr s.endAddr) =
      u32 (s.rawoffset + s.rawsize + (addr - (s.realvirtaddr + s.virtualsize))) := by
  obtain ⟨below, is⟩ := below_end out there
  rw [is, sub32_of_le below out.word]
  unfold add32 u32
  omega

theorem filePosition_gap {s : Section} (there : s ∈ img.startsBelow addr)
    (found : img.findPreviousSectionByOS2Addr addr = some s) :
    img.filePosition (img.place addr) = some (img.behind s addr) ↔
      u32 (s.rawoffset + s.rawsize + (addr - (s.realvirtaddr + s.virtualsize))) ≠ 0xffffffff := by
  rw [place_eq out]
  simp only [placeOutside, found, filePosition, fileoffset_eq out there]
  by_cases mark :
      u32 (s.rawoffset + s.rawsize + (addr - (s.realvirtaddr + s.virtualsize))) = 0xffffffff
  · simp [mark]
  · rw [if_pos ⟨by decide, mark⟩]
    refine iff_of_true ?_ mark
    simp only [behind, add32, u32, Option.some.injEq]
    omega

end Outside

/-- A page of a gap comes from behind the section that precedes it exactly where no two
sections start at different places at or below it. -/
theorem fromPreceding_iff (img : Image) (addr : ℕ) (out : img.Outside addr) :
    img.FromPreceding addr ↔ img.SameStart addr ∧ img.Unmarked addr := by
  have word : addr < 0xffffffff := by
    have := out.word
    have := out.aligned
    omega
  constructor
  · intro from_preceding
    have same : img.SameStart addr := by
      rcases @findPrevious_least img addr word with ⟨-, empty⟩ | ⟨s, there, is, least⟩
      · intro s there
        rw [empty] at there
        exact absurd there List.not_mem_nil
      · have greatest := (from_preceding.previous s is).2
        have all : ∀ t ∈ img.startsBelow addr, t.realvirtaddr = s.realvirtaddr := fun t ht =>
          le_antisymm (greatest t ht) (least t ht)
        intro t ht u hu
        rw [all t ht, all u hu]
    refine ⟨same, fun s first => ?_⟩
    have found := (findPrevious_first word same).trans first
    exact (out.filePosition_gap (List.mem_of_head? first) found).1
      (from_preceding.gap s found)
  · rintro ⟨same, unmarked⟩
    have first := findPrevious_first word same
    refine ⟨findPrevious_none_iff word, ?_, out.place_eq, ?_, ?_⟩
    · intro s found
      have there := List.mem_of_head? (first.symm.trans found)
      exact ⟨there, fun t ht => (same t ht s there).le⟩
    · intro header
      refine (findPrevious_none_iff word).1 ?_
      rw [out.place_eq, placeOutside] at header
      cases found : img.findPreviousSectionByOS2Addr addr with
      | none => rfl
      | some s => simp [found] at header
    · intro s found
      have head := first.symm.trans found
      exact (out.filePosition_gap (List.mem_of_head? head) found).2 (unmarked s head)

end Image

def codeSection : Section := ⟨1, 0x400, 0x1000, 0x401000, 0x1000, pagRead ||| pagExecute⟩
def dataSection : Section := ⟨2, 0x1400, 0x1000, 0x410000, 0x1000, pagRead ||| pagWrite⟩
def resourceSection : Section := ⟨32, 0x2400, 0x1000, 0x420000, 0x1000, pagRead⟩

/-- Three sections at 64KB boundaries, in the order of their addresses. -/
def spreadImage : Image := ⟨0x400000, 0, [codeSection, dataSection, resourceSection]⟩

theorem spreadImage_disjoint : spreadImage.Disjoint :=
  ⟨by decide, by decide⟩

theorem spreadImage_outside {addr : ℕ} (word : addr < 0x100000000) (aligned : addr % 0x1000 = 0)
    (image : 0x400000 ≤ addr)
    (outside : ∀ s ∈ spreadImage.sections,
      ¬ (s.realvirtaddr ≤ addr ∧ addr < s.realvirtaddr + s.virtualsize)) :
    spreadImage.Outside addr :=
  ⟨word, aligned, image, outside⟩

/-- The page behind the data section is read from behind the code section. -/
theorem gap_not_from_preceding :
    ¬ ∀ (img : Image) (addr : ℕ), img.Disjoint → img.Outside addr → img.FromPreceding addr := by
  intro all
  have right := all spreadImage 0x411000 spreadImage_disjoint
    (spreadImage_outside (by decide) (by decide) (by decide) (by decide))
  have greatest := (right.previous codeSection (by decide)).2 dataSection (by decide)
  exact absurd greatest (by decide)

theorem fromPreceding_codeSection : spreadImage.FromPreceding 0x402000 := by
  refine (Image.fromPreceding_iff spreadImage 0x402000
    (spreadImage_outside (by decide) (by decide) (by decide) (by decide))).2 ⟨?_, ?_⟩
  · unfold Image.SameStart
    decide
  · intro s first
    obtain rfl : codeSection = s := Option.some.inj first
    decide

end Odin32.PeSections
