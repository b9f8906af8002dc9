import Odin32.PageMap
import Mathlib.Data.List.Basic

/-! # Page protection while imports are bound

The part of `Win32PeLdrImage::processImports` that fills the import address tables: the pages
are made writable one by one on the way, and restored in one call at the end. -/

set_option autoImplicit false

namespace Odin32.ImageImports
open Odin32.Word Odin32.PageMap

@[match_pattern] abbrev sectionCode : ℕ := 1
@[match_pattern] abbrev sectionInitdata : ℕ := 2
@[match_pattern] abbrev sectionUninitdata : ℕ := 4
@[match_pattern] abbrev sectionReadonlydata : ℕ := 8
@[match_pattern] abbrev sectionImport : ℕ := 16
@[match_pattern] abbrev sectionCodeImport : ℕ := 17
@[match_pattern] abbrev sectionResource : ℕ := 32
@[match_pattern] abbrev sectionExport : ℕ := 128
@[match_pattern] abbrev sectionTls : ℕ := 512

def imageScnCntInitializedData : ℕ := 0x40
def imageScnCntUninitializedData : ℕ := 0x80
def imageScnMemWrite : ℕ := 0x80000000

/-- What `addSection` stores. -/
structure SectionHeader where
  type : ℕ
  virtaddr : ℕ
  virtualsize : ℕ
  flags : ℕ
deriving DecidableEq, Repr

structure Section where
  realvirtaddr : ℕ
  virtualsize : ℕ
  pageflags : ℕ
deriving DecidableEq, Repr

structure Image where
  /-- `ImageBase` of the header. -/
  originalBaseAddress : ℕ
  realBaseAddress : ℕ
  imageSize : ℕ
  headers : List SectionHeader
deriving DecidableEq, Repr

/-- The flags by the type of a section. -/
def typeFlags (type flags : ℕ) : ℕ :=
  match type with
  | sectionCode | sectionCodeImport =>
    if flags &&& imageScnMemWrite ≠ 0 then pagExecute ||| pagRead ||| pagWrite
    else pagExecute ||| pagRead
  | sectionInitdata | sectionUninitdata | sectionImport | sectionTls => pagWrite ||| pagRead
  | sectionResource => pagWrite ||| pagRead
  | _ => pagRead

/-- `setMemFlags` for one section. -/
def setMemFlags (img : Image) (header : SectionHeader) : Section where
  realvirtaddr :=
    add32 img.realBaseAddress (sub32 header.virtaddr img.originalBaseAddress)
  virtualsize := header.virtualsize
  pageflags :=
    if header.flags &&& (imageScnCntInitializedData ||| imageScnCntUninitializedData) ≠ 0 then
      pagWrite
    else typeFlags header.type header.flags

namespace Image

def sections (img : Image) : List Section := img.headers.map (setMemFlags img)

def findSectionByOS2Addr (img : Image) (addr : ℕ) : Option Section :=
  img.sections.find? fun s => s.realvirtaddr ≤ addr ∧ addr < add32 s.realvirtaddr s.virtualsize

def insideModule (img : Image) (address : ℕ) : Bool :=
  img.realBaseAddress ≤ address && address < add32 img.realBaseAddress img.imageSize

/-- The section that contains a page. -/
def sectionOf (img : Image) (page : ℕ) : Option Section :=
  img.findSectionByOS2Addr (0x1000 * page)

/-- The page belongs to the image. -/
def Inside (img : Image) (page : ℕ) : Prop := img.insideModule (0x1000 * page) = true

instance (img : Image) (page : ℕ) : Decidable (img.Inside page) :=
  inferInstanceAs (Decidable (_ = _))

end Image

/-! ## Pages -/

/-- `commitPage` of a single page: it gets the flags of its section, or is readonly. -/
def commitPage (img : Image) (page : ℕ) (pages : Pages) : Pages := fun q =>
  if q = page ∧ page ≠ 0 ∧ pages page = .reserved then
    .committed (((img.sectionOf page).map (·.pageflags)).getD pagRead)
  else pages q

/-- Page faults on pages of the image. -/
def pageIn (img : Image) : List ℕ → Pages → Pages
  | [], pages => pages
  | page :: rest, pages =>
    if img.Inside page then pageIn img rest (commitPage img page pages)
    else pageIn img rest pages

/-- `DosSetMem` of one page, which must be committed. -/
def setPage (page flags : ℕ) (pages : Pages) : Pages := fun q =>
  match pages q with
  | .committed f => if q = page then .committed flags else .committed f
  | other => other

/-- Reading a page from disk and enabling write access. -/
def makeWritable (img : Image) (page : ℕ) (pages : Pages) : Pages :=
  setPage page (pagRead ||| pagWrite) (commitPage img page pages)

/-! ## The import address tables -/

/-- An entry of a lookup table; for a name, whether its section is found. -/
inductive Lookup where
  | ordinal
  | name (fSection : Bool)
deriving DecidableEq, Repr

/-- What becomes of a descriptor before its address table is filled. -/
inductive Before where
  /-- The module is loaded. -/
  | loaded
  /-- `break` out of the loop over the modules. -/
  | stops
  /-- `return FALSE` -/
  | fails
deriving DecidableEq, Repr

structure Descriptor where
  before : Before
  firstThunk : ℕ
  /-- The entries in front of the zero. -/
  lookups : List Lookup
  /-- The pages that page faults bring in on the way. -/
  faults : List ℕ
  /-- The system takes the call that restores the protection; it refuses a range with a page
  that is not committed. -/
  fRestore : Bool
deriving DecidableEq, Repr

/-- The slot at an address can be written: the pages of its first and its last byte. -/
def slotWritable (pages : Pages) (ulCurFixup : ℕ) : Bool :=
  let writable := fun page => match pages page with
    | .committed flags => flags &&& pagWrite != 0
    | _ => false
  writable (ulCurFixup / 0x1000) && writable (add32 ulCurFixup 3 / 0x1000)

/-- The loop over the slots; `none` is an exception. -/
def fillThunks (img : Image) : List Lookup → ℕ → ℕ → Pages → Option (ℕ × Pages)
  | [], _, nrPages, pages => some (nrPages, pages)
  | .name false :: _, _, nrPages, pages => some (nrPages, pages)
  | _ :: rest, ulCurFixup, nrPages, pages =>
    if slotWritable pages ulCurFixup then
      let ulCurFixup := add32 ulCurFixup 4
      if ulCurFixup % 0x1000 = 0 then
        fillThunks img rest ulCurFixup (nrPages + 1)
          (makeWritable img (ulCurFixup / 0x1000) pages)
      else fillThunks img rest ulCurFixup nrPages pages
    else none

namespace Descriptor

/-- The first slot, where the image is. -/
def thunk (d : Descriptor) (img : Image) : ℕ := add32 d.firstThunk img.realBaseAddress

/-- The first slot, at the base of the header. -/
def headerThunk (d : Descriptor) (img : Image) : ℕ := add32 d.firstThunk img.originalBaseAddress

end Descriptor

def bindThunks (img : Image) (d : Descriptor) (sect : Section) (pages : Pages) : Option Pages :=
  let pages := makeWritable img (d.thunk img / 0x1000) (pageIn img d.faults pages)
  match fillThunks img d.lookups (d.thunk img) 1 pages with
  | none => none
  | some (nrPages, pages) =>
    if d.fRestore then some (setMem (d.headerThunk img / 0x1000) nrPages sect.pageflags pages)
    else some pages

inductive Outcome where
  | returns (result : Bool) (pages : Pages)
  | exception

def processImports (img : Image) : List Descriptor → Pages → Outcome
  | [], pages => .returns true pages
  | d :: rest, pages =>
    match d.before with
    | .fails => .returns false pages
    | .stops => .returns true pages
    | .loaded =>
      match img.findSectionByOS2Addr (d.thunk img) with
      | none => .returns false pages
      | some sect =>
        match bindThunks img d sect pages with
        | none => .exception
        | some pages => processImports img rest pages

/-! ## Which pages a table touches -/

/-- The pages that the loop makes writable. -/
def laterPages : List Lookup → ℕ → List ℕ
  | [], _ => []
  | .name false :: _, _ => []
  | _ :: rest, ulCurFixup =>
    if add32 ulCurFixup 4 % 0x1000 = 0 then
      add32 ulCurFixup 4 / 0x1000 :: laterPages rest (add32 ulCurFixup 4)
    else laterPages rest (add32 ulCurFixup 4)

namespace Descriptor

def thunkPages (d : Descriptor) (img : Image) : List ℕ :=
  d.thunk img / 0x1000 :: laterPages d.lookups (d.thunk img)

/-- The range of the restoring call. -/
def Restores (d : Descriptor) (img : Image) (q : ℕ) : Prop :=
  d.headerThunk img / 0x1000 ≤ q ∧ q < d.headerThunk img / 0x1000 + (d.thunkPages img).length

instance (d : Descriptor) (img : Image) (q : ℕ) : Decidable (d.Restores img q) :=
  inferInstanceAs (Decidable (_ ∧ _))

end Descriptor

/-- The page can be committed, or is. -/
def Opens (pages : Pages) (page : ℕ) : Prop :=
  pages page ≠ .free ∧ (page = 0 → pages page ≠ .reserved)

instance (pages : Pages) (page : ℕ) : Decidable (Opens pages page) :=
  inferInstanceAs (Decidable (_ ∧ _))

theorem commitPage_other (img : Image) {page q : ℕ} (pages : Pages) (other : q ≠ page) :
    commitPage img page pages q = pages q :=
  if_neg fun both => other both.1

theorem makeWritable_other (img : Image) {page q : ℕ} (pages : Pages) (other : q ≠ page) :
    makeWritable img page pages q = pages q := by
  rw [makeWritable, setPage, commitPage_other img pages other]
  cases pages q with
  | committed flags => exact if_neg other
  | free => rfl
  | reserved => rfl

theorem makeWritable_self (img : Image) (page : ℕ) (pages : Pages) :
    makeWritable img page pages page =
      if Opens pages page then .committed (pagRead ||| pagWrite) else pages page := by
  rcases Nat.eq_zero_or_pos page with rfl | pos
  · cases there : pages 0 <;> simp [makeWritable, setPage, commitPage, Opens, there]
  · cases there : pages page <;>
      simp [makeWritable, setPage, commitPage, Opens, there, Nat.pos_iff_ne_zero.1 pos]

theorem opens_makeWritable (img : Image) (page q : ℕ) (pages : Pages) :
    Opens (makeWritable img page pages) q ↔ Opens pages q := by
  by_cases same : q = page
  · subst same
    by_cases opens : Opens pages q
    · refine iff_of_true ?_ opens
      rw [Opens, makeWritable_self, if_pos opens]
      exact ⟨Page.noConfusion, fun _ => Page.noConfusion⟩
    · rw [Opens, makeWritable_self, if_neg opens, ← Opens]
  · rw [Opens, makeWritable_other img pages same, ← Opens]

/-- Making pages writable one by one. -/
def makeAllWritable (img : Image) : List ℕ → Pages → Pages
  | [], pages => pages
  | page :: rest, pages => makeAllWritable img rest (makeWritable img page pages)

theorem makeAllWritable_apply (img : Image) (list : List ℕ) (pages : Pages) (q : ℕ) :
    makeAllWritable img list pages q =
      if q ∈ list ∧ Opens pages q then .committed (pagRead ||| pagWrite) else pages q := by
  induction list generalizing pages with
  | nil => exact (if_neg fun both => absurd both.1 List.not_mem_nil).symm
  | cons page rest ih =>
    rw [makeAllWritable, ih]
    by_cases same : q = page
    · subst same
      simp only [opens_makeWritable, makeWritable_self]
      by_cases opens : Opens pages q <;> simp [opens]
    · simp only [opens_makeWritable, makeWritable_other img pages same]
      simp [same]

theorem fillThunks_spec {img : Image} {lookups : List Lookup} {ulCurFixup nrPages : ℕ}
    {pages : Pages} {result : ℕ × Pages}
    (done : fillThunks img lookups ulCurFixup nrPages pages = some result) :
    result = (nrPages + (laterPages lookups ulCurFixup).length,
      makeAllWritable img (laterPages lookups ulCurFixup) pages) := by
  induction lookups generalizing ulCurFixup nrPages pages with
  | nil => exact (Option.some.inj done).symm
  | cons lookup rest ih =>
    by_cases found : lookup = .name false
    · subst found
      exact (Option.some.inj done).symm
    · have step : fillThunks img (lookup :: rest) ulCurFixup nrPages pages =
          if slotWritable pages ulCurFixup then
            if add32 ulCurFixup 4 % 0x1000 = 0 then
              fillThunks img rest (add32 ulCurFixup 4) (nrPages + 1)
                (makeWritable img (add32 ulCurFixup 4 / 0x1000) pages)
            else fillThunks img rest (add32 ulCurFixup 4) nrPages pages
          else none := by
        rcases lookup with _ | _ | _
        · rfl
        · exact absurd rfl found
        · rfl
      have later : laterPages (lookup :: rest) ulCurFixup =
          if add32 ulCurFixup 4 % 0x1000 = 0 then
            add32 ulCurFixup 4 / 0x1000 :: laterPages rest (add32 ulCurFixup 4)
          else laterPages rest (add32 ulCurFixup 4) := by
        rcases lookup with _ | _ | _
        · rfl
        · exact absurd rfl found
        · rfl
      rw [step] at done
      rw [later]
      split at done
      · by_cases boundary : add32 ulCurFixup 4 % 0x1000 = 0
        · rw [if_pos boundary] at done ⊢
          rw [ih done, List.length_cons, makeAllWritable, Nat.add_assoc,
            Nat.add_comm 1]
        · rw [if_neg boundary] at done ⊢
          exact ih done
      · exact absurd done (Option.some_ne_none result).symm

theorem bindThunks_apply {img : Image} {d : Descriptor} {sect : Section} {pages after : Pages}
    (done : bindThunks img d sect pages = some after) (q : ℕ) :
    after q =
      if d.fRestore ∧ d.Restores img q then .committed sect.pageflags
      else if q ∈ d.thunkPages img ∧ Opens (pageIn img d.faults pages) q then
        .committed (pagRead ||| pagWrite)
      else pageIn img d.faults pages q := by
  rw [bindThunks] at done
  cases filled : fillThunks img d.lookups (d.thunk img) 1
      (makeWritable img (d.thunk img / 0x1000) (pageIn img d.faults pages)) with
  | none => simp [filled] at done
  | some result =>
    have spec := fillThunks_spec filled
    have all : result.2 = makeAllWritable img (d.thunkPages img) (pageIn img d.faults pages) :=
      congrArg Prod.snd spec
    have count : result.1 = (d.thunkPages img).length := by
      rw [spec, Descriptor.thunkPages, List.length_cons, Nat.add_comm]
    simp only [filled] at done
    by_cases restore : d.fRestore = true
    · rw [if_pos restore] at done
      rw [← Option.some.inj done, setMem, count, all, makeAllWritable_apply]
      simp [restore, Descriptor.Restores]
    · rw [if_neg restore] at done
      rw [← Option.some.inj done, all, makeAllWritable_apply]
      simp [restore]

/-! ## The protection afterwards -/

/-- The memory of the image is allocated, and pages that are there have the flags of their
section. -/
structure Loaded (img : Image) (pages : Pages) : Prop where
  allocated : ∀ p, img.Inside p → p ≠ 0 ∧ pages p ≠ .free
  flags : ∀ p, img.Inside p → ∀ sect ∈ img.sectionOf p, ∀ f,
    pages p = .committed f → f = sect.pageflags

/-- Every page of the image has the flags of the section that contains it, and the pages outside
are what they were. -/
structure Restored (img : Image) (pages after : Pages) : Prop where
  allocated : ∀ p, img.Inside p → after p ≠ .free
  flags : ∀ p, img.Inside p → ∀ sect ∈ img.sectionOf p, ∀ f,
    after p = .committed f → f = sect.pageflags
  outside : ∀ p, ¬ img.Inside p → after p = pages p

/-- These flags are right for a page. -/
def Due (img : Image) (pages : Pages) (p f : ℕ) : Prop :=
  if img.Inside p then ∀ sect ∈ img.sectionOf p, f = sect.pageflags
  else pages p = .committed f

/-- What the filling of a table leaves is right: where the restoring call is taken, the flags of
the section of the first slot for every page of its range; and for every page of the table that
it does not restore, read and write access. -/
structure Harmless (img : Image) (pages : Pages) (d : Descriptor) (sect : Section) : Prop where
  restored : d.fRestore → ∀ q, d.Restores img q → Due img pages q sect.pageflags
  left : ∀ q ∈ d.thunkPages img, Opens pages q → ¬ (d.fRestore ∧ d.Restores img q) →
    Due img pages q (pagRead ||| pagWrite)

theorem Loaded.restored {img : Image} {pages : Pages} (loaded : Loaded img pages) :
    Restored img pages pages where
  allocated p inside := (loaded.allocated p inside).2
  flags := loaded.flags
  outside _ _ := rfl

theorem Restored.commitPage {img : Image} {pages after : Pages}
    (restored : Restored img pages after) {page : ℕ} (inside : img.Inside page) :
    Restored img pages (commitPage img page after) where
  allocated p mem := by
    unfold ImageImports.commitPage
    split
    · exact Page.noConfusion
    · exact restored.allocated p mem
  flags p mem sect contains f there := by
    unfold ImageImports.commitPage at there
    split at there
    · rename_i hit
      have same : img.sectionOf page = some sect := hit.1 ▸ contains
      rw [same] at there
      exact (Page.committed.inj there).symm
    · exact restored.flags p mem sect contains f there
  outside p out := by
    have other : p ≠ page := fun same => by
      rw [same] at out
      exact out inside
    rw [commitPage_other img after other]
    exact restored.outside p out

theorem Restored.pageIn {img : Image} {pages after : Pages}
    (restored : Restored img pages after) (faults : List ℕ) :
    Restored img pages (pageIn img faults after) := by
  induction faults generalizing after with
  | nil => exact restored
  | cons page rest ih =>
    rw [ImageImports.pageIn]
    split
    · rename_i inside
      exact ih (restored.commitPage inside)
    · exact ih restored

theorem Restored.opens_iff {img : Image} {pages after : Pages} (loaded : Loaded img pages)
    (restored : Restored img pages after) (q : ℕ) : Opens after q ↔ Opens pages q := by
  by_cases inside : img.Inside q
  · obtain ⟨pos, allocated⟩ := loaded.allocated q inside
    exact iff_of_true ⟨restored.allocated q inside, fun zero => absurd zero pos⟩
      ⟨allocated, fun zero => absurd zero pos⟩
  · rw [Opens, restored.outside q inside, ← Opens]

theorem Restored.due {img : Image} {pages after : Pages} (restored : Restored img pages after)
    {p f : ℕ} (there : after p = .committed f) : Due img pages p f := by
  unfold Due
  split
  · rename_i inside
    exact fun sect contains => restored.flags p inside sect contains f there
  · rename_i out
    exact (restored.outside p out).symm.trans there

theorem bindThunks_restored_iff {img : Image} {pages pages' after : Pages}
    (loaded : Loaded img pages) (restored : Restored img pages pages') {d : Descriptor}
    {sect : Section} (done : bindThunks img d sect pages' = some after) :
    Restored img pages after ↔ Harmless img pages d sect := by
  have read := restored.pageIn d.faults
  have apply := bindThunks_apply done
  constructor
  · intro right
    constructor
    · intro taken q range
      exact right.due ((apply q).trans (if_pos ⟨taken, range⟩))
    · intro q mem opens missed
      refine right.due ((apply q).trans ((if_neg missed).trans (if_pos ⟨mem, ?_⟩)))
      exact (read.opens_iff loaded q).2 opens
  · intro harmless
    have each : ∀ q, after q = pageIn img d.faults pages' q ∨
        ∃ f, after q = .committed f ∧ Due img pages q f := by
      intro q
      have there := apply q
      split at there
      · rename_i hit
        exact Or.inr ⟨_, there, harmless.restored hit.1 q hit.2⟩
      · rename_i missed
        split at there
        · rename_i hit
          have opens := (read.opens_iff loaded q).1 hit.2
          exact Or.inr ⟨_, there, harmless.left q hit.1 opens missed⟩
        · exact Or.inl there
    constructor
    · intro p inside
      rcases each p with same | ⟨f, there, -⟩
      · exact same ▸ read.allocated p inside
      · exact there ▸ Page.noConfusion
    · intro p inside sect' contains f has
      rcases each p with same | ⟨f', there, due⟩
      · exact read.flags p inside sect' contains f (same.symm.trans has)
      · rw [Due, if_pos inside] at due
        exact (Page.committed.inj (has.symm.trans there)).trans (due sect' contains)
    · intro p out
      rcases each p with same | ⟨f, there, due⟩
      · exact same.trans (read.outside p out)
      · rw [Due, if_neg out] at due
        exact there.trans due.symm

/-- Every table that is filled is harmless; the last argument are the pages when the loop comes
to the descriptor. -/
def AllHarmless (img : Image) (pages : Pages) : List Descriptor → Pages → Prop
  | [], _ => True
  | d :: rest, pages' => d.before = .loaded → ∀ sect ∈ img.findSectionByOS2Addr (d.thunk img),
      ∀ after ∈ bindThunks img d sect pages',
        Harmless img pages d sect ∧ AllHarmless img pages rest after

theorem processImports_restored_iff_of {img : Image} {pages pages' : Pages}
    (loaded : Loaded img pages) (restored : Restored img pages pages')
    (descriptors : List Descriptor) :
    (∀ k after, processImports img (descriptors.take k) pages' = .returns true after →
      Restored img pages after) ↔ AllHarmless img pages descriptors pages' := by
  induction descriptors generalizing pages' with
  | nil =>
    refine iff_of_true (fun k after done => ?_) trivial
    rw [List.take_nil] at done
    cases done
    exact restored
  | cons d rest ih =>
    have first : ∀ k, (d :: rest).take (k + 1) = d :: rest.take k := fun _ => rfl
    constructor
    · intro right loads sect found after done
      have step : ∀ k, processImports img ((d :: rest).take (k + 1)) pages' =
          processImports img (rest.take k) after := fun k => by
        rw [first, processImports, loads, found]
        simp only
        rw [done]
      have once : Restored img pages after := right 1 after (step 0)
      refine ⟨(bindThunks_restored_iff loaded restored done).1 once, (ih once).1 ?_⟩
      exact fun k last ends => right (k + 1) last ((step k).trans ends)
    · intro harmless k after done
      cases k with
      | zero =>
        cases done
        exact restored
      | succ k =>
        rw [first, processImports] at done
        cases before : d.before with
        | fails => rw [before] at done; cases done
        | stops => rw [before] at done; cases done; exact restored
        | loaded =>
          cases found : img.findSectionByOS2Addr (d.thunk img) with
          | none => simp [before, found] at done
          | some sect =>
            cases filled : bindThunks img d sect pages' with
            | none => simp [before, found, filled] at done
            | some between =>
              simp only [before, found, filled] at done
              obtain ⟨here, others⟩ := harmless before sect found between filled
              have once := (bindThunks_restored_iff loaded restored filled).2 here
              exact (ih once).2 others k after done

/-- Filling the import address tables of the first modules, however many, leaves the protection
of every page right, exactly if every table that is filled is harmless: the pages it makes
writable are restored, with flags that are right for each of them. -/
theorem processImports_restored_iff (img : Image) (pages : Pages) (loaded : Loaded img pages)
    (descriptors : List Descriptor) :
    (∀ k after, processImports img (descriptors.take k) pages = .returns true after →
      Restored img pages after) ↔ AllHarmless img pages descriptors pages :=
  processImports_restored_iff_of loaded loaded.restored descriptors

/-! ## An image at its own base -/

theorem laterPages_range {lookups : List Lookup} {ulCurFixup p : ℕ} (aligned : ulCurFixup % 4 = 0)
    (fits : ulCurFixup + 4 * lookups.length < 0x100000000)
    (mem : p ∈ laterPages lookups ulCurFixup) :
    ulCurFixup / 0x1000 < p ∧
      p ≤ ulCurFixup / 0x1000 + (laterPages lookups ulCurFixup).length := by
  induction lookups generalizing ulCurFixup with
  | nil => exact absurd mem List.not_mem_nil
  | cons lookup rest ih =>
    by_cases found : lookup = .name false
    · subst found
      exact absurd mem List.not_mem_nil
    · have later : laterPages (lookup :: rest) ulCurFixup =
          if add32 ulCurFixup 4 % 0x1000 = 0 then
            add32 ulCurFixup 4 / 0x1000 :: laterPages rest (add32 ulCurFixup 4)
          else laterPages rest (add32 ulCurFixup 4) := by
        rcases lookup with _ | _ | _
        · rfl
        · exact absurd rfl found
        · rfl
      rw [List.length_cons] at fits
      rw [add32_of_lt (by omega)] at later
      rw [later] at mem ⊢
      have next := @ih (ulCurFixup + 4) (by omega) (by omega)
      by_cases boundary : (ulCurFixup + 4) % 0x1000 = 0
      · rw [if_pos boundary] at mem ⊢
        rw [List.length_cons]
        rcases List.mem_cons.1 mem with rfl | mem
        · omega
        · obtain ⟨above, below⟩ := next mem
          omega
      · rw [if_neg boundary] at mem ⊢
        obtain ⟨above, below⟩ := next mem
        omega

/-- Where the image is at its own base, the restoring call is about the pages of the table, and
it is harmless if they all belong to sections with the flags of the first one. -/
theorem harmless_of_preferred {img : Image} {pages : Pages} {d : Descriptor} {sect : Section}
    (preferred : img.realBaseAddress = img.originalBaseAddress) (aligned : d.thunk img % 4 = 0)
    (fits : d.thunk img + 4 * d.lookups.length < 0x100000000) (taken : d.fRestore = true)
    (due : ∀ q, d.Restores img q → Due img pages q sect.pageflags) :
    Harmless img pages d sect where
  restored _ := due
  left q mem _ missed := by
    have same : d.headerThunk img = d.thunk img := by
      rw [Descriptor.headerThunk, Descriptor.thunk, preferred]
    refine absurd ⟨taken, ?_⟩ missed
    rw [Descriptor.Restores, same, Descriptor.thunkPages, List.length_cons]
    rcases List.mem_cons.1 mem with rfl | mem
    · omega
    · obtain ⟨above, below⟩ := laterPages_range aligned fits mem
      omega

/-- A code section with an import address table. -/
def sampleImage (originalBaseAddress : ℕ) : Image where
  originalBaseAddress := originalBaseAddress
  realBaseAddress := 0x500000
  imageSize := 0x2000
  headers := [⟨sectionCodeImport, originalBaseAddress + 0x1000, 0x1000, 0x60000020⟩]

/-- Nothing but the two pages of the image is allocated. -/
def samplePages : Pages := fun p => if p = 0x500 ∨ p = 0x501 then .reserved else .free

def sampleDescriptor (fRestore : Bool) : Descriptor := ⟨.loaded, 0x1000, [.ordinal], [], fRestore⟩

theorem sample_inside {originalBaseAddress p : ℕ}
    (inside : (sampleImage originalBaseAddress).Inside p) : p = 0x500 ∨ p = 0x501 := by
  unfold Image.Inside Image.insideModule at inside
  rw [Bool.and_eq_true, decide_eq_true_eq, decide_eq_true_eq] at inside
  have size : add32 (sampleImage originalBaseAddress).realBaseAddress
      (sampleImage originalBaseAddress).imageSize = 0x502000 :=
    @add32_of_lt 0x500000 0x2000 (by decide)
  have base : (sampleImage originalBaseAddress).realBaseAddress = 0x500000 := rfl
  omega

theorem sample_loaded (originalBaseAddress : ℕ) :
    Loaded (sampleImage originalBaseAddress) samplePages where
  allocated p inside := by
    have there : samplePages p = .reserved := if_pos (sample_inside inside)
    rw [there]
    exact ⟨by have := sample_inside inside; omega, Page.noConfusion⟩
  flags p inside _ _ f there := by
    have not : samplePages p = .reserved := if_pos (sample_inside inside)
    exact Page.noConfusion (there.symm.trans not)

/-- The protection of the code section is restored at the base of the header. -/
theorem sample_restored : Loaded (sampleImage 0x500000) samplePages ∧ ∀ k after,
    processImports (sampleImage 0x500000) ([sampleDescriptor true].take k) samplePages =
      .returns true after → Restored (sampleImage 0x500000) samplePages after := by
  refine ⟨sample_loaded 0x500000, (processImports_restored_iff (sampleImage 0x500000) samplePages
    (sample_loaded 0x500000) [sampleDescriptor true]).2 fun _ sect found after _ => ⟨?_, trivial⟩⟩
  have thunk : (sampleDescriptor true).thunk (sampleImage 0x500000) = 0x501000 := by decide
  have aligned : (sampleDescriptor true).thunk (sampleImage 0x500000) % 4 = 0 := by decide
  have fits : (sampleDescriptor true).thunk (sampleImage 0x500000) +
      4 * (sampleDescriptor true).lookups.length < 0x100000000 := by
    rw [thunk]
    decide
  refine harmless_of_preferred rfl aligned fits rfl fun q range => ?_
  have first : q = 0x501 := by
    have start : (sampleDescriptor true).headerThunk (sampleImage 0x500000) / 0x1000 = 0x501 := by
      decide
    have count : ((sampleDescriptor true).thunkPages (sampleImage 0x500000)).length = 1 := by
      decide
    rw [Descriptor.Restores, start, count] at range
    omega
  subst first
  rw [Due, if_pos (by decide)]
  intro sect' contains
  have same : sect = sect' := by
    have located : (sampleImage 0x500000).sectionOf 0x501 = some sect := found
    exact Option.some.inj (located.symm.trans contains)
  rw [same]

theorem sample_moved : processImports (sampleImage 0x400000) [sampleDescriptor false] samplePages =
    .returns true (makeWritable (sampleImage 0x400000) 0x501 samplePages) := by
  have found : (sampleImage 0x400000).findSectionByOS2Addr
      ((sampleDescriptor false).thunk (sampleImage 0x400000)) = some ⟨0x501000, 0x1000, 5⟩ := by
    decide
  have filled : fillThunks (sampleImage 0x400000) [.ordinal] 0x501000 1
      (makeWritable (sampleImage 0x400000) 0x501 samplePages) =
        some (1, makeWritable (sampleImage 0x400000) 0x501 samplePages) := by
    rw [fillThunks, if_pos (by decide)]
    · rfl
    · exact Lookup.noConfusion
  have thunk : (sampleDescriptor false).thunk (sampleImage 0x400000) = 0x501000 := by decide
  have bound : bindThunks (sampleImage 0x400000) (sampleDescriptor false) ⟨0x501000, 0x1000, 5⟩
      samplePages = some (makeWritable (sampleImage 0x400000) 0x501 samplePages) := by
    rw [bindThunks, thunk]
    exact congrArg (fun filled => match filled with
      | none => none
      | some (_, pages) => some pages) filled
  rw [processImports]
  simp only [found, bound]
  rfl

/-- An image that was moved keeps the page writable. -/
theorem processImports_not_restored : ¬ ∀ (img : Image) (pages : Pages)
    (descriptors : List Descriptor) (after : Pages), Loaded img pages →
    processImports img descriptors pages = .returns true after → Restored img pages after := by
  intro always
  have right := always (sampleImage 0x400000) samplePages [sampleDescriptor false] _
    (sample_loaded 0x400000) sample_moved
  have flags := right.flags 0x501 (by decide) _ rfl 3 (by decide)
  exact absurd flags (by decide)

end Odin32.ImageImports
