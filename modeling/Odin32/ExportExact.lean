import Odin32.ExportTable

/-! # What the search for an export answers

Which exports `findApi` finds when the name table is sorted, and when its answer is the one of
the export's entry in the address table. -/

set_option autoImplicit false

namespace Odin32.ExportTable
open Odin32.Word Odin32.BinarySearch

/-- What an entry of the address table leads to. -/
def answer (modules : List Module) (fuel : ℕ) (img : Image) (iExpOrdinal : ℕ) : Option ℕ :=
  if img.isForwarder (img.paAddress iExpOrdinal) then
    match forwardTarget modules (img.string (img.paAddress iExpOrdinal)) with
    | none => some 0
    | some (m, q) => findApi modules fuel m q
  else some (img.getPointerFromRVA (img.paAddress iExpOrdinal))

variable {modules : List Module} {fuel m : ℕ} {q : Query}

theorem findApi_of_none (missing : slotOf modules m q = none) :
    findApi modules (fuel + 1) m q = some 0 := by
  rw [findApi, missing]

theorem findApi_of_some {mod : Module} {i : ℕ} (found : slotOf modules m q = some (mod, i)) :
    findApi modules (fuel + 1) m q = answer modules fuel mod.image i := by
  rw [findApi, found]
  rfl

theorem slotOf_eq {mod : Module} (there : modules[m]? = some mod) :
    slotOf modules m q = (mod.image.findIndex q).map fun i => (mod, i) := by
  rw [slotOf, there]

namespace Directory

variable {ped : Directory}

/-- The name table is sorted by `strcmp`. -/
def Sorted (ped : Directory) : Prop :=
  ∀ i j, i ≤ j → j < ped.numberOfNames → (strcmp (ped.names i) (ped.names j)).isLE

/-- No name stands for two entries of the address table. -/
def OneIndex (ped : Directory) : Prop :=
  ∀ i j, i < ped.numberOfNames → j < ped.numberOfNames → ped.names i = ped.names j →
    ped.ordinals i = ped.ordinals j

/-- The entries of the address table that an export stands for. -/
def Denotes (ped : Directory) : Query → ℕ → Prop
  | .name pszName, i => ∃ j < ped.numberOfNames, ped.names j = pszName ∧ ped.ordinals j = i
  | .ordinal ulOrdinal, i =>
    ped.base ≤ ulOrdinal ∧ ulOrdinal < ped.base + ped.numberOfFunctions ∧ i = ulOrdinal - ped.base

theorem diff_eq {pszName : List UInt8} {i : ℕ} :
    ped.diff pszName i = .eq ↔ ped.names (i - 1) = pszName :=
  Std.LawfulEqCmp.compare_eq_iff_eq

theorem Sorted.ascends (sorted : ped.Sorted) (pszName : List UInt8) :
    Ascends (ped.diff pszName) ped.numberOfNames := by
  constructor
  · intro i j low le high less
    exact Std.TransCmp.lt_of_isLE_of_lt (sorted (i - 1) (j - 1) (by omega) (by omega)) less
  · intro i j low le high greater
    have order := sorted (i - 1) (j - 1) (by omega) (by omega)
    have flipped : strcmp pszName (ped.names (i - 1)) = .lt := Std.OrientedCmp.gt_iff_lt.1 greater
    exact Std.OrientedCmp.gt_iff_lt.2 (Std.TransCmp.lt_of_lt_of_isLE flipped order)

theorem findIndex_name (sorted : ped.Sorted) (pszName : List UInt8) :
    (∃ i, ped.Denotes (.name pszName) i ∧ ped.findIndex (.name pszName) = some i) ∨
    ped.findIndex (.name pszName) = none ∧ ∀ i, ¬ ped.Denotes (.name pszName) i := by
  rw [findIndex]
  rcases search_finds (sorted.ascends pszName) with ⟨i, found, low, high, equal⟩ | ⟨missing, none⟩
  · rw [found]
    exact .inl ⟨_, ⟨i - 1, by omega, diff_eq.1 equal, rfl⟩, rfl⟩
  · rw [missing]
    refine .inr ⟨rfl, ?_⟩
    rintro i ⟨j, inside, is, -⟩
    exact none (j + 1) (by omega) (by omega) (diff_eq.2 is)

/-- The range test answers as the range of the address table does. -/
def InRange (ped : Directory) : Query → Prop
  | .name _ => True
  | .ordinal ulOrdinal => ped.base ≤ ulOrdinal →
    (ulOrdinal < add32 ped.base (max ped.numberOfNames ped.numberOfFunctions) ↔
      ulOrdinal < ped.base + ped.numberOfFunctions)

theorem findIndex_ordinal {ulOrdinal i : ℕ} :
    ped.findIndex (.ordinal ulOrdinal) = some i ↔
      ped.base ≤ ulOrdinal ∧
        ulOrdinal < add32 ped.base (max ped.numberOfNames ped.numberOfFunctions) ∧
        i = ulOrdinal - ped.base := by
  rw [findIndex]
  split_ifs with out
  · constructor
    · intro none
      cases none
    · rintro ⟨low, high, -⟩
      omega
  · rw [Option.some.injEq]
    constructor
    · intro is
      exact ⟨by omega, by omega, is.symm⟩
    · rintro ⟨-, -, is⟩
      exact is.symm

theorem findIndex_denotes (sorted : ped.Sorted) (inRange : ped.InRange q) :
    (∃ i, ped.Denotes q i ∧ ped.findIndex q = some i) ∨
    ped.findIndex q = none ∧ ∀ i, ¬ ped.Denotes q i := by
  cases q with
  | name pszName => exact findIndex_name sorted pszName
  | ordinal ulOrdinal =>
    by_cases there : ped.base ≤ ulOrdinal ∧ ulOrdinal < ped.base + ped.numberOfFunctions
    · refine .inl ⟨ulOrdinal - ped.base, ⟨there.1, there.2, rfl⟩, ?_⟩
      exact findIndex_ordinal.2 ⟨there.1, (inRange there.1).2 there.2, rfl⟩
    · refine .inr ⟨Option.eq_none_iff_forall_ne_some.2 fun i found => ?_, ?_⟩
      · obtain ⟨low, high, -⟩ := findIndex_ordinal.1 found
        exact there ⟨low, (inRange low).1 high⟩
      · rintro i ⟨low, high, -⟩
        exact there ⟨low, high⟩

end Directory

/-! ## Exact answers -/

/-- What an export has to answer: 0 for an empty entry. -/
def slotAnswer (modules : List Module) (fuel : ℕ) (img : Image) (i : ℕ) : Option ℕ :=
  if img.paAddress i = 0 then some 0 else answer modules fuel img i

/-- The search finds what there is, reads inside the address table only, and answers what the
export's entry says, or 0 where there is no such export. -/
structure Exact (modules : List Module) (fuel m : ℕ) (img : Image) (ped : Directory) (q : Query) :
    Prop where
  finds : (∃ i, ped.findIndex q = some i) ↔ ∃ i, ped.Denotes q i
  inside : ∀ i, ped.findIndex q = some i → i < ped.numberOfFunctions
  missing : (∀ i, ¬ ped.Denotes q i) → findApi modules (fuel + 1) m q = some 0
  found : ∀ i, ped.Denotes q i → i < ped.numberOfFunctions ∧
    findApi modules (fuel + 1) m q = slotAnswer modules fuel img i

/-- The entries of the export are in the table, not empty and lead to one address, and the range
test is right for it. -/
structure Proper (modules : List Module) (fuel : ℕ) (img : Image) (ped : Directory) (q : Query) :
    Prop where
  inRange : ped.InRange q
  entry : ∀ i, ped.Denotes q i → i < ped.numberOfFunctions ∧ img.paAddress i ≠ 0
  agree : ∀ i j, ped.Denotes q i → ped.Denotes q j →
    answer modules fuel img i = answer modules fuel img j

theorem answer_empty (img : Image) {i : ℕ} (empty : img.paAddress i = 0) :
    answer modules fuel img i = some img.hinstance := by
  have plain : img.isForwarder 0 = false := by simp [Image.isForwarder]
  rw [answer, empty, plain, Image.getPointerFromRVA, add32_of_lt (by simpa using img.loaded.2)]
  rfl

theorem Directory.OneIndex.unique {ped : Directory} (one : ped.OneIndex) {i j : ℕ}
    (here : ped.Denotes q i) (there : ped.Denotes q j) : i = j := by
  cases q with
  | name pszName =>
    obtain ⟨k, inside, is, rfl⟩ := here
    obtain ⟨l, inside', is', rfl⟩ := there
    exact one k l inside inside' (is.trans is'.symm)
  | ordinal ulOrdinal =>
    obtain ⟨-, -, rfl⟩ := here
    obtain ⟨-, -, rfl⟩ := there
    rfl

section

variable {mod : Module} {ped : Directory} (there : modules[m]? = some mod)
  (exports : mod.image.exportDir = some ped)
include there exports

theorem slotOf_directory : slotOf modules m q = (ped.findIndex q).map fun i => (mod, i) := by
  rw [slotOf_eq there, Image.findIndex, exports]

theorem findApi_missing (none : ped.findIndex q = none) :
    findApi modules (fuel + 1) m q = some 0 :=
  findApi_of_none (by rw [slotOf_directory there exports, none]; rfl)

theorem findApi_found {i : ℕ} (found : ped.findIndex q = some i) :
    findApi modules (fuel + 1) m q = answer modules fuel mod.image i :=
  findApi_of_some (by rw [slotOf_directory there exports, found]; rfl)

theorem exact_of_proper (sorted : ped.Sorted) (proper : Proper modules fuel mod.image ped q) :
    Exact modules fuel m mod.image ped q := by
  rcases Directory.findIndex_denotes sorted proper.inRange with ⟨i, denotes, found⟩ | ⟨none, no⟩
  · refine ⟨iff_of_true ⟨i, found⟩ ⟨i, denotes⟩, fun j is => ?_, fun no => absurd denotes (no i),
      fun j other => ?_⟩
    · rw [found] at is
      obtain rfl := Option.some.inj is
      exact (proper.entry i denotes).1
    · obtain ⟨inside, full⟩ := proper.entry j other
      rw [findApi_found there exports found, slotAnswer, if_neg full]
      exact ⟨inside, proper.agree i j denotes other⟩
  · have nothing : ∀ i, ped.findIndex q ≠ some i := by simp [none]
    exact ⟨iff_of_false (not_exists.2 nothing) (not_exists.2 no), fun j is => absurd is (nothing j),
      fun _ => findApi_missing there exports none, fun j other => absurd other (no j)⟩

omit there exports in
theorem Exact.inRange (exact_ : Exact modules fuel m mod.image ped q) : ped.InRange q := by
  cases q with
  | name pszName => trivial
  | ordinal ulOrdinal =>
    intro low
    constructor
    · intro high
      have := exact_.inside (ulOrdinal - ped.base) (Directory.findIndex_ordinal.2 ⟨low, high, rfl⟩)
      omega
    · intro high
      obtain ⟨i, found⟩ := exact_.finds.2 ⟨_, low, high, rfl⟩
      exact (Directory.findIndex_ordinal.1 found).2.1

theorem proper_of_exact (sorted : ped.Sorted) (one : ped.OneIndex)
    (exact_ : Exact modules fuel m mod.image ped q) : Proper modules fuel mod.image ped q := by
  refine ⟨exact_.inRange, fun i denotes => ?_, fun i j here there => by rw [one.unique here there]⟩
  obtain ⟨inside, is⟩ := exact_.found i denotes
  refine ⟨inside, fun empty => ?_⟩
  rcases Directory.findIndex_denotes sorted exact_.inRange with ⟨j, other, found⟩ | ⟨-, no⟩
  · obtain rfl := one.unique denotes other
    rw [findApi_found there exports found, answer_empty _ empty, slotAnswer, if_pos empty] at is
    exact absurd (Option.some.inj is) mod.image.loaded.1.ne'
  · exact no i denotes

end

/-- The search is exact for the exports that are in the table, not empty and in the range that is
tested; and for no others where each name has one entry. -/
theorem findApi_exact (modules : List Module) (fuel m : ℕ) (mod : Module) (ped : Directory)
    (q : Query) (there : modules[m]? = some mod) (exports : mod.image.exportDir = some ped)
    (sorted : ped.Sorted) :
    (Proper modules fuel mod.image ped q → Exact modules fuel m mod.image ped q) ∧
      (ped.OneIndex → Exact modules fuel m mod.image ped q → Proper modules fuel mod.image ped q) :=
  ⟨exact_of_proper there exports sorted, fun one => proper_of_exact there exports sorted one⟩

/-- One name and three entries, the second of them empty. -/
def gapDirectory : Directory where
  base := 1
  numberOfFunctions := 3
  numberOfNames := 1
  names := fun _ => LxNames.ascii "Open"
  ordinals := fun _ => 0
  short := fun _ => of_decide_eq_true rfl
  word := of_decide_eq_true rfl
  fits := of_decide_eq_true rfl

def gapImage : Image where
  hinstance := 0x10000000
  virtualAddress := 0x5000
  size := 0x100
  exportDir := some gapDirectory
  paAddress := fun i => if i = 0 then 0x1000 else if i = 2 then 0x2000 else 0
  string := fun _ => []
  loaded := ⟨of_decide_eq_true rfl, of_decide_eq_true rfl⟩

def gapModules : List Module := [⟨LxNames.ascii "GAP.DLL", gapImage⟩]

theorem gapDirectory_sorted : gapDirectory.Sorted := by
  intro i j _ _
  rw [show gapDirectory.names i = gapDirectory.names j from rfl]
  exact Std.ReflCmp.isLE_rfl

theorem gapModules_ordinal : findApi gapModules 1 0 (.ordinal 2) = some 0x10000000 := by
  decide +kernel

/-- The empty entry is answered with the address of the image. -/
theorem findApi_not_exact :
    ¬ ∀ (modules : List Module) (fuel m : ℕ) (mod : Module) (ped : Directory) (q : Query),
      modules[m]? = some mod → mod.image.exportDir = some ped → ped.Sorted →
        Exact modules fuel m mod.image ped q := by
  intro all
  have exact_ := all gapModules 0 0 ⟨LxNames.ascii "GAP.DLL", gapImage⟩ gapDirectory
    (.ordinal 2) rfl rfl gapDirectory_sorted
  obtain ⟨-, is⟩ := exact_.found 1 ⟨by decide, by decide, rfl⟩
  rw [gapModules_ordinal] at is
  exact absurd (Option.some.inj is) (by decide)

theorem gapModules_open_exact :
    Exact gapModules 0 0 gapImage gapDirectory (.name (LxNames.ascii "Open")) := by
  refine (findApi_exact gapModules 0 0 ⟨LxNames.ascii "GAP.DLL", gapImage⟩ gapDirectory _ rfl rfl
    gapDirectory_sorted).1 ⟨trivial, ?_, ?_⟩
  · rintro i ⟨j, -, -, rfl⟩
    change 0 < 3 ∧ 0x1000 ≠ 0
    decide
  · rintro i j ⟨k, -, -, rfl⟩ ⟨l, -, -, rfl⟩
    rfl

end Odin32.ExportTable
