import Odin32.ExportExact
import Odin32.Walk
import Mathlib.Data.Finite.Prod

/-! # Chains of forwarders

The search for an export as a walk over entries of address tables. It ends exactly when the walk
does not come back to an entry. -/

set_option autoImplicit false

namespace Odin32.ExportTable
open Odin32.Word Odin32.Walk

/-- An entry of an address table: the position of its module, and its index. -/
abbrev Slot := ℕ × ℕ

def slotAt (modules : List Module) (m : ℕ) (q : Query) : Option Slot :=
  (slotOf modules m q).map fun r => (m, r.2)

/-- The forwarder string of an entry. -/
def forwardString (modules : List Module) (s : Slot) : Option (List UInt8) :=
  match modules[s.1]? with
  | none => none
  | some mod =>
    if mod.image.isForwarder (mod.image.paAddress s.2) then
      some (mod.image.string (mod.image.paAddress s.2))
    else none

/-- The entry that a forwarder leads to. -/
def nextSlot (modules : List Module) (s : Slot) : Option Slot :=
  match forwardString modules s with
  | none => none
  | some forward =>
    match forwardTarget modules forward with
    | none => none
    | some (m, q) => slotAt modules m q

/-- The search ends. -/
def Returns (modules : List Module) (m : ℕ) (q : Query) : Prop :=
  ∃ fuel address, findApi modules fuel m q = some address

/-- The walk from the export comes to that entry. -/
def Visits (modules : List Module) (m : ℕ) (q : Query) (s : Slot) : Prop :=
  ∃ first, slotAt modules m q = some first ∧
    Relation.ReflTransGen (Step (nextSlot modules)) first s

/-- No forwarder string on the way is written behind its buffer. -/
def CopiesFit (modules : List Module) (m : ℕ) (q : Query) : Prop :=
  ∀ s, Visits modules m q s → ∀ forward, forwardString modules s = some forward →
    ∀ buffer written, forwardCopy forward = some (buffer, written) → written ≤ buffer

/-- No entry is visited again. -/
def NoWayBack (modules : List Module) (m : ℕ) (q : Query) : Prop :=
  ∀ s, Visits modules m q s → ¬ Relation.TransGen (Step (nextSlot modules)) s s

/-- The export is not forwarded, or to an empty string. -/
def Plain (modules : List Module) (m : ℕ) (q : Query) : Prop :=
  ∀ s, slotAt modules m q = some s → ∀ forward, forwardString modules s = some forward →
    forward = []

variable {modules : List Module} {fuel m i : ℕ} {q : Query}

theorem slotOf_spec {r : Module × ℕ} (found : slotOf modules m q = some r) :
    modules[m]? = some r.1 ∧ r.1.image.findIndex q = some r.2 := by
  unfold slotOf at found
  split at found
  · cases found
  · next mod there =>
    obtain ⟨i, is, rfl⟩ := Option.map_eq_some_iff.1 found
    exact ⟨there, is⟩

theorem findIndex_word (img : Image) (found : img.findIndex q = some i) : i < 0x100000000 := by
  unfold Image.findIndex at found
  split at found
  · cases found
  · next ped _ =>
    cases q with
    | name pszName =>
      rw [Directory.findIndex] at found
      split at found
      · cases found
      · obtain rfl := Option.some.inj found
        exact (ped.short _).trans (by decide)
    | ordinal ulOrdinal =>
      obtain ⟨-, high, rfl⟩ := Directory.findIndex_ordinal.1 found
      have := add32_lt ped.base (max ped.numberOfNames ped.numberOfFunctions)
      omega

theorem forwardString_eq {mod : Module} (there : modules[m]? = some mod) :
    forwardString modules (m, i) =
      if mod.image.isForwarder (mod.image.paAddress i) then
        some (mod.image.string (mod.image.paAddress i))
      else none := by
  simp only [forwardString, there]

theorem answer_eq {mod : Module} (there : modules[m]? = some mod) :
    answer modules fuel mod.image i =
      match forwardString modules (m, i) with
      | none => some (mod.image.getPointerFromRVA (mod.image.paAddress i))
      | some forward =>
        match forwardTarget modules forward with
        | none => some 0
        | some (m, q) => findApi modules fuel m q := by
  rw [answer, forwardString_eq there]
  split_ifs
  · rfl
  · rfl

theorem slotAt_eq_none : slotAt modules m q = none ↔ slotOf modules m q = none := by
  rw [slotAt, Option.map_eq_none_iff]

theorem slotAt_some {s : Slot} (found : slotAt modules m q = some s) :
    ∃ mod, modules[m]? = some mod ∧ s.1 = m ∧ slotOf modules m q = some (mod, s.2) ∧
      s.2 < 0x100000000 := by
  obtain ⟨⟨mod, i⟩, is, rfl⟩ := Option.map_eq_some_iff.1 found
  obtain ⟨there, index⟩ := slotOf_spec is
  exact ⟨mod, there, rfl, is, findIndex_word mod.image index⟩

/-- The entries of loaded modules. -/
def Loaded (modules : List Module) : Set Slot :=
  {s | s.1 < modules.length ∧ s.2 < 0x100000000}

theorem loaded_finite (modules : List Module) : (Loaded modules).Finite := by
  refine ((Set.finite_lt_nat modules.length).prod (Set.finite_lt_nat 0x100000000)).subset ?_
  rintro ⟨m, i⟩ ⟨position, index⟩
  exact ⟨position, index⟩

theorem slotAt_loaded {s : Slot} (found : slotAt modules m q = some s) : s ∈ Loaded modules := by
  obtain ⟨mod, there, rfl, -, index⟩ := slotAt_some found
  exact ⟨(List.getElem?_eq_some_iff.1 there).1, index⟩

theorem nextSlot_cases {s t : Slot} (link : nextSlot modules s = some t) :
    ∃ forward m q, forwardString modules s = some forward ∧
      forwardTarget modules forward = some (m, q) ∧ slotAt modules m q = some t := by
  unfold nextSlot at link
  split at link
  · cases link
  · next forward is =>
    split at link
    · cases link
    · next m q target => exact ⟨forward, m, q, is, target, link⟩

theorem Visits.loaded {s : Slot} (visits : Visits modules m q s) : s ∈ Loaded modules := by
  obtain ⟨first, found, reached⟩ := visits
  induction reached with
  | refl => exact slotAt_loaded found
  | tail _ link _ =>
    obtain ⟨-, _, _, -, -, target⟩ := nextSlot_cases link
    exact slotAt_loaded target

/-! ## The search and the walk -/

theorem path_of_findApi {s : Slot} (found : slotAt modules m q = some s)
    (ends : findApi modules fuel m q ≠ none) :
    path (nextSlot modules) fuel s ≠ none := by
  induction fuel generalizing m q s with
  | zero => exact absurd rfl ends
  | succ fuel ih =>
    obtain ⟨mod, there, rfl, is, -⟩ := slotAt_some found
    rw [findApi_of_some is, answer_eq there] at ends
    cases link : nextSlot modules (s.1, s.2) with
    | none => simp [path_end link]
    | some t =>
      obtain ⟨forward, m', q', text, target, onward⟩ := nextSlot_cases link
      rw [text] at ends
      dsimp only at ends
      rw [target] at ends
      rw [path_link link]
      simpa using ih onward ends

theorem findApi_of_path {s : Slot} (found : slotAt modules m q = some s)
    (ends : path (nextSlot modules) fuel s ≠ none) : findApi modules (fuel + 1) m q ≠ none := by
  induction fuel generalizing m q s with
  | zero => exact absurd rfl ends
  | succ fuel ih =>
    obtain ⟨mod, there, rfl, is, -⟩ := slotAt_some found
    rw [findApi_of_some is, answer_eq there]
    cases text : forwardString modules (s.1, s.2) with
    | none => simp
    | some forward =>
      cases target : forwardTarget modules forward with
      | none => simp [target]
      | some r =>
        obtain ⟨m', q'⟩ := r
        simp only [target]
        cases onward : slotAt modules m' q' with
        | none =>
          rw [findApi_of_none (slotAt_eq_none.1 onward)]
          exact Option.some_ne_none 0
        | some t =>
          have link : nextSlot modules (s.1, s.2) = some t := by
            simp only [nextSlot, text, target, onward]
          rw [path_link link] at ends
          exact ih onward (by simpa using ends)

theorem returns_iff_path {s : Slot} (found : slotAt modules m q = some s) :
    Returns modules m q ↔ ∃ fuel l, path (nextSlot modules) fuel s = some l := by
  constructor
  · rintro ⟨fuel, address, ends⟩
    have walked : path (nextSlot modules) fuel s ≠ none :=
      path_of_findApi found (by simp [ends])
    exact ⟨fuel, Option.ne_none_iff_exists'.1 walked⟩
  · rintro ⟨fuel, l, walked⟩
    have ends : findApi modules (fuel + 1) m q ≠ none :=
      findApi_of_path found (by simp [walked])
    exact ⟨fuel + 1, Option.ne_none_iff_exists'.1 ends⟩

theorem returns_iff (modules : List Module) (m : ℕ) (q : Query) :
    Returns modules m q ↔ NoWayBack modules m q := by
  cases found : slotAt modules m q with
  | none =>
    refine iff_of_true ⟨1, 0, findApi_of_none (slotAt_eq_none.1 found)⟩ ?_
    rintro s ⟨first, is, -⟩
    rw [found] at is
    cases is
  | some s =>
    have visits : ∀ t, Relation.ReflTransGen (Step (nextSlot modules)) s t ↔
        Visits modules m q t := by
      intro t
      constructor
      · exact fun reached => ⟨s, found, reached⟩
      · rintro ⟨first, is, reached⟩
        rw [found] at is
        rwa [Option.some.inj is]
    rw [returns_iff_path found]
    constructor
    · rintro ⟨fuel, l, walked⟩ t there
      exact acyclic_of_path walked ((visits t).2 there)
    · intro no_way_back
      refine exists_path ((loaded_finite modules).subset ?_) fun t reached =>
        no_way_back t ((visits t).1 reached)
      rintro t ⟨reached, -⟩
      exact ((visits t).1 reached).loaded

/-! ## The copy of the string -/

theorem forwardCopy_eq {forward : List UInt8} :
    (∀ buffer written, forwardCopy forward = some (buffer, written) → written ≤ buffer) ↔
      forward = [] := by
  unfold forwardCopy
  constructor
  · intro fits
    by_contra full
    have := fits forward.length (forward.length + 1)
      (if_neg fun empty => full (List.length_eq_zero_iff.1 empty))
    omega
  · rintro rfl buffer written copied
    cases copied

theorem nextSlot_nil {s : Slot} (text : forwardString modules s = some []) :
    nextSlot modules s = none := by
  simp only [nextSlot, text, forwardTarget, List.dropWhile_nil]

theorem copiesFit_iff (modules : List Module) (m : ℕ) (q : Query) :
    CopiesFit modules m q ↔ Plain modules m q := by
  constructor
  · intro fit s found forward text
    exact forwardCopy_eq.1 (fit s ⟨s, found, .refl⟩ forward text)
  · rintro plain s ⟨first, found, reached⟩ forward text
    rcases Relation.ReflTransGen.cases_head reached with rfl | ⟨t, link, -⟩
    · exact forwardCopy_eq.2 (plain first found forward text)
    · obtain ⟨forward', _, _, text', -, -⟩ := nextSlot_cases link
      obtain rfl := plain first found forward' text'
      rw [Step, nextSlot_nil text'] at link
      cases link

theorem Plain.noWayBack (plain : Plain modules m q) : NoWayBack modules m q := by
  have stops : ∀ s, slotAt modules m q = some s → nextSlot modules s = none := by
    intro s found
    cases link : nextSlot modules s with
    | none => rfl
    | some t =>
      obtain ⟨forward, _, _, text, -, -⟩ := nextSlot_cases link
      obtain rfl := plain s found forward text
      rw [nextSlot_nil text] at link
      cases link
  rintro s ⟨first, found, reached⟩ cycle
  have stop := stops first found
  rcases Relation.ReflTransGen.cases_head reached with rfl | ⟨t, link, -⟩
  · obtain ⟨t, link, -⟩ := Relation.TransGen.head'_iff.1 cycle
    rw [Step, stop] at link
    cases link
  · rw [Step, stop] at link
    cases link

/-- The search for an export ends and keeps to its buffers exactly where the export is not
forwarded; it ends exactly where no entry is visited again. -/
theorem getApi_returns_iff (modules : List Module) (m : ℕ) (q : Query) :
    (Returns modules m q ∧ CopiesFit modules m q ↔ Plain modules m q) ∧
      (Returns modules m q ↔ NoWayBack modules m q) := by
  rw [copiesFit_iff, returns_iff]
  exact ⟨⟨fun both => both.2, fun plain => ⟨plain.noWayBack, plain⟩⟩, Iff.rfl⟩

theorem loop_ordinal (_ : ℕ) : 0 < 0x10000 := of_decide_eq_true rfl

theorem loop_base : 1 < 0x100000000 := of_decide_eq_true rfl

theorem loop_names : 4 * 1 ≤ 0x100000000 := of_decide_eq_true rfl

theorem loop_loaded : 0 < 0x10000000 ∧ 0x10000000 < 0x100000000 :=
  ⟨of_decide_eq_true rfl, of_decide_eq_true rfl⟩

def loopDirectory : Directory where
  base := 1
  numberOfFunctions := 1
  numberOfNames := 1
  names := fun _ => LxNames.ascii "Open"
  ordinals := fun _ => 0
  short := loop_ordinal
  word := loop_base
  fits := loop_names

def loopImage : Image where
  hinstance := 0x10000000
  virtualAddress := 0x5000
  size := 0x100
  exportDir := some loopDirectory
  paAddress := fun _ => 0x5050
  string := fun ulRVA => if ulRVA = 0x5050 then LxNames.ascii "loop.Open" else []
  loaded := loop_loaded

def loopModules : List Module := [⟨LxNames.ascii "LOOP.DLL", loopImage⟩]

theorem loopModules_link : nextSlot loopModules (0, 0) = some (0, 0) := by
  decide +kernel

theorem loopModules_not_returns : ¬ Returns loopModules 0 (.name (LxNames.ascii "Open")) := by
  rw [returns_iff]
  intro no_way_back
  have first : slotAt loopModules 0 (.name (LxNames.ascii "Open")) = some (0, 0) := by
    decide +kernel
  exact no_way_back (0, 0) ⟨_, first, .refl⟩ (.single loopModules_link)

theorem getApi_not_returns :
    ¬ ∀ (modules : List Module) (m : ℕ) (q : Query),
      Returns modules m q ∧ CopiesFit modules m q := by
  intro all
  exact loopModules_not_returns (all loopModules 0 (.name (LxNames.ascii "Open"))).1

end Odin32.ExportTable
