import Odin32.ExportForward
import Mathlib.Logic.Function.Basic

/-! # Overriding an export

`setApi`: the new address is stored as an RVA in the address table that forwarders are told from,
and only where the variable for the answer, which has no value yet, is not 0. -/

set_option autoImplicit false

namespace Odin32.ExportTable
open Odin32.Word Odin32.Walk

/-- The address table with another RVA. -/
def Image.store (img : Image) (iExpOrdinal uRVA : ℕ) : Image :=
  { img with paAddress := Function.update img.paAddress iExpOrdinal uRVA }

def Module.store (mod : Module) (iExpOrdinal uRVA : ℕ) : Module :=
  { mod with image := mod.image.store iExpOrdinal uRVA }

def store (modules : List Module) (m iExpOrdinal uRVA : ℕ) : List Module :=
  modules.modify m fun mod => mod.store iExpOrdinal uRVA

/-- The modules after a search with a new address; `uRet` is what the variable holds. -/
def override (modules : List Module) (uRet m : ℕ) (q : Query) (pfnNewProc : ℕ) : List Module :=
  match slotOf modules m q with
  | none => modules
  | some (mod, iExpOrdinal) =>
    if pfnNewProc ≠ 0 ∧ uRet ≠ 0 then
      store modules m iExpOrdinal (mod.image.getRVAFromPointer pfnNewProc)
    else modules

/-- `setApi`: the answer is that of the RVA before, with the modules as they are then. -/
def setApi (modules : List Module) (uRet fuel m : ℕ) (q : Query) (pfnNewProc : ℕ) :
    Option ℕ × List Module :=
  let modules' := override modules uRet m q pfnNewProc
  match slotOf modules m q with
  | none => (some 0, modules')
  | some (mod, iExpOrdinal) =>
    let uRVAExport := mod.image.paAddress iExpOrdinal
    if mod.image.isForwarder uRVAExport then
      match forwardTarget modules' (mod.image.string uRVAExport) with
      | none => (some 0, modules')
      | some (m, q) => (findApi modules' fuel m q, modules')
    else (some (mod.image.getPointerFromRVA uRVAExport), modules')

variable {modules : List Module} {fuel m i uRVA : ℕ} {q : Query}

/-! ## What a store changes -/

theorem store_get (m' : ℕ) :
    (store modules m i uRVA)[m']? =
      if m = m' then modules[m']?.map fun mod => mod.store i uRVA else modules[m']? := by
  rw [store, List.getElem?_modify]
  split_ifs
  · rfl
  · simp

theorem forwardTarget_store (forward : List UInt8) :
    forwardTarget (store modules m i uRVA) forward = forwardTarget modules forward := by
  have found : ∀ dllname, findModule (store modules m i uRVA) dllname =
      findModule modules dllname := by
    intro dllname
    have names : (store modules m i uRVA).map Module.szModule = modules.map Module.szModule := by
      refine List.ext_getElem? fun k => ?_
      rw [List.getElem?_map, List.getElem?_map, store_get]
      split_ifs
      · rw [Option.map_map]
        rfl
      · rfl
    have by_name : ∀ l : List Module, findModule l dllname =
        (l.map Module.szModule).findIdx? fun szModule =>
          LxNames.stricmp (moduleName dllname) szModule := by
      intro l
      rw [List.findIdx?_map]
      rfl
    rw [by_name, by_name, names]
  simp only [forwardTarget, found]

theorem slotAt_store (m' : ℕ) (q' : Query) :
    slotAt (store modules m i uRVA) m' q' = slotAt modules m' q' := by
  simp only [slotAt, slotOf, store_get]
  split_ifs
  · cases modules[m']? with
    | none => rfl
    | some mod =>
      simp only [Option.map_some, Option.map_map]
      rfl
  · rfl

/-- The address of an entry that is not forwarded. -/
def pointerAt (modules : List Module) (s : Slot) : Option ℕ :=
  modules[s.1]?.map fun mod => mod.image.getPointerFromRVA (mod.image.paAddress s.2)

theorem forwardString_store {s : Slot} (other : s ≠ (m, i)) :
    forwardString (store modules m i uRVA) s = forwardString modules s := by
  obtain ⟨m', j⟩ := s
  simp only [forwardString, store_get]
  split_ifs with same
  · subst same
    have index : j ≠ i := fun is => other (by rw [is])
    cases modules[m]? with
    | none => rfl
    | some mod =>
      simp only [Option.map_some, Module.store, Image.store, Function.update_of_ne index,
        Image.isForwarder]
      rfl
  · rfl

theorem pointerAt_store {s : Slot} (other : s ≠ (m, i)) :
    pointerAt (store modules m i uRVA) s = pointerAt modules s := by
  obtain ⟨m', j⟩ := s
  simp only [pointerAt, store_get]
  split_ifs with same
  · subst same
    have index : j ≠ i := fun is => other (by rw [is])
    rw [Option.map_map]
    simp only [Function.comp_def, Module.store, Image.store, Function.update_of_ne index,
      Image.getPointerFromRVA]
  · rfl

theorem findApi_succ (modules : List Module) (fuel m : ℕ) (q : Query) :
    findApi modules (fuel + 1) m q =
      match slotAt modules m q with
      | none => some 0
      | some s =>
        match forwardString modules s with
        | none => pointerAt modules s
        | some forward =>
          match forwardTarget modules forward with
          | none => some 0
          | some (m, q) => findApi modules fuel m q := by
  cases found : slotAt modules m q with
  | none => exact findApi_of_none (slotAt_eq_none.1 found)
  | some s =>
    obtain ⟨mod, there, rfl, is, -⟩ := slotAt_some found
    rw [findApi_of_some is, answer_eq there]
    dsimp only
    cases text : forwardString modules s with
    | none => simp [pointerAt, there]
    | some forward => rfl

/-! ## Searches beside the entry and through it -/

theorem Visits.first {s : Slot} (found : slotAt modules m q = some s) : Visits modules m q s :=
  ⟨s, found, .refl⟩

theorem Visits.forward {s t : Slot} {forward : List UInt8} {m' : ℕ} {q' : Query}
    (found : slotAt modules m q = some s) (text : forwardString modules s = some forward)
    (target : forwardTarget modules forward = some (m', q')) (visits : Visits modules m' q' t) :
    Visits modules m q t := by
  obtain ⟨next, onward, reached⟩ := visits
  refine ⟨s, found, .head ?_ reached⟩
  simp only [Step, nextSlot, text, target, onward]

theorem findApi_store {m' : ℕ} {q' : Query} (away : ¬ Visits modules m' q' (m, i)) :
    findApi (store modules m i uRVA) fuel m' q' = findApi modules fuel m' q' := by
  induction fuel generalizing m' q' with
  | zero => rfl
  | succ fuel ih =>
    rw [findApi_succ, findApi_succ, slotAt_store]
    cases found : slotAt modules m' q' with
    | none => rfl
    | some s =>
      have other : s ≠ (m, i) := fun is => away (is ▸ Visits.first found)
      simp only [forwardString_store other, pointerAt_store other, forwardTarget_store]
      cases text : forwardString modules s with
      | none => rfl
      | some forward =>
        cases target : forwardTarget modules forward with
        | none => simp only [target]
        | some r =>
          simp only [target]
          exact ih fun visits => away (Visits.forward found text target visits)

theorem findApi_address {p : ℕ} (found : findApi modules fuel m q = some p) (pos : p ≠ 0) :
    ∃ m' q' s, slotAt modules m' q' = some s ∧ forwardString modules s = none ∧
      pointerAt modules s = some p := by
  induction fuel generalizing m q with
  | zero => cases found
  | succ fuel ih =>
    rw [findApi_succ] at found
    cases first : slotAt modules m q with
    | none =>
      rw [first] at found
      exact absurd (Option.some.inj found).symm pos
    | some s =>
      rw [first] at found
      dsimp only at found
      cases text : forwardString modules s with
      | none =>
        rw [text] at found
        exact ⟨m, q, s, first, text, found⟩
      | some forward =>
        rw [text] at found
        dsimp only at found
        cases target : forwardTarget modules forward with
        | none =>
          rw [target] at found
          exact absurd (Option.some.inj found).symm pos
        | some r =>
          rw [target] at found
          exact ih found

theorem resolves_of_plain {s : Slot} {p : ℕ} (found : slotAt modules m q = some s)
    (plain : forwardString modules s = none) (pointer : pointerAt modules s = some p) :
    Resolves modules m q p := by
  refine ⟨1, ?_⟩
  rw [findApi_succ, found]
  simp only [plain, pointer]

theorem Resolves.forward {s : Slot} {forward : List UInt8} {m' p : ℕ} {q' : Query}
    (found : slotAt modules m q = some s) (text : forwardString modules s = some forward)
    (target : forwardTarget modules forward = some (m', q')) (onward : Resolves modules m' q' p) :
    Resolves modules m q p := by
  obtain ⟨fuel, is⟩ := onward
  refine ⟨fuel + 1, ?_⟩
  rw [findApi_succ, found]
  simp only [text, target, is]

theorem resolves_through {s : Slot} {p : ℕ}
    (plain : forwardString (store modules m i uRVA) (m, i) = none)
    (pointer : pointerAt (store modules m i uRVA) (m, i) = some p)
    (reached : Relation.ReflTransGen (Step (nextSlot modules)) s (m, i)) :
    ∀ m' q', slotAt modules m' q' = some s → Resolves (store modules m i uRVA) m' q' p := by
  induction reached using Relation.ReflTransGen.head_induction_on with
  | refl =>
    intro m' q' found
    exact resolves_of_plain ((slotAt_store m' q').trans found) plain pointer
  | @head s t link _ ih =>
    intro m' q' found
    by_cases same : s = (m, i)
    · subst same
      exact resolves_of_plain ((slotAt_store m' q').trans found) plain pointer
    · obtain ⟨forward, m'', q'', text, target, onward⟩ := nextSlot_cases link
      exact Resolves.forward ((slotAt_store m' q').trans found)
        ((forwardString_store same).trans text) ((forwardTarget_store forward).trans target)
        (ih m'' q'' onward)

/-! ## The law of overrides -/

/-- The search finds an entry of the address table that is not empty. -/
structure Existing (img : Image) (ped : Directory) (q : Query) (i : ℕ) : Prop where
  found : img.findIndex q = some i
  inside : i < ped.numberOfFunctions
  full : img.paAddress i ≠ 0

/-- What `setApi` is to do: it answers the address from before, all searches for the export have
the new address, no other export has changed, and nothing has where there is no such export. -/
structure OverrideLaw (modules : List Module) (m : ℕ) (img : Image) (ped : Directory) (q : Query)
    (uRet pfnNewProc : ℕ) : Prop where
  before : ∀ i v, Existing img ped q i → Resolves modules m q v →
    ∃ fuel, (setApi modules uRet fuel m q pfnNewProc).1 = some v
  new : ∀ i, Existing img ped q i → ∀ q', img.findIndex q' = some i →
    Resolves (override modules uRet m q pfnNewProc) m q' pfnNewProc
  others : ∀ i, Existing img ped q i → ∀ q', img.findIndex q' ≠ some i →
    ∀ v, Resolves (override modules uRet m q pfnNewProc) m q' v ↔ Resolves modules m q' v
  missing : (∀ i, ¬ Existing img ped q i) → override modules uRet m q pfnNewProc = modules

/-- The variable is not 0, the new address is not one inside of the export directory, and no other
export is forwarded to this one; or nothing else is stored for an export that does not exist. -/
structure Installs (modules : List Module) (m : ℕ) (img : Image) (ped : Directory) (q : Query)
    (uRet pfnNewProc : ℕ) : Prop where
  stored : ∀ i, Existing img ped q i → uRet ≠ 0
  plain : ∀ i, Existing img ped q i →
    img.isForwarder (img.getRVAFromPointer pfnNewProc) = false
  apart : ∀ i, Existing img ped q i → ∀ q' j, img.findIndex q' = some j → j ≠ i →
    ¬ Relation.ReflTransGen (Step (nextSlot modules)) (m, j) (m, i)
  missing : (∀ i, ¬ Existing img ped q i) → ∀ i, img.findIndex q = some i →
    uRet = 0 ∨ img.getRVAFromPointer pfnNewProc = img.paAddress i

section

variable {mod : Module} {ped : Directory} {uRet pfnNewProc : ℕ} (there : modules[m]? = some mod)
include there

theorem slotOf_findIndex (found : mod.image.findIndex q = some i) :
    slotOf modules m q = some (mod, i) := by
  rw [slotOf_eq there, found]
  rfl

theorem slotAt_iff {q' : Query} {s : Slot} : slotAt modules m q' = some s ↔
    s.1 = m ∧ mod.image.findIndex q' = some s.2 := by
  obtain ⟨m', j⟩ := s
  rw [slotAt, slotOf_eq there, Option.map_map, Option.map_eq_some_iff]
  simp only [Function.comp_def, Prod.mk.injEq]
  constructor
  · rintro ⟨j, found, rfl, rfl⟩
    exact ⟨rfl, found⟩
  · rintro ⟨rfl, found⟩
    exact ⟨j, found, rfl, rfl⟩

theorem override_found (found : mod.image.findIndex q = some i) (pos : pfnNewProc ≠ 0) :
    override modules uRet m q pfnNewProc =
      if uRet ≠ 0 then store modules m i (mod.image.getRVAFromPointer pfnNewProc)
      else modules := by
  simp only [override, slotOf_findIndex there found, ne_eq, pos, not_false_eq_true, true_and]

theorem override_missing (none : mod.image.findIndex q = none) :
    override modules uRet m q pfnNewProc = modules := by
  rw [override, slotOf_eq there, none]
  rfl

theorem store_there : (store modules m i uRVA)[m]? = some (mod.store i uRVA) := by
  rw [store_get, if_pos rfl, there]
  rfl

theorem forwardString_stored :
    forwardString (store modules m i uRVA) (m, i) =
      if mod.image.isForwarder uRVA then some (mod.image.string uRVA) else none := by
  rw [forwardString_eq (store_there there)]
  simp only [Module.store, Image.store, Function.update_self, Image.isForwarder]
  rfl

theorem pointerAt_stored (word : pfnNewProc < 0x100000000) :
    pointerAt (store modules m i (mod.image.getRVAFromPointer pfnNewProc)) (m, i) =
      some pfnNewProc := by
  rw [pointerAt, store_there there]
  have loaded := mod.image.loaded
  simp only [Option.map_some, Module.store, Image.store, Function.update_self,
    Image.getPointerFromRVA, Image.getRVAFromPointer, add32, sub32, u32, Option.some.injEq]
  omega

theorem store_same : store modules m i (mod.image.paAddress i) = modules := by
  refine List.ext_getElem? fun k => ?_
  rw [store_get]
  split_ifs with same
  · subst same
    rw [there]
    simp [Module.store, Image.store, Function.update_eq_self]
  · rfl

theorem setApi_before {v : ℕ} (found : mod.image.findIndex q = some i)
    (resolves : Resolves modules m q v) (pos : pfnNewProc ≠ 0) :
    ∃ fuel, (setApi modules uRet fuel m q pfnNewProc).1 = some v := by
  have first := (slotAt_iff there (s := (m, i))).2 ⟨rfl, found⟩
  have no_way_back := (returns_iff modules m q).1 (by
    obtain ⟨fuel, is⟩ := resolves
    exact ⟨fuel, v, is⟩)
  obtain ⟨fuel, is⟩ := resolves
  cases fuel with
  | zero => cases is
  | succ fuel =>
    refine ⟨fuel, ?_⟩
    rw [findApi_of_some (slotOf_findIndex there found), answer] at is
    simp only [setApi, slotOf_findIndex there found]
    by_cases forwards : mod.image.isForwarder (mod.image.paAddress i) = true
    · rw [if_pos forwards] at is ⊢
      have text : forwardString modules (m, i) =
          some (mod.image.string (mod.image.paAddress i)) := by
        rw [forwardString_eq there, if_pos forwards]
      have same : forwardTarget (override modules uRet m q pfnNewProc)
          (mod.image.string (mod.image.paAddress i)) =
            forwardTarget modules (mod.image.string (mod.image.paAddress i)) := by
        rw [override_found there found pos]
        split_ifs
        · exact forwardTarget_store _
        · rfl
      rw [same]
      cases target : forwardTarget modules (mod.image.string (mod.image.paAddress i)) with
      | none =>
        rw [target] at is
        exact is
      | some r =>
        rw [target] at is
        dsimp only at is ⊢
        -- the walk does not come back to the entry that is written
        have away : ¬ Visits modules r.1 r.2 (m, i) := by
          rintro ⟨t, onward, reached⟩
          refine no_way_back (m, i) (Visits.first first) (Relation.TransGen.head' ?_ reached)
          simp only [Step, nextSlot, text, target, onward]
        rw [override_found there found pos]
        split_ifs
        · rw [findApi_store away]
          exact is
        · exact is
    · rw [if_neg forwards] at is ⊢
      exact is

theorem Installs.entry (installs : Installs modules m mod.image ped q uRet pfnNewProc)
    (existing : Existing mod.image ped q i) (pos : pfnNewProc ≠ 0) :
    override modules uRet m q pfnNewProc =
        store modules m i (mod.image.getRVAFromPointer pfnNewProc) ∧
      forwardString (store modules m i (mod.image.getRVAFromPointer pfnNewProc)) (m, i) = none := by
  rw [override_found there existing.found pos, if_pos (installs.stored i existing),
    forwardString_stored there, installs.plain i existing]
  exact ⟨rfl, rfl⟩

theorem law_of_installs (installs : Installs modules m mod.image ped q uRet pfnNewProc)
    (pos : pfnNewProc ≠ 0) (word : pfnNewProc < 0x100000000) :
    OverrideLaw modules m mod.image ped q uRet pfnNewProc := by
  refine ⟨fun i v existing resolves => setApi_before there existing.found resolves pos,
    fun i existing q' found => ?_, fun i existing q' other v => ?_, fun none => ?_⟩
  · obtain ⟨is, plain⟩ := installs.entry there existing pos
    rw [is]
    exact resolves_through plain (pointerAt_stored there word) .refl m q'
      ((slotAt_iff there).2 ⟨rfl, found⟩)
  · obtain ⟨is, -⟩ := installs.entry there existing pos
    have away : ¬ Visits modules m q' (m, i) := by
      rintro ⟨⟨m', j⟩, first, reached⟩
      obtain ⟨rfl, found⟩ := (slotAt_iff there).1 first
      exact installs.apart i existing q' j found (fun same => other (same ▸ found)) reached
    rw [is]
    simp only [Resolves, findApi_store away]
  · cases found : mod.image.findIndex q with
    | none => exact override_missing there found
    | some i =>
      rw [override_found there found pos]
      rcases installs.missing none i found with zero | same
      · rw [if_neg (by simpa using zero)]
      · rw [same, store_same there, ite_self]

theorem installs_of_law (law : OverrideLaw modules m mod.image ped q uRet pfnNewProc)
    (pos : pfnNewProc ≠ 0) (word : pfnNewProc < 0x100000000)
    (fresh : ∀ m' q', ¬ Resolves modules m' q' pfnNewProc) :
    Installs modules m mod.image ped q uRet pfnNewProc := by
  have stored : ∀ i, Existing mod.image ped q i → uRet ≠ 0 := by
    intro i existing zero
    have new := law.new i existing q existing.found
    rw [override_found there existing.found pos, if_neg (not_not.2 zero)] at new
    exact fresh m q new
  have plain : ∀ i, Existing mod.image ped q i →
      mod.image.isForwarder (mod.image.getRVAFromPointer pfnNewProc) = false := by
    intro i existing
    by_contra forwards
    rw [Bool.not_eq_false] at forwards
    obtain ⟨fuel, is⟩ := law.new i existing q existing.found
    rw [override_found there existing.found pos, if_pos (stored i existing)] at is
    obtain ⟨m', q', s, found, text, pointer⟩ := findApi_address is pos
    -- the entry with the address is another one, and was the same before
    have other : s ≠ (m, i) := by
      rintro rfl
      rw [forwardString_stored there, if_pos forwards] at text
      cases text
    rw [slotAt_store] at found
    rw [forwardString_store other] at text
    rw [pointerAt_store other] at pointer
    exact fresh m' q' (resolves_of_plain found text pointer)
  refine ⟨stored, plain, fun i existing q' j found other reached => ?_, fun none i found => ?_⟩
  · have is : override modules uRet m q pfnNewProc =
        store modules m i (mod.image.getRVAFromPointer pfnNewProc) := by
      rw [override_found there existing.found pos, if_pos (stored i existing)]
    have entry : forwardString (store modules m i (mod.image.getRVAFromPointer pfnNewProc))
        (m, i) = none := by
      rw [forwardString_stored there, plain i existing]
      rfl
    have through := resolves_through entry (pointerAt_stored there word) reached m q'
      ((slotAt_iff there).2 ⟨rfl, found⟩)
    have changed := law.others i existing q' (fun is => other (Option.some.inj (found ▸ is)))
      pfnNewProc
    rw [is] at changed
    exact fresh m q' (changed.1 through)
  · by_contra both
    obtain ⟨nonzero, different⟩ := not_or.1 both
    have unchanged := law.missing none
    rw [override_found there found pos, if_pos nonzero] at unchanged
    have entry : (store modules m i (mod.image.getRVAFromPointer pfnNewProc))[m]? =
        some (mod.store i (mod.image.getRVAFromPointer pfnNewProc)) := store_there there
    rw [unchanged, there] at entry
    have table := congrArg (fun mod => mod.image.paAddress i) (Option.some.inj entry)
    simp only [Module.store, Image.store, Function.update_self] at table
    exact different table.symm

end

/-- `setApi` keeps the law exactly where its address is installed, but for addresses that an
export had before. -/
theorem setApi_law (modules : List Module) (m : ℕ) (mod : Module) (ped : Directory) (q : Query)
    (uRet pfnNewProc : ℕ) (there : modules[m]? = some mod) (pos : pfnNewProc ≠ 0)
    (word : pfnNewProc < 0x100000000) :
    (Installs modules m mod.image ped q uRet pfnNewProc →
      OverrideLaw modules m mod.image ped q uRet pfnNewProc) ∧
    (OverrideLaw modules m mod.image ped q uRet pfnNewProc →
      (∀ m' q', ¬ Resolves modules m' q' pfnNewProc) →
        Installs modules m mod.image ped q uRet pfnNewProc) :=
  ⟨fun installs => law_of_installs there installs pos word,
    fun law fresh => installs_of_law there law pos word fresh⟩

theorem gapModules_there : gapModules[0]? = some ⟨LxNames.ascii "GAP.DLL", gapImage⟩ := rfl

theorem gapModules_plain (j : ℕ) : nextSlot gapModules (0, j) = none := by
  have text : forwardString gapModules (0, j) = none := by
    rw [forwardString_eq gapModules_there, if_neg]
    simp only [gapImage, Image.isForwarder]
    split_ifs <;> decide
  simp only [nextSlot, text]

theorem gapModules_open : slotAt gapModules 0 (.name (LxNames.ascii "Open")) = some (0, 0) := by
  decide +kernel

/-- The variable is 0: nothing is stored. -/
theorem setApi_breaks_law :
    ¬ ∀ (modules : List Module) (m : ℕ) (mod : Module) (ped : Directory) (q : Query)
      (uRet pfnNewProc : ℕ), modules[m]? = some mod → mod.image.exportDir = some ped →
        pfnNewProc ≠ 0 → pfnNewProc < 0x100000000 →
        OverrideLaw modules m mod.image ped q uRet pfnNewProc := by
  intro all
  have law := all gapModules 0 ⟨LxNames.ascii "GAP.DLL", gapImage⟩ gapDirectory
    (.name (LxNames.ascii "Open")) 0 0x20000000 rfl rfl (by decide) (by decide)
  have found : gapImage.findIndex (.name (LxNames.ascii "Open")) = some 0 := by decide +kernel
  obtain ⟨fuel, is⟩ := law.new 0 ⟨found, by decide, by decide⟩ _ found
  have same : override gapModules 0 0 (.name (LxNames.ascii "Open")) 0x20000000 = gapModules :=
    override_found gapModules_there found (by decide)
  rw [same] at is
  cases fuel with
  | zero => cases is
  | succ fuel =>
    have plain : forwardString gapModules (0, 0) = none := by decide +kernel
    rw [findApi_succ, gapModules_open] at is
    simp only [plain] at is
    exact absurd is (by decide +kernel)

theorem setApi_open_law :
    OverrideLaw gapModules 0 gapImage gapDirectory (.name (LxNames.ascii "Open")) 1
      0x20000000 := by
  have found : gapImage.findIndex (.name (LxNames.ascii "Open")) = some 0 := by decide +kernel
  refine (setApi_law gapModules 0 ⟨LxNames.ascii "GAP.DLL", gapImage⟩ gapDirectory _ 1 0x20000000
    rfl (by decide) (by decide)).1 ⟨?_, ?_, ?_, ?_⟩
  · exact fun _ _ => by decide
  · exact fun _ _ => by decide +kernel
  · intro i _ q' j _ other reached
    rcases Relation.ReflTransGen.cases_head reached with same | ⟨t, link, -⟩
    · exact other (Prod.mk.inj same).2
    · rw [Step, gapModules_plain] at link
      cases link
  · intro none
    exact absurd ⟨found, by decide, by decide⟩ (none 0)

end Odin32.ExportTable
