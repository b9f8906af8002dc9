import Odin32.LoadLibraryQuiet

/-! # The TLS indices of loads that fail

A load that is given up in its imports keeps its index, and one whose entry point refuses gives
it back. -/

set_option autoImplicit false

namespace Odin32.LoadLibrary

open DllList ImageTls Tls

/-- The indices after an image was given up. -/
def leak (pdb : Pdb) (file : File) : Pdb :=
  if file.tlsAddress.isSome then (tlsAlloc pdb newTeb).2.1 else pdb

/-- The indices after the entry point of an image refused. -/
def giveBack (pdb : Pdb) (file : File) : Pdb :=
  if file.tlsAddress.isSome then
    (tlsFree (tlsAlloc pdb newTeb).2.1 newTeb (tlsAlloc pdb newTeb).1).2.1
  else pdb

def tlsAfter (leaks : List File) (leaf : Option File) (pdb : Pdb) : Pdb :=
  match leaf with
  | none => leaks.foldl leak pdb
  | some file => giveBack (leaks.foldl leak pdb) file

theorem leak_cases (pdb : Pdb) (file : File) :
    leak pdb file = pdb ∧
      (file.tlsAddress.isSome → ∀ i < tlsMinimumAvailable, pdb.allocated i = true) ∨
    file.tlsAddress.isSome ∧ ∃ index < tlsMinimumAvailable, pdb.allocated index = false ∧
      ∀ j, (leak pdb file).allocated j = (pdb.allocated j || decide (j = index)) := by
  unfold leak
  by_cases tls : file.tlsAddress.isSome
  · rw [if_pos tls]
    rcases tlsAlloc_cases pdb newTeb with ⟨full, result⟩ | ⟨index, below, free, pdb', result, after⟩
    · rw [result]
      exact Or.inl ⟨rfl, fun _ => full⟩
    · rw [result]
      exact Or.inr ⟨tls, index, below, free, after⟩
  · rw [if_neg tls]
    exact Or.inl ⟨rfl, fun some_ => absurd some_ tls⟩

theorem foldl_leak_mono (leaks : List File) {pdb : Pdb} {j : ℕ} (set : pdb.allocated j = true) :
    (leaks.foldl leak pdb).allocated j = true := by
  induction leaks generalizing pdb with
  | nil => exact set
  | cons file leaks ih =>
    refine ih ?_
    rcases leak_cases pdb file with ⟨same, _⟩ | ⟨_, index, _, _, after⟩
    · rwa [same]
    · rw [after, set, Bool.true_or]

theorem foldl_leak_cases (leaks : List File) (pdb : Pdb) :
    leaks.foldl leak pdb = pdb ∧ (∀ file ∈ leaks, file.tlsAddress.isSome →
      ∀ i < tlsMinimumAvailable, pdb.allocated i = true) ∨
    (∃ index < tlsMinimumAvailable, pdb.allocated index = false ∧
      (leaks.foldl leak pdb).allocated index = true) ∧
      ∃ file ∈ leaks, file.tlsAddress.isSome := by
  induction leaks with
  | nil => exact Or.inl ⟨rfl, nofun⟩
  | cons file leaks ih =>
    rw [List.foldl_cons]
    rcases leak_cases pdb file with ⟨same, full⟩ | ⟨tls, index, below, free, after⟩
    · rw [same]
      rcases ih with ⟨same', full'⟩ | ⟨leaked, other, inside, tls⟩
      · left
        refine ⟨same', fun other inside => ?_⟩
        rcases List.mem_cons.mp inside with rfl | inside
        · exact full
        · exact full' other inside
      · exact Or.inr ⟨leaked, other, List.mem_cons_of_mem _ inside, tls⟩
    · right
      refine ⟨⟨index, below, free, foldl_leak_mono leaks ?_⟩, file, List.mem_cons_self, tls⟩
      rw [after]
      simp

theorem giveBack_cases (pdb : Pdb) (file : File) :
    (∀ j, (giveBack pdb file).allocated j = pdb.allocated j) ∧
      (file.tlsAddress.isSome → (tlsAlloc pdb newTeb).1 ≠ 32) ∨
    file.tlsAddress.isSome ∧ (tlsAlloc pdb newTeb).1 = 32 ∧ pdb.allocated 32 = false ∧
      (giveBack pdb file).allocated 32 = true := by
  unfold giveBack
  by_cases tls : file.tlsAddress.isSome
  swap
  · rw [if_neg tls]
    exact Or.inl ⟨fun _ => rfl, fun some_ => absurd some_ tls⟩
  rw [if_pos tls]
  rcases tlsAlloc_cases pdb newTeb with ⟨_, result⟩ | ⟨index, below, free, pdb', result, after⟩
  · rw [result]
    left
    refine ⟨fun j => ?_, fun _ => show tlsOutOfIndexes ≠ 32 by decide⟩
    have out : tlsMinimumAvailable ≤ tlsOutOfIndexes := by decide
    simp only [tlsFree, if_pos out]
  · rw [result]
    obtain ⟨-, freed, -⟩ := tlsFree_spec pdb' newTeb index
    by_cases edge : index = 32
    · subst edge
      refine Or.inr ⟨tls, rfl, free, ?_⟩
      rw [freed, after]
      simp [freedIndex]
    · left
      refine ⟨fun j => ?_, fun _ => edge⟩
      rw [freed, after, show freedIndex index = index from if_neg edge]
      by_cases own : j = index
      · rw [own, free]
        simp
      · simp [own]

/-- The indices are as they were exactly if none was free for an image that is given up, and the
one given back was not the first of the second word. -/
theorem tlsAfter_restored_iff (leaks : List File) (leaf : Option File) (pdb : Pdb) :
    (∀ j, (tlsAfter leaks leaf pdb).allocated j = pdb.allocated j) ↔
    (∀ file ∈ leaks, file.tlsAddress.isSome → ∀ i < tlsMinimumAvailable, pdb.allocated i = true) ∧
      ∀ file, leaf = some file → file.tlsAddress.isSome → (tlsAlloc pdb newTeb).1 ≠ 32 := by
  rcases foldl_leak_cases leaks pdb with ⟨same, full⟩ | ⟨⟨index, below, free, set⟩, file, inside, tls⟩
  · rcases leaf with _ | file
    · simp only [tlsAfter, same]
      exact ⟨fun _ => ⟨full, nofun⟩, fun _ => by simp⟩
    · simp only [tlsAfter, same]
      rcases giveBack_cases pdb file with ⟨back, other⟩ | ⟨tls, edge, free, stays⟩
      · refine ⟨fun _ => ⟨full, ?_⟩, fun _ => back⟩
        rintro file ⟨⟩
        exact other
      · constructor
        · intro back
          rw [back, free] at stays
          cases stays
        · exact fun ⟨_, other⟩ => absurd edge (other file rfl tls)
  · have wrong : ¬ ∀ j, (tlsAfter leaks leaf pdb).allocated j = pdb.allocated j := by
      intro back
      rcases leaf with _ | file
      · have there := back index
        simp only [tlsAfter] at there
        rw [there, free] at set
        cases set
      · have there := back index
        simp only [tlsAfter] at there
        rcases giveBack_cases (leaks.foldl leak pdb) file with ⟨same, _⟩ | ⟨_, _, free', stays⟩
        · rw [same, free] at there
          rw [there] at set
          cases set
        · have second := back 32
          simp only [tlsAfter] at second
          rw [stays] at second
          -- the index that is left was free before
          have before := foldl_leak_mono leaks second.symm
          rw [free'] at before
          cases before
    refine ⟨fun back => absurd back wrong, fun ⟨full, _⟩ => ?_⟩
    rw [full file inside tls index below] at free
    cases free

/-! ## The calls -/

theorem tlsAlloc_teb (pdb : Pdb) (teb teb' : Teb) :
    (tlsAlloc pdb teb).1 = (tlsAlloc pdb teb').1 ∧
      (tlsAlloc pdb teb).2.1 = (tlsAlloc pdb teb').2.1 := by
  unfold tlsAlloc
  split
  · exact ⟨rfl, rfl⟩
  · dsimp only
    split <;> exact ⟨rfl, rfl⟩

theorem tlsFree_teb (pdb : Pdb) (teb teb' : Teb) (index : ℕ) :
    (tlsFree pdb teb index).2.1 = (tlsFree pdb teb' index).2.1 := by
  unfold tlsFree
  split
  · rfl
  · dsimp only
    split <;> split <;> rfl

theorem tlsAttachThread_pdb (p : Process) (t : ℕ) (memory : ℕ → Bool) (image : Image) :
    (p.tlsAttachThread t memory image).pdb = p.pdb := by
  unfold Process.tlsAttachThread
  split
  · rfl
  · split
    · rfl
    · split <;> rfl

theorem tlsDetachThread_pdb (p : Process) (t : ℕ) (image : Image) :
    (p.tlsDetachThread t image).pdb = p.pdb := by
  unfold Process.tlsDetachThread
  split
  · rfl
  · dsimp only
    split <;> rfl

theorem tlsInit_spec (env : Env) (d : Dll) (file : File) (s : System) :
    (tlsInit env d file {} s).process.pdb = leak s.process.pdb file ∧
    ((tlsInit env d file {} s).image d).tlsAddress = file.tlsAddress ∧
    ((tlsInit env d file {} s).image d).dllEntryPoint = (file.isDll && file.entryPoint) ∧
    ((tlsInit env d file {} s).image d).fSkipEntryCalls = (s.image d).fSkipEntryCalls ∧
    (file.tlsAddress.isSome →
      ((tlsInit env d file {} s).image d).tlsIndex = (tlsAlloc s.process.pdb newTeb).1) := by
  unfold tlsInit leak Process.tlsAlloc
  obtain ⟨index, pdb⟩ := tlsAlloc_teb s.process.pdb (s.process.teb env.thread) newTeb
  rcases tls : file.tlsAddress with _ | template
  · simp [tlsAttachThread_pdb]
  · simp only [Bool.false_eq_true, if_false, Option.isSome_some, if_true, tlsAttachThread_pdb,
      Function.update_self, true_and]
    exact ⟨pdb, fun _ => index⟩

theorem destroy_pdb_error (p : Process) (t : ℕ) (image : Image) (error : image.errorState ≠ 0) :
    (p.destroy t image).pdb = p.pdb := by
  unfold Process.destroy
  rw [if_neg error]

theorem destroy_pdb (p : Process) (t : ℕ) (image : Image) (fine : image.errorState = 0)
    (calls : image.fSkipEntryCalls = false) (entry : image.dllEntryPoint = true) :
    (p.destroy t image).pdb = if image.tlsAddress.isSome then
      (tlsFree p.pdb newTeb image.tlsIndex).2.1 else p.pdb := by
  unfold Process.destroy Process.detachProcess Process.tlsDelete
  simp only [fine, calls, entry, if_true, Bool.true_eq_false, Bool.false_eq_true, if_false]
  rcases tls : image.tlsAddress with _ | template
  · exact tlsDetachThread_pdb p t image
  · simp only [Option.isSome_some, if_true]
    split
    · next out =>
      rw [tlsDetachThread_pdb]
      unfold tlsFree
      rw [if_pos out]
    · next inside =>
      rw [tlsFree_teb _ newTeb ((p.tlsDetachThread t image).teb t)]
      simp only [tlsDetachThread_pdb]

end Odin32.LoadLibrary
