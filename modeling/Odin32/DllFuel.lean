import Odin32.DllList

/-! # Fuel

More fuel changes no answer, so two answers with different fuel are the same. -/

set_option autoImplicit false

namespace Odin32.DllList

open OrderedList

theorem bind_ok {α β : Type} {first : Except Fault α} {next : α → Except Fault β} {result : β} :
    (first >>= next) = .ok result ↔ ∃ a, first = .ok a ∧ next a = .ok result := by
  cases first with
  | error fault => simp [bind, Except.bind]
  | ok a => simp [bind, Except.bind]

theorem foldlM_mono {f g : Loader → Dll → Except Fault Loader}
    (more : ∀ s d s', f s d = .ok s' → g s d = .ok s') {l : List Dll} {s s' : Loader}
    (folded : l.foldlM f s = .ok s') : l.foldlM g s = .ok s' := by
  induction l generalizing s with
  | nil => exact folded
  | cons d l ih =>
    rw [List.foldlM_cons, bind_ok] at folded ⊢
    obtain ⟨t, called, rest⟩ := folded
    exact ⟨t, more s d t called, ih rest⟩

theorem setUnloadOrder_mono {fuel more : ℕ} (le : fuel ≤ more) {parent : Option Dll} {d : Dll}
    {s s' : Loader} (called : setUnloadOrder fuel parent d s = .ok s') :
    setUnloadOrder more parent d s = .ok s' := by
  induction fuel generalizing more parent d s s' with
  | zero => cases called
  | succ fuel ih =>
    obtain ⟨more, rfl⟩ := Nat.exists_eq_succ_of_ne_zero (show more ≠ 0 by omega)
    unfold setUnloadOrder at called ⊢
    rw [bind_ok] at called ⊢
    obtain ⟨object, here, called⟩ := called
    refine ⟨object, here, ?_⟩
    rw [bind_ok] at called ⊢
    obtain ⟨placed, place_, called⟩ := called
    refine ⟨placed, place_, ?_⟩
    rcases placed with _ | ⟨parentdll, list⟩
    · exact called
    · refine foldlM_mono ?_ called
      intro t dll t' inner
      split at inner
      · next same =>
        rw [if_pos same]
        exact inner
      · next other =>
        rw [if_neg other]
        exact ih (by omega) inner

theorem release_mono {fuel more : ℕ} (le : fuel ≤ more) {d : Dll} {s s' : Loader}
    (called : release fuel d s = .ok s') : release more d s = .ok s' := by
  induction fuel generalizing more d s s' with
  | zero => cases called
  | succ fuel ih =>
    obtain ⟨more, rfl⟩ := Nat.exists_eq_succ_of_ne_zero (show more ≠ 0 by omega)
    unfold release at called ⊢
    rw [bind_ok] at called ⊢
    obtain ⟨object, here, called⟩ := called
    refine ⟨object, here, ?_⟩
    simp only at called ⊢
    split at called
    · next dead =>
      rw [if_pos dead]
      rw [bind_ok] at called ⊢
      obtain ⟨t, removed, called⟩ := called
      refine ⟨t, removed, ?_⟩
      rw [bind_ok] at called ⊢
      obtain ⟨u, gone, called⟩ := called
      exact ⟨u, gone, foldlM_mono (fun _ _ _ inner => ih (by omega) inner) called⟩
    · next alive =>
      rw [if_neg alive]
      exact called

theorem deleteAll_mono {fuel more : ℕ} (le : fuel ≤ more) {s s' : Loader}
    (called : deleteAll fuel s = .ok s') : deleteAll more s = .ok s' := by
  induction fuel generalizing more s s' with
  | zero => cases called
  | succ fuel ih =>
    obtain ⟨more, rfl⟩ := Nat.exists_eq_succ_of_ne_zero (show more ≠ 0 by omega)
    unfold deleteAll at called ⊢
    split at called
    · exact called
    · rw [bind_ok] at called ⊢
      obtain ⟨t, released, called⟩ := called
      exact ⟨t, release_mono (by omega) released, ih (by omega) called⟩

theorem releaseDynamic_mono {fuel more : ℕ} (le : fuel ≤ more) {dll : Dll} {dynref : ℕ}
    {s s' : Loader} (called : releaseDynamic fuel dll dynref s = .ok s') :
    releaseDynamic more dll dynref s = .ok s' := by
  induction dynref generalizing s with
  | zero => exact called
  | succ dynref ih =>
    unfold releaseDynamic at called ⊢
    rw [bind_ok] at called ⊢
    obtain ⟨t, dec, called⟩ := called
    refine ⟨t, dec, ?_⟩
    rw [bind_ok] at called ⊢
    obtain ⟨u, released, called⟩ := called
    exact ⟨u, release_mono le released, ih called⟩

theorem deleteDynamicLibs_mono {fuel more : ℕ} (le : fuel ≤ more) {s s' : Loader}
    (called : deleteDynamicLibs fuel s = .ok s') : deleteDynamicLibs more s = .ok s' := by
  induction fuel generalizing more s s' with
  | zero => cases called
  | succ fuel ih =>
    obtain ⟨more, rfl⟩ := Nat.exists_eq_succ_of_ne_zero (show more ≠ 0 by omega)
    unfold deleteDynamicLibs at called ⊢
    split at called
    · exact called
    · rw [bind_ok] at called ⊢
      obtain ⟨object, here, called⟩ := called
      refine ⟨object, here, ?_⟩
      rw [bind_ok] at called ⊢
      obtain ⟨t, released, called⟩ := called
      exact ⟨t, releaseDynamic_mono (by omega) released, ih (by omega) called⟩

theorem deleteExe_mono {fuel more : ℕ} (le : fuel ≤ more) {s s' : Loader}
    (called : deleteExe fuel s = .ok s') : deleteExe more s = .ok s' := by
  unfold deleteExe at called ⊢
  rw [bind_ok] at called ⊢
  obtain ⟨t, libs, called⟩ := called
  refine ⟨t, deleteDynamicLibs_mono le libs, ?_⟩
  rw [bind_ok] at called ⊢
  obtain ⟨u, released, called⟩ := called
  exact ⟨u, foldlM_mono (fun _ _ _ inner => release_mono le inner) released,
    deleteAll_mono le called⟩

theorem bindImport_mono {fuel more : ℕ} (le : fuel ≤ more) {p d : Dll} {s s' : Loader}
    (called : bindImport fuel p d s = .ok s') : bindImport more p d s = .ok s' := by
  unfold bindImport at called ⊢
  rw [bind_ok] at called ⊢
  obtain ⟨t, added, called⟩ := called
  exact ⟨t, added, setUnloadOrder_mono le called⟩

theorem construct_mono {fuel more : ℕ} (le : fuel ≤ more) {origin : Origin} {skip : Bool}
    {parent : Option Dll} {s s' : Loader} (called : construct fuel origin skip parent s = .ok s') :
    construct more origin skip parent s = .ok s' := by
  unfold construct at called ⊢
  simp only at called ⊢
  rw [bind_ok] at called ⊢
  obtain ⟨t, placed, called⟩ := called
  exact ⟨t, setUnloadOrder_mono le placed, called⟩

theorem finish_mono {fuel more : ℕ} (le : fuel ≤ more) {d : Dll} {origin : Origin}
    {loading : List Load} {s s' : Loader} (called : finish fuel d origin loading s = .ok s') :
    finish more d origin loading s = .ok s' := by
  unfold finish at called ⊢
  split at called
  · exact bindImport_mono le called
  · exact setUnloadOrder_mono le called
  · exact called

theorem step_mono {fuel more : ℕ} (le : fuel ≤ more) {s s' : Loader} {op : Op}
    (called : step fuel s op = .ok s') : step more s op = .ok s' := by
  cases op with
  | construct origin skip =>
    simp only [step] at called ⊢
    split at called
    · split at called
      · next here =>
        rw [if_pos here]
        exact construct_mono le called
      · next here =>
        rw [if_neg here]
        exact called
    · exact called
    · exact construct_mono le called
  | importFound d =>
    simp only [step] at called ⊢
    split at called
    · split at called
      · next here =>
        rw [if_pos here]
        rw [bind_ok] at called ⊢
        obtain ⟨t, added, called⟩ := called
        exact ⟨t, added, bindImport_mono le called⟩
      · next here =>
        rw [if_neg here]
        exact called
    · exact called
  | exeImportFound d =>
    simp only [step] at called ⊢
    split at called
    · next here =>
      rw [if_pos here]
      rw [bind_ok] at called ⊢
      obtain ⟨t, added, called⟩ := called
      exact ⟨t, added, setUnloadOrder_mono le called⟩
    · next here =>
      rw [if_neg here]
      exact called
  | initDone => exact called
  | initFailed => exact called
  | entryDone rc =>
    simp only [step] at called ⊢
    split at called
    · split at called
      · next here =>
        rw [if_pos here]
        exact finish_mono le called
      · next here =>
        rw [if_neg here]
        exact called
    · exact called
  | loadLibraryFound d => exact called
  | freeLibrary d =>
    simp only [step] at called ⊢
    split at called
    · next here =>
      rw [if_pos here]
      rw [bind_ok] at called ⊢
      obtain ⟨object, there, called⟩ := called
      refine ⟨object, there, ?_⟩
      split at called
      · next some_ =>
        rw [if_pos some_]
        rw [bind_ok] at called ⊢
        obtain ⟨t, dec, called⟩ := called
        exact ⟨t, dec, release_mono le called⟩
      · next none_ =>
        rw [if_neg none_]
        exact called
    · next here =>
      rw [if_neg here]
      exact called
  | deleteDynamicLibs => exact deleteDynamicLibs_mono le called
  | exitProcess =>
    simp only [step] at called ⊢
    rw [bind_ok] at called ⊢
    obtain ⟨t, detached, called⟩ := called
    exact ⟨t, detached, deleteExe_mono le called⟩

theorem step_unique {fuel more : ℕ} {s t u : Loader} {op : Op} (first : step fuel s op = .ok t)
    (second : step more s op = .ok u) : t = u := by
  rcases Nat.le_total fuel more with le | le
  · have again := step_mono le first
    rw [second] at again
    exact (Except.ok.inj again).symm
  · have again := step_mono le second
    rw [first] at again
    exact Except.ok.inj again

end Odin32.DllList
