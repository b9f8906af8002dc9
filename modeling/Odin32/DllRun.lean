import Odin32.DllLoads

/-! # Loading and unloading over a run

Every event keeps the list in order and the counts covered, as long as a failed load leaves
no reference behind and no release takes away a DLL whose load has not got its reference
yet. -/

set_option autoImplicit false

namespace Odin32.DllList

open OrderedList Relation

/-- The import that an event records. -/
def newImport (s : Loader) : Op → Option (Dll × Dll)
  | .importFound d =>
    match s.loading with
    | importer :: _ =>
      if importer.phase = .imports ∧ d ∈ s.head then some (importer.dll, d) else none
    | [] => none
  | .entryDone rc =>
    match s.loading with
    | ⟨d, .import_, .entry⟩ :: importer :: _ => if rc then some (importer.dll, d) else none
    | _ => none
  | _ => none

/-- Every cycle the event closes is one of those allowed. -/
def Closes (allowed : List Dll → Prop) (s : Loader) (op : Op) : Prop :=
  ∀ p d, newImport s op = some (p, d) → ∀ l, IsCycle (withImport s p d) l → allowed l

/-- A failed load is referred to by nothing, and no release takes away what is still being
loaded. -/
def Fits (s : Loader) : Op → Prop
  | .freeLibrary d => ∀ object, s.object d = some object → object.nrDynamicLibRef ≠ 0 →
      object.referenced = 1 → Settled s d
  | .deleteDynamicLibs => ∀ d ∈ s.loadLibDlls, Settled s d
  | .initFailed =>
    match s.loading with
    | ⟨d, _, phase⟩ :: _ => phase ≠ .entry → Unreferenced s d
    | [] => True
  | .entryDone false =>
    match s.loading with
    | ⟨d, _, .entry⟩ :: _ => Unreferenced s d
    | _ => True
  | _ => True

/-- What an event leaves. -/
structure Leaves (s : Loader) (op : Op) (t : Loader) : Prop where
  inv : Inv t []
  graph : ∀ u v, t.DependsOn u v → s.DependsOn u v ∨ newImport s op = some (u, v)
  detached : NoCycle s → t.detachedUnder = s.detachedUnder
  ended : op = .exitProcess → t.head = []

theorem Leaves.of_eq {s t : Loader} {op : Op} (inv : Inv t []) (graph : t.DependsOn = s.DependsOn)
    (detached : t.detachedUnder = s.detachedUnder) (goes : op ≠ .exitProcess) : Leaves s op t :=
  ⟨inv, fun _ _ edge => Or.inl (graph ▸ edge), fun _ => detached, fun same => absurd same goes⟩

theorem step_construct {s : Loader} (inv : Inv s []) (origin : Origin) (fSkipEntryCalls : Bool) :
    ∃ fuel t, step fuel s (.construct origin fSkipEntryCalls) = .ok t ∧
      Leaves s (.construct origin fSkipEntryCalls) t := by
  have alone (origin : Origin) := construct_spec inv origin fSkipEntryCalls none
    (fun p => nofun)
  rcases origin with _ | _ | _
  · obtain ⟨t, called, inv', graph, detached⟩ := alone .loadLibrary
    exact ⟨1, t, called, Leaves.of_eq inv' graph detached nofun⟩
  · obtain ⟨t, called, inv', graph, detached⟩ := alone .exe
    exact ⟨1, t, called, Leaves.of_eq inv' graph detached nofun⟩
  · rcases top : s.loading with _ | ⟨importer, loading⟩
    · exact ⟨1, s, by simp only [step, top], Leaves.of_eq inv rfl rfl nofun⟩
    · by_cases phase : importer.phase = .imports
      · obtain ⟨t, called, inv', graph, detached⟩ := construct_spec inv .import_ fSkipEntryCalls
          (some importer.dll) (by
            rintro p ⟨⟩
            exact inv.loads importer (by rw [top]; exact List.mem_cons_self))
        exact ⟨1, t, by simp only [step, top, if_pos phase]; exact called,
          Leaves.of_eq inv' graph detached nofun⟩
      · exact ⟨1, s, by simp only [step, top, if_neg phase], Leaves.of_eq inv rfl rfl nofun⟩

theorem step_importFound {s : Loader} (inv : Inv s []) {d : Dll}
    (closes : Closes (fun l => l.length = 2) s (.importFound d)) :
    ∃ fuel t, step fuel s (.importFound d) = .ok t ∧ Leaves s (.importFound d) t := by
  rcases top : s.loading with _ | ⟨importer, loading⟩
  · exact ⟨1, s, by simp only [step, top], Leaves.of_eq inv rfl rfl nofun⟩
  by_cases here : importer.phase = .imports ∧ d ∈ s.head
  · have new : newImport s (.importFound d) = some (importer.dll, d) := by
      simp only [newImport, top, if_pos here]
    obtain ⟨u, added, inv', spare, same, _, detached⟩ := addRef_spec inv here.2
    have known := inv.loads importer (by rw [top]; exact List.mem_cons_self)
    have graph : withImport u importer.dll d = withImport s importer.dll d := by
      unfold withImport
      rw [same.dependsOn_eq]
    obtain ⟨t, bound, inv'', graph', detached'⟩ := bindImport_spec inv'.toCore
      (same.head ▸ known) (same.head ▸ here.2) (fun e _ => inv'.counted e) spare
      (by rw [graph]; exact closes importer.dll d new)
    refine ⟨u.head.length, t, ?_, inv'', ?_, fun _ => detached'.trans detached, nofun⟩
    · simp only [step, top, if_pos here]
      rw [bind_ok]
      exact ⟨u, added, bound⟩
    · intro a b edge
      rw [graph', graph] at edge
      rcases edge with edge | ⟨rfl, rfl⟩
      · exact Or.inl edge
      · exact Or.inr new
  · exact ⟨1, s, by simp only [step, top, if_neg here], Leaves.of_eq inv rfl rfl nofun⟩

theorem step_exeImportFound {s : Loader} (inv : Inv s []) (d : Dll) :
    ∃ fuel t, step fuel s (.exeImportFound d) = .ok t ∧ Leaves s (.exeImportFound d) t := by
  by_cases here : d ∈ s.head
  · obtain ⟨u, added, inv', spare, same, _, detached⟩ := addRef_spec inv here
    obtain ⟨bound, inv''⟩ := bindExeImport_spec inv'.toCore (same.head ▸ here)
      (fun e _ => inv'.counted e) spare
    refine ⟨1, _, ?_, Leaves.of_eq inv'' same.dependsOn_eq detached nofun⟩
    simp only [step, if_pos here]
    rw [bind_ok]
    exact ⟨u, added, bound⟩
  · exact ⟨1, s, by simp only [step, if_neg here], Leaves.of_eq inv rfl rfl nofun⟩

theorem step_initDone {s : Loader} (inv : Inv s []) :
    ∃ fuel t, step fuel s .initDone = .ok t ∧ Leaves s .initDone t := by
  rcases top : s.loading with _ | ⟨⟨d, origin, phase⟩, loading⟩
  · exact ⟨1, s, by simp only [step, top], Leaves.of_eq inv rfl rfl nofun⟩
  rcases phase with _ | _ | _
  · obtain ⟨u, t, added, attached, inv', graph, detached⟩ := initDone_spec inv top
    refine ⟨1, t, ?_, Leaves.of_eq inv' graph detached nofun⟩
    simp only [step, top]
    rw [bind_ok]
    exact ⟨u, added, attached⟩
  · exact ⟨1, s, by simp only [step, top], Leaves.of_eq inv rfl rfl nofun⟩
  · exact ⟨1, s, by simp only [step, top], Leaves.of_eq inv rfl rfl nofun⟩

theorem step_initFailed {s : Loader} (inv : Inv s []) (fits : Fits s .initFailed) :
    ∃ fuel t, step fuel s .initFailed = .ok t ∧ Leaves s .initFailed t := by
  rcases top : s.loading with _ | ⟨⟨d, origin, phase⟩, loading⟩
  · exact ⟨1, s, by simp only [step, top], Leaves.of_eq inv rfl rfl (by simp)⟩
  by_cases entry : phase = .entry
  · exact ⟨1, s, by simp only [step, top, if_pos entry], Leaves.of_eq inv rfl rfl (by simp)⟩
  simp only [Fits, top] at fits
  have inside : d ∈ s.head := inv.loads ⟨d, origin, phase⟩ (by rw [top]; exact List.mem_cons_self)
  obtain ⟨object, here⟩ := (inv.live d).mp inside
  have same := sameGraph_set here { object with errorState := true } rfl rfl
  have dynamic := sameDynamic_set here { object with errorState := true } rfl
  have inv' : Inv (s.set d { object with errorState := true }) [] := by
    refine ⟨same.core_same dynamic inv.toCore, ?_, (by simp)⟩
    intro e o there
    rw [same.references_eq]
    by_cases own : e = d
    · subst own
      rw [Loader.set_object_self] at there
      cases there
      exact inv.counted e object here
    · rw [Loader.set_object_of_ne _ own] at there
      exact inv.counted e o there
  have free : Unreferenced (s.set d { object with errorState := true }) d := by
    unfold Unreferenced
    rw [same.dependsOn_eq]
    exact fits entry
  obtain ⟨t, gone, inv'', fewer, detached⟩ := abandon_spec inv' top free
  refine ⟨1, t, ?_, inv'', ?_, fun _ => detached, (by simp)⟩
  · simp only [step, top, if_neg entry]
    rw [bind_ok]
    exact ⟨object, get_eq here, gone⟩
  · intro u v edge
    have edge' := fewer u v edge
    rw [same.dependsOn_eq] at edge'
    exact Or.inl edge'

theorem step_entryDone {s : Loader} (inv : Inv s []) (rc : Bool)
    (closes : Closes (fun l => l.length = 2) s (.entryDone rc)) (fits : Fits s (.entryDone rc)) :
    ∃ fuel t, step fuel s (.entryDone rc) = .ok t ∧ Leaves s (.entryDone rc) t := by
  rcases top : s.loading with _ | ⟨⟨d, origin, phase⟩, loading⟩
  · exact ⟨1, s, by simp only [step, top], Leaves.of_eq inv rfl rfl (by simp)⟩
  rcases phase with _ | _ | _
  · exact ⟨1, s, by simp only [step, top], Leaves.of_eq inv rfl rfl (by simp)⟩
  · exact ⟨1, s, by simp only [step, top], Leaves.of_eq inv rfl rfl (by simp)⟩
  have inside : d ∈ s.head := inv.loads ⟨d, origin, .entry⟩ (by rw [top]; exact List.mem_cons_self)
  rcases rc with _ | _
  · simp only [Fits, top] at fits
    obtain ⟨t, gone, inv', fewer, detached⟩ := abandon_spec inv top fits
    exact ⟨1, t, by simp only [step, top]; exact gone,
      inv', fun u v edge => Or.inl (fewer u v edge), fun _ => detached, (by simp)⟩
  have popped := inv.pop top
  have spare := inv.pop_spare top rfl
  have counted : ∀ e, e ≠ d → Counted { s with loading := loading } [] e :=
    fun e _ => popped.counted e
  have dynamic : ∃ t, incDynamicLib d { s with loading := loading } = .ok t ∧
      Leaves s (.entryDone true) t := by
    obtain ⟨t, called, inv', same, detached⟩ :=
      incDynamicLib_spec popped.toCore inside counted spare
    exact ⟨t, called, Leaves.of_eq inv' same.dependsOn_eq detached (by simp)⟩
  rcases origin with _ | _ | _
  · obtain ⟨t, called, leaves⟩ := dynamic
    exact ⟨1, t, by simp only [step, top, if_true, finish]; exact called, leaves⟩
  · obtain ⟨called, inv'⟩ := bindExeImport_spec popped.toCore inside counted spare
    exact ⟨1, _, by simp only [step, top, if_true, finish]; exact called,
      Leaves.of_eq inv' rfl rfl (by simp)⟩
  · rcases loading with _ | ⟨importer, loading⟩
    · obtain ⟨t, called, leaves⟩ := dynamic
      exact ⟨1, t, by simp only [step, top, if_true, finish]; exact called, leaves⟩
    · have new : newImport s (.entryDone true) = some (importer.dll, d) := by
        simp only [newImport, top, if_true]
      have known := inv.loads importer (by
        rw [top]
        exact List.mem_cons_of_mem _ List.mem_cons_self)
      obtain ⟨t, bound, inv', graph, detached⟩ := bindImport_spec popped.toCore known inside counted
        spare (closes importer.dll d new)
      refine ⟨s.head.length, t, by simp only [step, top, if_true, finish]; exact bound, inv', ?_,
        fun _ => detached, (by simp)⟩
      intro a b edge
      rw [graph] at edge
      rcases edge with edge | ⟨rfl, rfl⟩
      · exact Or.inl edge
      · exact Or.inr new

theorem step_loadLibraryFound {s : Loader} (inv : Inv s []) (d : Dll) :
    ∃ fuel t, step fuel s (.loadLibraryFound d) = .ok t ∧ Leaves s (.loadLibraryFound d) t := by
  by_cases here : d ∈ s.head
  · obtain ⟨u, t, inc, added, inv', same, detached⟩ := loadLibraryFound_spec inv here
    refine ⟨1, t, ?_, Leaves.of_eq inv' same.dependsOn_eq detached nofun⟩
    simp only [step, if_pos here]
    rw [bind_ok]
    exact ⟨u, inc, added⟩
  · exact ⟨1, s, by simp only [step, if_neg here], Leaves.of_eq inv rfl rfl nofun⟩

theorem freeLibrary_more {s : Loader} {d : Dll} {object : Win32DllBase} (inv : Inv s [])
    (here : s.object d = some object) (some_ : object.nrDynamicLibRef ≠ 0)
    (more : object.referenced ≠ 1) : ∃ t u, decDynamicLib d s = .ok t ∧ release 1 d t = .ok u ∧
      Inv u [] ∧ SameGraph s u ∧ u.detachedUnder = s.detachedUnder := by
  obtain ⟨t, dec, core, same, detached, _, mine, others⟩ := decDynamicLib_core inv here some_
  have enough := inv.counted d object here
  have alive : ¬ object.referenced - 1 ≤ 0 := by omega
  have same' := sameGraph_set mine { object with
    nrDynamicLibRef := object.nrDynamicLibRef - 1, referenced := object.referenced - 1 } rfl rfl
  have dynamic := sameDynamic_set mine { object with
    nrDynamicLibRef := object.nrDynamicLibRef - 1, referenced := object.referenced - 1 } rfl
  refine ⟨t, t.set d { object with
    nrDynamicLibRef := object.nrDynamicLibRef - 1, referenced := object.referenced - 1 }, dec, ?_,
    ⟨same'.core_same dynamic core, ?_, nofun⟩, same.trans same', detached⟩
  · rw [release, get_eq mine]
    simp only [bind, Except.bind, if_neg alive]
    rfl
  · intro e o there
    rw [same'.references_eq, same.references_eq]
    by_cases own : e = d
    · subst own
      rw [Loader.set_object_self] at there
      cases there
      simp only
      omega
    · rw [Loader.set_object_of_ne _ own, others e own] at there
      exact inv.counted e o there

theorem step_freeLibrary {s : Loader} (inv : Inv s []) {d : Dll} (fits : Fits s (.freeLibrary d)) :
    ∃ fuel t, step fuel s (.freeLibrary d) = .ok t ∧ Leaves s (.freeLibrary d) t := by
  by_cases inside : d ∈ s.head
  swap
  · exact ⟨1, s, by simp only [step, if_neg inside], Leaves.of_eq inv rfl rfl nofun⟩
  obtain ⟨object, here⟩ := (inv.live d).mp inside
  have found {fuel : ℕ} {t : Loader} (called : (if object.nrDynamicLibRef ≠ 0 then do
      let s ← decDynamicLib d s
      release fuel d s else .ok s) = .ok t) : step fuel s (.freeLibrary d) = .ok t := by
    simp only [step, if_pos inside]
    rw [bind_ok]
    exact ⟨object, get_eq here, called⟩
  by_cases some_ : object.nrDynamicLibRef ≠ 0
  swap
  · exact ⟨1, s, found (by rw [if_neg some_]), Leaves.of_eq inv rfl rfl nofun⟩
  by_cases last : object.referenced = 1
  · obtain ⟨u, dec, inv', same, detached, _, _⟩ :=
      decDynamicLib_spec inv here some_ (fits object here some_ last)
    obtain ⟨t, released, inv'', shrinks⟩ :=
      release_spec (u.head.length + 1) inv' (Nat.lt_succ_self _)
    refine ⟨u.head.length + 1, t, found ?_, inv'', ?_,
      fun _ => shrinks.detachedUnder.trans detached, nofun⟩
    · rw [if_pos some_, bind_ok]
      exact ⟨u, dec, released⟩
    · intro a b edge
      have edge' := shrinks.dependsOn a b edge
      rw [same.dependsOn_eq] at edge'
      exact Or.inl edge'
  · obtain ⟨u, t, dec, released, inv', same, detached⟩ := freeLibrary_more inv here some_ last
    refine ⟨1, t, found ?_, Leaves.of_eq inv' same.dependsOn_eq detached nofun⟩
    rw [if_pos some_, bind_ok]
    exact ⟨u, dec, released⟩

theorem step_exitProcess {s : Loader} (inv : Inv s []) :
    ∃ fuel t, step fuel s .exitProcess = .ok t ∧ Leaves s .exitProcess t := by
  obtain ⟨u, detached, detaches, quiet⟩ := detachProcessFromAllDlls_spec inv.toCore
  obtain ⟨fuel, t, called, inv', empty, _, _, under⟩ :=
    deleteExe_spec (detaches.inv inv).abandonLoads rfl
  refine ⟨fuel, t, ?_, inv', ?_, ?_, fun _ => empty⟩
  · simp only [step]
    rw [bind_ok]
    exact ⟨u, detached, called⟩
  · intro a b edge
    have inside := inv'.toLinked.mem_of_dependsOn edge
    rw [empty] at inside
    cases inside
  · exact fun noCycle => under.trans (quiet noCycle)

theorem step_spec {s : Loader} (inv : Inv s []) (op : Op)
    (closes : Closes (fun l => l.length = 2) s op) (fits : Fits s op) :
    ∃ fuel t, step fuel s op = .ok t ∧ Leaves s op t := by
  cases op with
  | construct origin fSkipEntryCalls => exact step_construct inv origin fSkipEntryCalls
  | importFound d => exact step_importFound inv closes
  | exeImportFound d => exact step_exeImportFound inv d
  | initDone => exact step_initDone inv
  | initFailed => exact step_initFailed inv fits
  | entryDone rc => exact step_entryDone inv rc closes fits
  | loadLibraryFound d => exact step_loadLibraryFound inv d
  | freeLibrary d => exact step_freeLibrary inv fits
  | deleteDynamicLibs =>
    obtain ⟨t, called, inv', _, _, unloads⟩ := deleteDynamicLibs_spec s.loadLibDlls.length
      (s.loadLibDlls.length + s.head.length + 1) inv (Nat.le_refl _) fits (Nat.lt_succ_self _)
    exact ⟨s.loadLibDlls.length + s.head.length + 1, t, called, inv',
      fun a b edge => Or.inl (unloads.dependsOn a b edge),
      fun _ => unloads.detachedUnder, nofun⟩
  | exitProcess => exact step_exitProcess inv

/-! ## Runs -/

def StepsFit : Loader → List Op → Prop
  | _, [] => True
  | s, op :: ops => Fits s op ∧ ∀ fuel t, step fuel s op = .ok t → StepsFit t ops

/-- All cycles of imports that a run closes are of a kind that is allowed. -/
def RunCloses (allowed : List Dll → Prop) : Loader → List Op → Prop
  | _, [] => True
  | s, op :: ops =>
    Closes allowed s op ∧ ∀ fuel t, step fuel s op = .ok t → RunCloses allowed t ops

/-- Every DLL stands before those it depends on, and each object is in the list or was
deleted once. None was detached under an attached DLL that depends on it. -/
structure OrderOk (s : Loader) : Prop where
  ordered : ∀ u v, s.DependsOn u v → Before s.head u v
  live : ∀ d ∈ s.head, ∃ object, s.object d = some object
  once : s.deleted.Nodup
  either : ∀ d < s.created, d ∈ s.head ↔ d ∉ s.deleted
  attached : s.detachedUnder = []

/-- The list stays in order, no event uses an object that was deleted, and at the end all
objects are. -/
def UnloadOk : Loader → List Op → Prop
  | s, [] => OrderOk s
  | s, op :: ops => OrderOk s ∧ ∃ fuel t, step fuel s op = .ok t ∧
      (op = .exitProcess → ∀ d < t.created, d ∈ t.deleted) ∧ UnloadOk t ops

/-- Every event ends, deletes no object twice, and uses none that was deleted. -/
def Survives : Loader → List Op → Prop
  | s, [] => s.deleted.Nodup
  | s, op :: ops => s.deleted.Nodup ∧ ∃ fuel t, step fuel s op = .ok t ∧ Survives t ops

theorem Inv.orderOk {s : Loader} (inv : Inv s []) (noCycle : NoCycle s)
    (detached : s.detachedUnder = []) : OrderOk s where
  ordered := by
    intro u v edge
    by_contra wrong
    refine inv.ordered u v ⟨edge, fun back => ?_, wrong⟩
    by_cases same : u = v
    · subst same
      exact noCycle [u] ⟨List.nodup_singleton u, List.IsChain.cons_cons edge
        (List.IsChain.singleton u)⟩
    · exact noCycle [u, v] ⟨by simpa using same, List.IsChain.cons_cons back
        (List.IsChain.cons_cons edge (List.IsChain.singleton u))⟩
  live := fun d inside => (inv.live d).mp inside
  once := inv.once
  either := by
    intro d below
    rw [inv.live, inv.gone, ← Option.ne_none_iff_exists', ne_eq]
    simp [below]
  attached := detached

theorem Inv.survives {s : Loader} (inv : Inv s []) {ops : List Op}
    (closes : RunCloses (fun l => l.length = 2) s ops) (fit : StepsFit s ops) : Survives s ops := by
  induction ops generalizing s with
  | nil => exact inv.once
  | cons op ops ih =>
    obtain ⟨fuel, t, stepped, leaves⟩ := step_spec inv op closes.1 fit.1
    exact ⟨inv.once, fuel, t, stepped, ih leaves.inv (closes.2 fuel t stepped) (fit.2 fuel t stepped)⟩

theorem Inv.unloadOk {s : Loader} (inv : Inv s []) (noCycle : NoCycle s)
    (detached : s.detachedUnder = []) {ops : List Op} (closes : RunCloses (fun _ => False) s ops)
    (fit : StepsFit s ops) : UnloadOk s ops := by
  induction ops generalizing s with
  | nil => exact inv.orderOk noCycle detached
  | cons op ops ih =>
    obtain ⟨fuel, t, stepped, leaves⟩ := step_spec inv op
      (fun p d new l cycle => (closes.1 p d new l cycle).elim) fit.1
    refine ⟨inv.orderOk noCycle detached, fuel, t, stepped, ?_, ih leaves.inv ?_ ?_
      (closes.2 fuel t stepped) (fit.2 fuel t stepped)⟩
    · intro exit d below
      rw [leaves.inv.gone]
      refine ⟨below, ?_⟩
      by_contra alive
      have inside := (leaves.inv.live d).mpr (Option.ne_none_iff_exists'.mp alive)
      rw [leaves.ended exit] at inside
      cases inside
    · intro l cycle
      rcases new : newImport s op with _ | ⟨p, d⟩
      · refine noCycle l (cycle.mono fun u v edge => ?_)
        rcases leaves.graph u v edge with edge | import_
        · exact edge
        · rw [new] at import_
          cases import_
      · refine closes.1 p d new l (cycle.mono fun u v edge => ?_)
        rcases leaves.graph u v edge with edge | import_
        · exact Or.inl edge
        · rw [new] at import_
          cases import_
          exact Or.inr ⟨rfl, rfl⟩
    · exact (leaves.detached noCycle).trans detached

theorem inv_newLoader : Inv newLoader [] where
  nodup := List.nodup_nil
  live := fun d => ⟨nofun, nofun⟩
  inserted := nofun
  deps := fun _ _ => nofun
  fresh := fun _ _ => rfl
  gone := fun d => ⟨nofun, fun lt => absurd lt.1 (Nat.not_lt_zero d)⟩
  once := List.nodup_nil
  exe := nofun
  waiting := nofun
  loads := nofun
  loadsOnce := List.nodup_nil
  dynamicOnce := List.nodup_nil
  dynamic := fun d => ⟨nofun, nofun⟩
  ordered := fun _ _ wrong => nomatch wrong.1
  short := by
    intro l cycle
    cases l with
    | nil => exact cycle.elim
    | cons a l => cases l <;> exact nomatch (List.isChain_cons_cons.mp cycle.2).1
  counted := fun _ => nofun
  settled := nofun

theorem noCycle_newLoader : NoCycle newLoader := by
  intro l cycle
  cases l with
  | nil => exact cycle
  | cons a l => cases l <;> exact nomatch (List.isChain_cons_cons.mp cycle.2).1

/-- Without cycles of imports, the list stays in the order of unloading over every run. -/
theorem run_unloadOrder (ops : List Op) (acyclic : RunCloses (fun _ => False) newLoader ops)
    (fit : StepsFit newLoader ops) : UnloadOk newLoader ops :=
  inv_newLoader.unloadOk noCycle_newLoader rfl acyclic fit

/-! Runs step by step. -/

theorem closes_of_none {s : Loader} {op : Op} (new : newImport s op = none)
    (allowed : List Dll → Prop) : Closes allowed s op := by
  intro p d some_
  rw [new] at some_
  cases some_

theorem closes_of_first {s : Loader} {op : Op} (first : ∀ u, s.deps u = [])
    (apart : ∀ p d, newImport s op = some (p, d) → p ≠ d) (allowed : List Dll → Prop) :
    Closes allowed s op := by
  intro p d new l cycle
  refine absurd cycle (not_isCycle (fun u => if u = p then 1 else 0) ?_ l)
  rintro u v (edge | ⟨rfl, rfl⟩)
  · rw [Loader.DependsOn, first] at edge
    cases edge
  · simp [(apart u v new).symm]

theorem RunCloses.cons {allowed : List Dll → Prop} {s t : Loader} {op : Op} {ops : List Op}
    (fuel : ℕ) (ran : step fuel s op = .ok t) (closes : Closes allowed s op)
    (rest : RunCloses allowed t ops) : RunCloses allowed s (op :: ops) :=
  ⟨closes, fun _ _ ran' => step_unique ran ran' ▸ rest⟩

theorem StepsFit.cons {s t : Loader} {op : Op} {ops : List Op} (fuel : ℕ)
    (ran : step fuel s op = .ok t) (fits : Fits s op) (rest : StepsFit t ops) :
    StepsFit s (op :: ops) :=
  ⟨fits, fun _ _ ran' => step_unique ran ran' ▸ rest⟩

theorem UnloadOk.tail {s t : Loader} {op : Op} {ops : List Op} (fuel : ℕ)
    (ran : step fuel s op = .ok t) (ok : UnloadOk s (op :: ops)) : UnloadOk t ops := by
  obtain ⟨_, _, _, ran', _, rest⟩ := ok
  exact step_unique ran ran' ▸ rest

theorem Survives.after {s t : Loader} {ops rest : List Op} (fuel : ℕ)
    (ran : ops.foldlM (step fuel) s = .ok t) (ok : Survives s (ops ++ rest)) :
    Survives t rest := by
  induction ops generalizing s with
  | nil =>
    cases ran
    exact ok
  | cons op ops ih =>
    rw [List.foldlM_cons, bind_ok] at ran
    obtain ⟨u, first, ran⟩ := ran
    obtain ⟨_, _, _, first', ok⟩ := ok
    exact ih ran (step_unique first first' ▸ ok)

/-- DLL 0 is loaded with its import 1, freed again, and then the process exits. -/
def loadAndFree : List Op :=
  [.construct .loadLibrary false, .construct .import_ false, .initDone, .entryDone true,
    .initDone, .entryDone true, .freeLibrary 0, .exitProcess]

theorem closes_loadAndFree : RunCloses (fun _ => False) newLoader loadAndFree := by
  refine RunCloses.cons 9 rfl (closes_of_none rfl _) ?_
  refine RunCloses.cons 9 rfl (closes_of_none rfl _) ?_
  refine RunCloses.cons 9 rfl (closes_of_none rfl _) ?_
  refine RunCloses.cons 9 rfl (closes_of_first ?_ ?_ _) ?_
  · rintro (_ | _ | u) <;> rfl
  · rintro p d ⟨⟩
    decide
  refine RunCloses.cons 9 rfl (closes_of_none rfl _) ?_
  refine RunCloses.cons 9 rfl (closes_of_none rfl _) ?_
  refine RunCloses.cons 9 rfl (closes_of_none rfl _) ?_
  exact ⟨closes_of_none rfl _, fun _ _ _ => trivial⟩

theorem fit_loadAndFree : StepsFit newLoader loadAndFree := by
  refine StepsFit.cons 9 rfl trivial (StepsFit.cons 9 rfl trivial ?_)
  refine StepsFit.cons 9 rfl trivial (StepsFit.cons 9 rfl trivial ?_)
  refine StepsFit.cons 9 rfl trivial (StepsFit.cons 9 rfl trivial ?_)
  refine StepsFit.cons 9 rfl (fun _ _ _ _ load inside => ?_) ⟨trivial, fun _ _ _ => trivial⟩
  exact absurd inside List.not_mem_nil

theorem run_unloadOrder_loadAndFree : UnloadOk newLoader loadAndFree :=
  run_unloadOrder loadAndFree closes_loadAndFree fit_loadAndFree

/-- DLL 0 loads its import 1, whose entry point loads DLL 2, which imports 0, and frees it
again. This takes the only reference to DLL 0, that has not got its own yet. -/
def freeUnderLoad : List Op :=
  [.construct .loadLibrary false, .construct .import_ false, .initDone,
    .construct .loadLibrary false, .importFound 0, .initDone, .entryDone true, .freeLibrary 2,
    .entryDone true]

theorem closes_freeUnderLoad : RunCloses (fun _ => False) newLoader freeUnderLoad := by
  refine RunCloses.cons 9 rfl (closes_of_none rfl _) ?_
  refine RunCloses.cons 9 rfl (closes_of_none rfl _) ?_
  refine RunCloses.cons 9 rfl (closes_of_none rfl _) ?_
  refine RunCloses.cons 9 rfl (closes_of_none rfl _) ?_
  refine RunCloses.cons 9 rfl (closes_of_first ?_ ?_ _) ?_
  · rintro (_ | _ | _ | u) <;> rfl
  · rintro p d ⟨⟩
    decide
  refine RunCloses.cons 9 rfl (closes_of_none rfl _) ?_
  refine RunCloses.cons 9 rfl (closes_of_none rfl _) ?_
  refine RunCloses.cons 9 rfl (closes_of_none rfl _) ?_
  refine ⟨closes_of_first ?_ ?_ _, fun _ _ _ => trivial⟩
  · rintro (_ | _ | _ | u) <;> rfl
  · rintro p d ⟨⟩
    decide

/-- The load of DLL 0 goes on with an object that was deleted. -/
theorem freeUnderLoad_not_unloadOk :
    ¬ ∀ ops, RunCloses (fun _ => False) newLoader ops → UnloadOk newLoader ops := by
  intro all
  have ok := all freeUnderLoad closes_freeUnderLoad
  have ok := (ok.tail 9 rfl).tail 9 rfl
  have ok := (ok.tail 9 rfl).tail 9 rfl
  have ok := (ok.tail 9 rfl).tail 9 rfl
  have ok := (ok.tail 9 rfl).tail 9 rfl
  obtain ⟨_, fuel, t, ran, _⟩ := ok
  cases ran

/-- With no cycles but those of two DLLs that import each other, every event ends. -/
theorem run_survives (ops : List Op) (short : RunCloses (fun l => l.length = 2) newLoader ops)
    (fit : StepsFit newLoader ops) : Survives newLoader ops :=
  inv_newLoader.survives short fit

/-- DLLs 0 and 1 import each other. -/
def mutual_ : List Op :=
  [.construct .loadLibrary false, .construct .import_ false, .importFound 0, .initDone,
    .entryDone true, .initDone, .entryDone true, .exitProcess]

theorem length_of_isCycle_pair {r : Dll → Dll → Prop} {a b : Dll} (apart : a ≠ b)
    (pair : ∀ u v, r u v → u = a ∧ v = b ∨ u = b ∧ v = a) (l : List Dll) (cycle : IsCycle r l) :
    l.length = 2 := by
  match l, cycle with
  | [u], cycle =>
    have edge := (List.isChain_cons_cons.mp cycle.2).1
    rcases pair u u edge with ⟨rfl, same⟩ | ⟨rfl, same⟩
    · exact absurd same apart
    · exact absurd same.symm apart
  | [u, v], _ => rfl
  | u :: v :: w :: l, ⟨nodup, chain⟩ =>
    obtain ⟨edge, chain⟩ := List.isChain_cons_cons.mp chain
    have edge' := (List.isChain_cons_cons.mp chain).1
    have same : u = w := by
      rcases pair v u edge with ⟨rfl, rfl⟩ | ⟨rfl, rfl⟩ <;>
        rcases pair w v edge' with ⟨rfl, same⟩ | ⟨rfl, same⟩
      · exact absurd same apart
      · rfl
      · rfl
      · exact absurd same.symm apart
    simp [same] at nodup

theorem closes_mutual : RunCloses (fun l => l.length = 2) newLoader mutual_ := by
  refine RunCloses.cons 9 rfl (closes_of_none rfl _) ?_
  refine RunCloses.cons 9 rfl (closes_of_none rfl _) ?_
  refine RunCloses.cons 9 rfl (closes_of_first ?_ ?_ _) ?_
  · rintro (_ | _ | u) <;> rfl
  · rintro p d ⟨⟩
    decide
  refine RunCloses.cons 9 rfl (closes_of_none rfl _) ?_
  refine RunCloses.cons 9 rfl ?_ ?_
  · rintro p d ⟨⟩ l cycle
    refine length_of_isCycle_pair (a := 0) (b := 1) (by decide) ?_ l cycle
    rintro u v (edge | edge)
    · match u, edge with
      | 1, edge => exact Or.inr ⟨rfl, List.mem_singleton.mp edge⟩
    · exact Or.inl edge
  refine RunCloses.cons 9 rfl (closes_of_none rfl _) ?_
  refine RunCloses.cons 9 rfl (closes_of_none rfl _) ?_
  exact ⟨closes_of_none rfl _, fun _ _ _ => trivial⟩

theorem fit_mutual : StepsFit newLoader mutual_ := by
  refine StepsFit.cons 9 rfl trivial (StepsFit.cons 9 rfl trivial ?_)
  refine StepsFit.cons 9 rfl trivial (StepsFit.cons 9 rfl trivial ?_)
  refine StepsFit.cons 9 rfl trivial (StepsFit.cons 9 rfl trivial ?_)
  exact StepsFit.cons 9 rfl trivial ⟨trivial, fun _ _ _ => trivial⟩

theorem run_survives_mutual : Survives newLoader mutual_ :=
  run_survives mutual_ closes_mutual fit_mutual

/-! ## A ring of three -/

/-- Where each of three DLLs imports the next and the list has the last one first, the
recursion moves them around for ever. -/
theorem setUnloadOrder_ring (fuel : ℕ) {a b c : Dll} {s : Loader} {x y z : Win32DllBase}
    (apart : a ≠ b ∧ b ≠ c ∧ c ≠ a) (head : s.head = [b, c, a]) (first : s.object a = some x)
    (second : s.object b = some y) (third : s.object c = some z) (inserted : x.fInserted = true ∧
      y.fInserted = true ∧ z.fInserted = true) (imports : x.loadedDlls = [b] ∧
      y.loadedDlls = [c] ∧ z.loadedDlls = [a]) :
    setUnloadOrder fuel (some a) b s = .error .outOfFuel := by
  induction fuel generalizing a b c s x y z with
  | zero => rfl
  | succ fuel ih =>
    obtain ⟨ab, bc, ca⟩ := apart
    have placed : place s (some a) b true = .ok (some (some a, [c, a, b])) := by
      unfold place
      simp only [get_eq first, bind, Except.bind, pure, Except.pure, head, walk, get_eq second,
        get_eq third, if_neg ab.symm, if_neg ca, if_true, Option.map_some]
      simp [moveAfter, insertAfter, ca]
    have looped := ih (a := b) (b := c) (c := a) (s := { s with head := [c, a, b] }.set b
        { y with fInserted := true }) (x := { y with fInserted := true }) (y := z) (z := x)
      ⟨bc, ca, ab⟩ rfl (Loader.set_object_self ..) ((Loader.set_object_of_ne _ bc.symm _).trans third)
      ((Loader.set_object_of_ne _ ab _).trans first) ⟨rfl, inserted.2.2, inserted.1⟩
      ⟨imports.2.1, imports.2.2, imports.1⟩
    unfold setUnloadOrder
    simp only [get_eq second, bind, Except.bind, inserted.2.1, placed]
    have next : some c ≠ some a := by simpa using ca
    rw [imports.2.1] at looped ⊢
    rw [List.foldlM_cons, if_neg next, looped]
    rfl

/-- DLL 0 imports 1, which imports 2, which imports 0: the loads up to the first of these
imports, which is the last one to be recorded. -/
def ring : List Op :=
  [.construct .loadLibrary false, .construct .import_ false, .construct .import_ false,
    .importFound 0, .initDone, .entryDone true, .initDone]

/-- The load of a ring of three DLLs does not end. -/
theorem ring_not_survives : ¬ ∀ ops, Survives newLoader ops := by
  intro all
  have seen : (ring.foldlM (step 9) newLoader).map (fun t => (t.head, t.loading,
        t.object 0, t.object 1, t.object 2)) =
      .ok ([1, 2, 0], [⟨1, .import_, .entry⟩, ⟨0, .loadLibrary, .imports⟩],
        some ⟨1, 0, [], true, false, false, false, false⟩,
        some ⟨1, 0, [2], true, false, true, false, false⟩,
        some ⟨1, 0, [0], true, false, true, false, false⟩) := rfl
  rcases ran : ring.foldlM (step 9) newLoader with _ | t
  · rw [ran] at seen
    cases seen
  rw [ran] at seen
  simp only [Except.map, Except.ok.injEq, Prod.mk.injEq] at seen
  obtain ⟨head, loading, first, second, third⟩ := seen
  obtain ⟨_, fuel, u, last, _⟩ := (all (ring ++ [.entryDone true])).after 9 ran
  have looped := setUnloadOrder_ring fuel (a := 0) (b := 1) (c := 2)
    (s := { t with loading := [⟨0, .loadLibrary, .imports⟩] }.set 0
      ⟨1, 0, [1], true, false, false, false, false⟩) (by decide) head
    (Loader.set_object_self ..) ((Loader.set_object_of_ne _ (by decide) _).trans second)
    ((Loader.set_object_of_ne _ (by decide) _).trans third) ⟨rfl, rfl, rfl⟩ ⟨rfl, rfl, rfl⟩
  simp only [step, loading, if_true, finish, bindImport, addDependency] at last
  rw [bind_ok] at last
  obtain ⟨v, bound, last⟩ := last
  rw [get_eq (s := { t with loading := [⟨0, .loadLibrary, .imports⟩] }) first] at bound
  cases bound
  rw [push, looped] at last
  cases last

end Odin32.DllList
