import Odin32.LoadLibraryFrame

/-! # What a load keeps

Whether it fails or not, a load takes away none of the objects that were there before it. -/

set_option autoImplicit false

namespace Odin32.LoadLibrary

open DllList OrderedList ImageTls

variable {env : Env}

/-! ## The calls, taken apart -/

theorem onLoader_ok {f : Loader → Except Fault Loader} {s t : System} (called : s.onLoader f = .ok t) :
    ∃ loader, f s.loader = .ok loader ∧ t = { s with loader := loader } := by
  unfold System.onLoader at called
  rw [bind_ok] at called
  obtain ⟨loader, inner, called⟩ := called
  cases called
  exact ⟨loader, inner, rfl⟩

/-- The list with the object of a new DLL, not yet put in. -/
def withNew (s : Loader) (flags : Flags) : Loader :=
  { s.set s.created (newDll flags.disableLibraryCalls) with created := s.created + 1 }

theorem construct_ok {fuel : ℕ} {parent : Option Dll} {name : String} {flags : Flags} {s t : System}
    (called : construct fuel parent name flags s = .ok t) : ∃ loader,
      setUnloadOrder fuel parent s.loader.created (withNew s.loader flags) = .ok loader ∧
      t = { s with
        loader := loader
        szModule := Function.update s.szModule s.loader.created name
        image := Function.update s.image s.loader.created
          (newImage s.loader.created flags.disableLibraryCalls) } := by
  unfold construct at called
  rw [bind_ok] at called
  obtain ⟨loader, inner, called⟩ := called
  cases called
  exact ⟨loader, inner, rfl⟩

/-- An import is bound: to a DLL that is found, to the executable, or to a DLL it loads. -/
inductive Binds (env : Env) (load : String → System → Except Fault (Option Dll × System)) (fuel : ℕ) (d : Dll)
    (name : String) (s t : System) : Prop where
  | found (dll : Dll) (u : System) (found : s.findModule name = some dll)
    (added : s.onLoader (addRef dll) = .ok u) (bound : u.onLoader (bindImport fuel d dll) = .ok t)
  | exe (absent : s.findModule name = none) (exe : env.exe = some name) (same : t = s)
  | loaded (dll : Dll) (u : System) (absent : s.findModule name = none)
    (other : env.exe ≠ some name) (loaded : load name s = .ok (some dll, u))
    (bound : u.onLoader (bindImport fuel d dll) = .ok t)

theorem processImports_cons {load : String → System → Except Fault (Option Dll × System)}
    {fuel : ℕ} {d : Dll} {import_ : Import} {rest : List Import} {s t : System} {rc : Bool}
    (called : processImports env load fuel d (import_ :: rest) s = .ok (rc, t)) :
    (∃ u, Binds env load fuel d import_.name s u ∧
      (import_.section_ = true ∧ processImports env load fuel d rest u = .ok (rc, t) ∨
        import_.section_ = false ∧ rc = false ∧ t = u)) ∨
    (s.findModule import_.name = none ∧ env.exe ≠ some import_.name ∧
      load import_.name s = .ok (none, t) ∧ rc = false) := by
  unfold processImports at called
  have rest_ {u : System} (called : (if import_.section_ then processImports env load fuel d rest u
      else pure (false, u)) = Except.ok (rc, t)) :
      import_.section_ = true ∧ processImports env load fuel d rest u = .ok (rc, t) ∨
        import_.section_ = false ∧ rc = false ∧ t = u := by
    split at called
    · next there => exact Or.inl ⟨there, called⟩
    · next there =>
      cases called
      exact Or.inr ⟨by simpa using there, rfl, rfl⟩
  simp only at called
  split at called
  · next dll found =>
    rw [bind_ok] at called
    obtain ⟨u, added, called⟩ := called
    simp only [pure_bind] at called
    rw [bind_ok] at called
    obtain ⟨v, bound, called⟩ := called
    exact Or.inl ⟨v, .found dll u found added bound, rest_ called⟩
  · next absent =>
    split at called
    · next exe =>
      simp only [pure_bind] at called
      exact Or.inl ⟨s, .exe absent exe rfl, rest_ called⟩
    · next other =>
      rw [bind_ok] at called
      obtain ⟨⟨dll, u⟩, loaded, called⟩ := called
      rcases dll with _ | dll
      · cases called
        exact Or.inr ⟨absent, other, loaded, rfl⟩
      · simp only [Option.map_some, pure_bind] at called
        rw [bind_ok] at called
        obtain ⟨v, bound, called⟩ := called
        exact Or.inl ⟨v, .loaded dll u absent other loaded bound, rest_ called⟩

theorem failure_ok {d : Dll} {s t : System} {rc : Bool} (called : failure d s = .ok (rc, t)) :
    rc = false ∧ ∃ o, s.loader.object d = some o ∧
      t = { s with loader := s.loader.set d { o with errorState := true } } := by
  unfold failure at called
  rw [bind_ok] at called
  obtain ⟨o, got, called⟩ := called
  cases called
  exact ⟨rfl, o, of_get got, rfl⟩

/-- How far `init` comes. -/
inductive Inits (env : Env) (load : String → System → Except Fault (Option Dll × System)) (fuel : ℕ) (d : Dll)
    (file : File) (flags : Flags) (s : System) : Bool → System → Prop where
  | headers {t : System} (bad : (file.headers && (flags.asDatafile || file.directories)) = false)
    (failed : failure d s = .ok (false, t)) : Inits env load fuel d file flags s false t
  | skipped (good : (file.headers && (flags.asDatafile || file.directories)) = true)
    (skip : flags.disableLibraryCalls = true) :
    Inits env load fuel d file flags s true (tlsInit env d file flags s)
  | moduleNames {t : System}
    (good : (file.headers && (flags.asDatafile || file.directories)) = true)
    (calls : flags.disableLibraryCalls = false) (bad : file.moduleNames = false)
    (failed : failure d (tlsInit env d file flags s) = .ok (false, t)) :
    Inits env load fuel d file flags s false t
  | bound {t : System} (good : (file.headers && (flags.asDatafile || file.directories)) = true)
    (calls : flags.disableLibraryCalls = false) (names : file.moduleNames = true)
    (bound : processImports env load fuel d file.imports (tlsInit env d file flags s) =
      .ok (true, t)) : Inits env load fuel d file flags s true t
  | imports {t u : System} (good : (file.headers && (flags.asDatafile || file.directories)) = true)
    (calls : flags.disableLibraryCalls = false) (names : file.moduleNames = true)
    (unbound : processImports env load fuel d file.imports (tlsInit env d file flags s) =
      .ok (false, u)) (failed : failure d u = .ok (false, t)) :
    Inits env load fuel d file flags s false t

theorem init_ok {load : String → System → Except Fault (Option Dll × System)} {fuel : ℕ} {d : Dll}
    {file : File} {flags : Flags} {s t : System} {rc : Bool}
    (called : init env load fuel d file flags s = .ok (rc, t)) :
    Inits env load fuel d file flags s rc t := by
  unfold init at called
  split at called
  swap
  · next bad =>
    obtain ⟨rfl, _⟩ := failure_ok called
    exact .headers (by simpa using bad) called
  next good =>
  simp only at called
  split at called
  · next skip =>
    cases called
    exact .skipped good skip
  next calls =>
  split at called
  swap
  · next bad =>
    obtain ⟨rfl, _⟩ := failure_ok called
    exact .moduleNames good (by simpa using calls) (by simpa using bad) called
  next names =>
  rw [bind_ok] at called
  obtain ⟨⟨rc', u⟩, imports, called⟩ := called
  simp only at called
  cases rc' with
  | true =>
    cases called
    exact .bound good (by simpa using calls) names imports
  | false =>
    obtain ⟨rfl, _⟩ := failure_ok called
    exact .imports good (by simpa using calls) names imports called

theorem attachProcess_ok {d : Dll} {file : File} {s t : System} {rc : Bool}
    (called : attachProcess d file s = .ok (rc, t)) : ∃ o, s.loader.object d = some o ∧
      s.onLoader (DllList.attachProcess d) = .ok t ∧
      rc = (o.fAttachedToProcess || o.fSkipEntryCalls || !(t.image d).dllEntryPoint ||
        file.dllMain) := by
  unfold attachProcess at called
  rw [bind_ok] at called
  obtain ⟨o, got, called⟩ := called
  rw [bind_ok] at called
  obtain ⟨u, attached, called⟩ := called
  refine ⟨o, of_get got, ?_⟩
  split at called
  · next through =>
    cases called
    exact ⟨attached, by rw [through, Bool.true_or]⟩
  · next asked =>
    cases called
    exact ⟨attached, by rw [Bool.not_eq_true] at asked; rw [asked, Bool.false_or]⟩

theorem loadPeDll_ok {load : Dll → String → System → Except Fault (Option Dll × System)} {fuel : ℕ}
    {parent : Option Dll} {name : String} {file : File} {flags : Flags} {s t : System}
    {answer : Option Dll}
    (called : loadPeDll env load fuel parent name file flags s = .ok (answer, t)) :
    ∃ u v rc, construct fuel parent name flags s = .ok u ∧
      Inits env (load s.loader.created) fuel s.loader.created file flags u rc v ∧
      (rc = false ∧ answer = none ∧ delete env s.loader.created v = .ok t ∨
        rc = true ∧ ∃ w x rc', v.onLoader (addRef s.loader.created) = .ok w ∧
          attachProcess s.loader.created file w = .ok (rc', x) ∧
          (rc' = true ∧ answer = some s.loader.created ∧ t = x ∨
            rc' = false ∧ answer = none ∧ delete env s.loader.created x = .ok t)) := by
  unfold loadPeDll at called
  rw [bind_ok] at called
  obtain ⟨u, constructed, called⟩ := called
  rw [bind_ok] at called
  obtain ⟨⟨rc, v⟩, inits, called⟩ := called
  refine ⟨u, v, rc, constructed, init_ok inits, ?_⟩
  cases rc with
  | false =>
    simp only [Bool.false_eq_true, if_false] at called
    rw [bind_ok] at called
    obtain ⟨w, deleted, called⟩ := called
    cases called
    exact Or.inl ⟨rfl, rfl, deleted⟩
  | true =>
    simp only [if_true] at called
    rw [bind_ok] at called
    obtain ⟨w, added, called⟩ := called
    rw [bind_ok] at called
    obtain ⟨⟨rc', x⟩, attached, called⟩ := called
    refine Or.inr ⟨rfl, w, x, rc', added, attached, ?_⟩
    cases rc' with
    | true =>
      cases called
      exact Or.inl ⟨rfl, rfl, rfl⟩
    | false =>
      simp only [Bool.false_eq_true, if_false] at called
      rw [bind_ok] at called
      obtain ⟨y, deleted, called⟩ := called
      cases called
      exact Or.inr ⟨rfl, rfl, deleted⟩

theorem delete_eq {d : Dll} {s t : System} (called : delete env d s = .ok t) :
    ∃ o loader, s.loader.object d = some o ∧ DllList.delete d s.loader = .ok loader ∧
      t = { s with
        loader := loader
        process := s.process.destroy env.thread { s.image d with
          errorState := if o.errorState || o.fUnloaded then errorInternal else 0 } } := by
  unfold delete at called
  rw [bind_ok] at called
  obtain ⟨o, got, called⟩ := called
  rw [bind_ok] at called
  obtain ⟨loader, deleted, called⟩ := called
  cases called
  exact ⟨o, loader, of_get got, deleted, rfl⟩

/-! ## What is kept -/

structure Kept (n : ℕ) (s t : System) : Prop where
  grows : Grows n s.loader t.loader
  names : ∀ e < n, t.szModule e = s.szModule e

theorem Kept.refl (n : ℕ) (s : System) : Kept n s s := ⟨Grows.refl n _, fun _ _ => rfl⟩

theorem Kept.trans {n : ℕ} {s t u : System} (first : Kept n s t) (second : Kept n t u) :
    Kept n s u :=
  ⟨first.grows.trans second.grows, fun e below => (second.names e below).trans (first.names e below)⟩

theorem Kept.mono {n m : ℕ} {s t : System} (kept : Kept n s t) (le : m ≤ n) : Kept m s t :=
  ⟨kept.grows.mono le, fun e below => kept.names e (Nat.lt_of_lt_of_le below le)⟩

theorem onLoader_kept {f : Loader → Except Fault Loader} {s t : System}
    (kept : ∀ l, f s.loader = .ok l → Sound l ∧ ∀ n, Grows n s.loader l)
    (called : s.onLoader f = .ok t) : Sound t.loader ∧ ∀ n, Kept n s t := by
  obtain ⟨loader, inner, rfl⟩ := onLoader_ok called
  obtain ⟨sound, grows⟩ := kept loader inner
  exact ⟨sound, fun n => ⟨grows n, fun _ _ => rfl⟩⟩

theorem addRef_kept {d : Dll} {s t : System} (sound : Sound s.loader)
    (called : s.onLoader (addRef d) = .ok t) : Sound t.loader ∧ ∀ n, Kept n s t := by
  refine onLoader_kept (fun l inner => ?_) called
  obtain ⟨o, here, rfl⟩ := addRef_ok inner
  exact ⟨set_sound_same sound here rfl, set_grows here (Int.le_add_one (le_refl o.referenced))⟩

theorem failure_kept {d : Dll} {s t : System} {rc : Bool} (sound : Sound s.loader)
    (called : failure d s = .ok (rc, t)) : Sound t.loader ∧ ∀ n, Kept n s t := by
  obtain ⟨_, o, here, rfl⟩ := failure_ok called
  exact ⟨set_sound_same sound here rfl, fun n => ⟨set_grows here (by exact le_refl _) n, fun _ _ => rfl⟩⟩

theorem attach_kept {d : Dll} {s t : System} (sound : Sound s.loader)
    (called : s.onLoader (DllList.attachProcess d) = .ok t) :
    Sound t.loader ∧ ∀ n, Kept n s t := by
  refine onLoader_kept (fun l inner => ?_) called
  obtain ⟨o, here, rfl | rfl⟩ := attach_ok inner
  · exact ⟨sound, fun n => Grows.refl n _⟩
  · exact ⟨set_sound_same sound here rfl, set_grows here (le_refl _)⟩

theorem delete_kept {d : Dll} {s t : System} {n : ℕ} (sound : Sound s.loader) (above : n ≤ d)
    (called : delete env d s = .ok t) : Sound t.loader ∧ Kept n s t := by
  obtain ⟨_, loader, _, deleted, rfl⟩ := delete_eq called
  obtain ⟨head, created, gone, object⟩ := delete_ok deleted
  refine ⟨⟨?_, ?_, ?_⟩, ⟨?_, ?_, ?_⟩, fun _ _ => rfl⟩
  · intro e ge
    rw [created] at ge
    by_cases same : e = d
    · exact same ▸ gone
    · exact (object e same).trans (sound.fresh e ge)
  · intro e inside
    rw [head] at inside
    rw [created]
    exact sound.below e (List.mem_of_mem_erase inside)
  · intro e inside
    unfold Loader.deps at inside
    by_cases same : e = d
    · rw [same, gone] at inside
      cases inside
    · rw [object e same] at inside
      exact sound.own e inside
  · exact created.ge
  · intro e below o here
    have other : e ≠ d := (Nat.lt_of_lt_of_le below above).ne
    exact ⟨o, (object e other).trans here, le_refl _⟩
  · intro e below inside
    have other : e ≠ d := (Nat.lt_of_lt_of_le below above).ne
    rw [head]
    exact (List.mem_erase_of_ne other).mpr inside

theorem withNew_sound {s : Loader} (sound : Sound s) (flags : Flags) : Sound (withNew s flags) where
  fresh := by
    intro e ge
    have other : e ≠ s.created := (Nat.lt_of_succ_le ge).ne'
    exact (Loader.set_object_of_ne _ other _).trans (sound.fresh e (Nat.le_of_succ_le ge))
  below := fun e inside => Nat.lt_succ_of_lt (sound.below e inside)
  own := by
    intro e inside
    change e ∈ (s.set s.created (newDll flags.disableLibraryCalls)).deps e at inside
    rw [deps_set] at inside
    split at inside
    · cases inside
    · exact sound.own e inside

theorem place_new_some {parent : Option Dll} {d : Dll} {s : Loader}
    {found : Option (Option Dll × List Dll)} (placed : place s parent d false = .ok found) :
    ∃ parentdll list, found = some (parentdll, list) ∧ d ∈ list := by
  rcases found with _ | ⟨parentdll, list⟩
  · unfold place at placed
    rcases parent with _ | p
    · cases placed
    · simp only at placed
      rw [bind_ok] at placed
      obtain ⟨_, _, placed⟩ := placed
      rw [bind_ok] at placed
      obtain ⟨walked, _, placed⟩ := placed
      rcases walked with _ | next <;> cases placed
  · refine ⟨parentdll, list, rfl, ?_⟩
    rcases place_some placed with ⟨p, inside, _, rfl⟩ | ⟨_, rfl⟩
    · exact (insertAfter_perm inside).mem_iff.mpr List.mem_cons_self
    · exact List.mem_cons_self

theorem setUnloadOrder_mem {P : Dll → Prop} [DecidablePred P] {fuel : ℕ} {parent : Option Dll}
    {d : Dll} {s t : Loader} {object : Win32DllBase} (closed : Closed P s) (own : P d)
    (apart : parent ≠ some d) (here : s.object d = some object) (new : object.fInserted = false)
    (called : setUnloadOrder fuel parent d s = .ok t) : d ∈ t.head := by
  cases fuel with
  | zero => cases called
  | succ fuel =>
    unfold setUnloadOrder at called
    rw [get_eq here] at called
    simp only [bind, Except.bind] at called
    split at called
    · cases called
    next found placed =>
    rw [new] at placed
    obtain ⟨parentdll, list, rfl, inside⟩ := place_new_some placed
    rw [← new] at placed
    have first := placed_moves here own apart placed
    have closed' : Closed P ({ s with head := list }.set d { object with fInserted := true }) := by
      unfold Closed
      rw [first.deps]
      exact closed
    refine (foldlM_moves ?_ closed' called).members d inside
    intro v queued u w closed'' child
    by_cases same : some v = parentdll
    · rw [if_pos same] at child
      cases child
      exact Moves.refl _
    · rw [if_neg same] at child
      obtain ⟨own', other⟩ := closed d own v (by rwa [deps_eq here])
      exact setUnloadOrder_moves fuel closed'' own' (fun same => other (Option.some.inj same).symm)
        child

theorem construct_kept {fuel : ℕ} {parent : Option Dll} {name : String} {flags : Flags}
    {s t : System} (sound : Sound s.loader) (apart : parent ≠ some s.loader.created)
    (called : construct fuel parent name flags s = .ok t) :
    Sound t.loader ∧ Kept s.loader.created s t ∧ s.loader.created ∈ t.loader.head ∧
      t.szModule s.loader.created = name := by
  obtain ⟨loader, inner, rfl⟩ := construct_ok called
  have sound' := withNew_sound sound flags
  have moves := sound'.moves apart inner
  refine ⟨moves_sound moves sound', ⟨?_, ?_⟩, ?_, Function.update_self ..⟩
  · have first : Grows s.loader.created s.loader (withNew s.loader flags) :=
      ⟨Nat.le_succ _, fun e below o here =>
        ⟨o, (Loader.set_object_of_ne _ below.ne _).trans here, le_refl _⟩, fun _ _ => id⟩
    exact first.trans (moves_grows moves _)
  · intro e below
    exact Function.update_of_ne below.ne ..
  · exact setUnloadOrder_mem sound'.closed trivial apart (Loader.set_object_self ..) rfl inner

/-- No DLL imports itself. -/
def NoSelf (env : Env) : Prop :=
  ∀ name file, env.files name = some file → ∀ import_ ∈ file.imports, import_.name ≠ name

theorem szModule_of_find {s : System} {name : String} {d : Dll}
    (found : s.findModule name = some d) : s.szModule d = name := by
  unfold System.findModule at found
  simpa using List.find?_some found

/-- What a load keeps, and the DLL that it gives. -/
def LoadKeeps (load : String → System → Except Fault (Option Dll × System)) (above : ℕ) : Prop :=
  ∀ {name : String} {s t : System} {answer : Option Dll}, Sound s.loader →
    above < s.loader.created → load name s = .ok (answer, t) →
    Sound t.loader ∧ Kept s.loader.created s t ∧
      ∀ d, answer = some d → s.loader.created ≤ d ∧ d ∈ t.loader.head

section

variable {load : String → System → Except Fault (Option Dll × System)} {fuel : ℕ} {d : Dll}
  (keeps : LoadKeeps load d)

include keeps

theorem binds_kept {name : String} {s t : System} (sound : Sound s.loader)
    (below : d < s.loader.created) (other : name ≠ s.szModule d)
    (binds : Binds env load fuel d name s t) :
    Sound t.loader ∧ Kept s.loader.created s t := by
  have bind_ {dll : Dll} {u : System} (sound : Sound u.loader) (apart : d ≠ dll)
      (bound : u.onLoader (bindImport fuel d dll) = .ok t) : Sound t.loader ∧ ∀ n, Kept n u t :=
    onLoader_kept (fun l inner => bindImport_kept sound apart inner) bound
  cases binds with
  | found dll u found added bound =>
    obtain ⟨sound', kept⟩ := addRef_kept sound added
    have apart : d ≠ dll := by
      rintro rfl
      exact other (szModule_of_find found).symm
    obtain ⟨sound'', kept'⟩ := bind_ sound' apart bound
    exact ⟨sound'', (kept _).trans (kept' _)⟩
  | exe absent exe same =>
    subst same
    exact ⟨sound, Kept.refl _ _⟩
  | loaded dll u absent other' loaded bound =>
    obtain ⟨sound', kept, new⟩ := keeps sound below loaded
    have apart : d ≠ dll := (Nat.lt_of_lt_of_le below (new dll rfl).1).ne
    obtain ⟨sound'', kept'⟩ := bind_ sound' apart bound
    exact ⟨sound'', kept.trans (kept' _)⟩

theorem processImports_kept {imports : List Import} {s t : System} {rc : Bool}
    (sound : Sound s.loader) (below : d < s.loader.created)
    (others : ∀ import_ ∈ imports, import_.name ≠ s.szModule d)
    (called : processImports env load fuel d imports s = .ok (rc, t)) :
    Sound t.loader ∧ Kept s.loader.created s t := by
  induction imports generalizing s with
  | nil =>
    cases called
    exact ⟨sound, Kept.refl _ _⟩
  | cons import_ rest ih =>
    rcases processImports_cons called with ⟨u, binds, further⟩ | ⟨_, _, loaded, _⟩
    · obtain ⟨sound', kept⟩ := binds_kept keeps sound below (others _ List.mem_cons_self) binds
      rcases further with ⟨_, called⟩ | ⟨_, _, rfl⟩
      · have others' : ∀ import_ ∈ rest, import_.name ≠ u.szModule d := by
          intro import_ inside
          rw [kept.names d below]
          exact others import_ (List.mem_cons_of_mem _ inside)
        obtain ⟨sound'', kept'⟩ :=
          ih sound' (Nat.lt_of_lt_of_le below kept.grows.created) others' called
        exact ⟨sound'', kept.trans (kept'.mono kept.grows.created)⟩
      · exact ⟨sound', kept⟩
    · obtain ⟨sound', kept, _⟩ := keeps sound below loaded
      exact ⟨sound', kept⟩

theorem inits_kept {file : File} {flags : Flags} {s t : System} {rc : Bool}
    (sound : Sound s.loader) (below : d < s.loader.created)
    (others : ∀ import_ ∈ file.imports, import_.name ≠ s.szModule d)
    (inits : Inits env load fuel d file flags s rc t) :
    Sound t.loader ∧ Kept s.loader.created s t := by
  have tls : Kept s.loader.created s (tlsInit env d file flags s) :=
    ⟨Grows.refl _ s.loader, fun _ _ => rfl⟩
  cases inits with
  | headers _ failed =>
    obtain ⟨sound', kept⟩ := failure_kept sound failed
    exact ⟨sound', kept _⟩
  | skipped _ _ => exact ⟨sound, tls⟩
  | moduleNames _ _ _ failed =>
    obtain ⟨sound', kept⟩ := failure_kept (s := tlsInit env d file flags s) sound failed
    exact ⟨sound', tls.trans (kept _)⟩
  | bound _ _ _ bound =>
    obtain ⟨sound', kept⟩ := processImports_kept keeps (s := tlsInit env d file flags s) sound below
      others bound
    exact ⟨sound', tls.trans kept⟩
  | imports _ _ _ unbound failed =>
    obtain ⟨sound', kept⟩ := processImports_kept keeps (s := tlsInit env d file flags s) sound below
      others unbound
    obtain ⟨sound'', kept'⟩ := failure_kept sound' failed
    exact ⟨sound'', (tls.trans kept).trans (kept' _)⟩

end

theorem loadPeDll_kept {load : Dll → String → System → Except Fault (Option Dll × System)}
    {fuel : ℕ} {parent : Option Dll} {name : String} {file : File} {flags : Flags} {s t : System}
    {answer : Option Dll} (noSelf : NoSelf env) (keeps : ∀ d, LoadKeeps (load d) d)
    (sound : Sound s.loader) (apart : parent ≠ some s.loader.created)
    (file_ : env.files name = some file)
    (called : loadPeDll env load fuel parent name file flags s = .ok (answer, t)) :
    Sound t.loader ∧ Kept s.loader.created s t ∧
      ∀ d, answer = some d → s.loader.created ≤ d ∧ d ∈ t.loader.head := by
  obtain ⟨u, v, rc, constructed, inits, ends⟩ := loadPeDll_ok called
  obtain ⟨sound₁, kept₁, inside, named⟩ := construct_kept sound apart constructed
  have below := sound₁.below _ inside
  obtain ⟨sound₂, kept₂⟩ := inits_kept (keeps s.loader.created) sound₁ below (by
    rw [named]
    exact noSelf name file file_) inits
  have upTo := kept₁.trans (kept₂.mono kept₁.grows.created)
  have inside₂ := kept₂.grows.members _ below inside
  rcases ends with ⟨rfl, rfl, deleted⟩ | ⟨rfl, w, x, rc', added, attached, ends⟩
  · obtain ⟨sound₃, kept₃⟩ := delete_kept sound₂ (Nat.le_refl _) deleted
    exact ⟨sound₃, upTo.trans kept₃, nofun⟩
  · obtain ⟨sound₃, kept₃⟩ := addRef_kept sound₂ added
    obtain ⟨_, _, attached, _⟩ := attachProcess_ok attached
    obtain ⟨sound₄, kept₄⟩ := attach_kept sound₃ attached
    have upTo' := upTo.trans ((kept₃ _).trans (kept₄ _))
    rcases ends with ⟨rfl, rfl, rfl⟩ | ⟨rfl, rfl, deleted⟩
    · refine ⟨sound₄, upTo', ?_⟩
      rintro d ⟨⟩
      have inside₃ := (kept₃ (s.loader.created + 1)).grows.members _ (Nat.lt_succ_self _) inside₂
      exact ⟨Nat.le_refl _,
        (kept₄ (s.loader.created + 1)).grows.members _ (Nat.lt_succ_self _) inside₃⟩
    · obtain ⟨sound₅, kept₅⟩ := delete_kept sound₄ (Nat.le_refl _) deleted
      exact ⟨sound₅, upTo'.trans kept₅, nofun⟩

theorem loadDll_kept (noSelf : NoSelf env) (fuel : ℕ) (parent : Dll) :
    LoadKeeps (loadDll env fuel parent) parent := by
  induction fuel generalizing parent with
  | zero =>
    intro name s t answer _ _ called
    cases called
  | succ fuel ih =>
    intro name s t answer sound below called
    unfold loadDll at called
    split at called
    · cases called
      exact ⟨sound, Kept.refl _ _, nofun⟩
    · next file file_ =>
      exact loadPeDll_kept noSelf ih sound (fun same => below.ne (Option.some.inj same)) file_ called

end Odin32.LoadLibrary
