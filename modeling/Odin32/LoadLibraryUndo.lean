import Odin32.DllRelease
import Odin32.LoadLibraryTls

/-! # Failed loads

A load that fails leaves nothing behind where none of the images that are given up has bound
anything that stays, or had got a TLS index. -/

set_option autoImplicit false

namespace Odin32.LoadLibrary

open DllList OrderedList ImageTls Tls

variable {env : Env}

/-- No DLL imports itself, neither those of the list nor those on disk. -/
def Straight (env : Env) (s : System) : Prop := NoSelf env ∧ ∀ d, d ∉ s.loader.deps d

/-- A module that was there has more references, or there is a new one that is not going to be
deleted. -/
def Lasting (s : System) (chain : List Dll) (t : System) : Prop :=
  (∃ e ∈ s.loader.head, ∃ o o', s.loader.object e = some o ∧ t.loader.object e = some o' ∧
    o.referenced < o'.referenced) ∨
  ∃ e ∈ t.loader.head, s.loader.created ≤ e ∧ e ∉ chain

theorem Lasting.kept {s t u : System} {chain : List Dll} (lasting : Lasting s chain u)
    (ready : Ready s) (sound : Sound u.loader) {n : ℕ} (created : u.loader.created ≤ n)
    (old : s.loader.created ≤ u.loader.created) (kept : Kept n u t) : Lasting s chain t := by
  rcases lasting with ⟨e, inside, o, o', before, after, more⟩ | ⟨e, inside, ge, outside⟩
  · have below : e < n := Nat.lt_of_lt_of_le (ready.below inside) (old.trans created)
    obtain ⟨o'', after', le⟩ := kept.grows.kept e below o' after
    exact Or.inl ⟨e, inside, o, o'', before, after', Int.lt_of_lt_of_le more le⟩
  · have below : e < n := Nat.lt_of_lt_of_le (sound.below e inside) created
    exact Or.inr ⟨e, kept.grows.members e below inside, ge, outside⟩

theorem Lasting.delete {s t u : System} {d : Dll} {chain : List Dll}
    (lasting : Lasting s (d :: chain) u) (ready : Ready s) (new : s.loader.created ≤ d)
    (called : delete env d u = .ok t) : Lasting s chain t := by
  obtain ⟨_, loader, _, deleted, rfl⟩ := delete_eq called
  obtain ⟨head, _, _, object⟩ := delete_ok deleted
  rcases lasting with ⟨e, inside, o, o', before, after, more⟩ | ⟨e, inside, ge, outside⟩
  · have other : e ≠ d := (Nat.lt_of_lt_of_le (ready.below inside) new).ne
    exact Or.inl ⟨e, inside, o, o', before, (object e other).trans after, more⟩
  · rw [List.mem_cons, not_or] at outside
    refine Or.inr ⟨e, ?_, ge, outside.2⟩
    change e ∈ loader.head
    rw [head]
    exact (List.mem_erase_of_ne outside.1).mpr inside

/-- How a load ends, as far as it matters to those above it. -/
inductive LoadEnds (env : Env) (s : System) (chain : List Dll) (loading : List String)
    (name : String) (u : System) : Option Dll → System → Prop where
  | falls {t : System} (leaks : List File) (leaf : Option File)
    (falls : Falls env s loading name leaks leaf) (quiet : Quiet env s chain loading t)
    (image : ∀ e ∈ chain, t.image e = u.image e)
    (pdb : t.process.pdb = tlsAfter leaks leaf u.process.pdb) :
    LoadEnds env s chain loading name u none t
  | lasts {answer : Option Dll} {t : System}
    (stays : ∀ leaks leaf, ¬ Falls env s loading name leaks leaf)
    (lasting : Straight env s → answer = none → Lasting s chain t) :
    LoadEnds env s chain loading name u answer t

def LoadSpec (env : Env) (s : System)
    (load : String → System → Except Fault (Option Dll × System)) (above : Dll) : Prop :=
  ∀ {chain : List Dll} {loading : List String} {name : String} {u t : System}
    {answer : Option Dll}, Quiet env s chain loading u → above ∈ chain →
    s.findModule name = none → env.exe ≠ some name → name ∉ loading →
    load name u = .ok (answer, t) → LoadEnds env s chain loading name u answer t

/-- How the imports of an image end. -/
inductive ImportsEnd (env : Env) (s : System) (chain : List Dll) (loading : List String)
    (name : String) (imports : List Import) (u : System) : Bool → System → Prop where
  | bound {t : System} (stops : stopsAt env s loading imports = none)
    (quiet : Quiet env s chain (name :: loading) t) (image : ∀ e ∈ chain, t.image e = u.image e)
    (pdb : t.process.pdb = u.process.pdb) : ImportsEnd env s chain loading name imports u true t
  | section_ {t : System} {import_ : Import} (stops : stopsAt env s loading imports = some import_)
    (passing : Passing env s loading import_.name)
    (quiet : Quiet env s chain (name :: loading) t) (image : ∀ e ∈ chain, t.image e = u.image e)
    (pdb : t.process.pdb = u.process.pdb) : ImportsEnd env s chain loading name imports u false t
  | import_ {t : System} {import_ : Import} {leaks : List File} {leaf : Option File}
    (stops : stopsAt env s loading imports = some import_)
    (passing : ¬ Passing env s loading import_.name) (other : import_.name ≠ name)
    (absent : s.findModule import_.name = none)
    (falls : Falls env s (name :: loading) import_.name leaks leaf)
    (quiet : Quiet env s chain (name :: loading) t) (image : ∀ e ∈ chain, t.image e = u.image e)
    (pdb : t.process.pdb = tlsAfter leaks leaf u.process.pdb) :
    ImportsEnd env s chain loading name imports u false t
  | lasts {rc : Bool} {t : System} {import_ : Import}
    (stops : stopsAt env s loading imports = some import_)
    (passing : ¬ Passing env s loading import_.name)
    (stays : import_.name ≠ name → s.findModule import_.name = none →
      ∀ leaks leaf, ¬ Falls env s (name :: loading) import_.name leaks leaf)
    (lasting : Straight env s → Sound t.loader ∧ s.loader.created ≤ t.loader.created ∧
      Lasting s chain t) : ImportsEnd env s chain loading name imports u rc t

theorem stopsAt_cons_passing {s : System} {loading : List String} {import_ : Import}
    {rest : List Import} (passing : Passing env s loading import_.name)
    (there : import_.section_ = true) :
    stopsAt env s loading (import_ :: rest) = stopsAt env s loading rest := by
  unfold stopsAt
  rw [List.find?_cons_of_neg]
  simp [passing, there]

theorem stopsAt_cons_section {s : System} {loading : List String} {import_ : Import}
    {rest : List Import} (there : import_.section_ = false) :
    stopsAt env s loading (import_ :: rest) = some import_ := by
  unfold stopsAt
  rw [List.find?_cons_of_pos]
  simp [there]

theorem stopsAt_cons_not {s : System} {loading : List String} {import_ : Import}
    {rest : List Import} (passing : ¬ Passing env s loading import_.name) :
    stopsAt env s loading (import_ :: rest) = some import_ := by
  unfold stopsAt
  rw [List.find?_cons_of_pos]
  simp [passing]

section Imports

variable {s : System} {load : String → System → Except Fault (Option Dll × System)} {fuel : ℕ}
  {d : Dll} {chain : List Dll} {name : String} {loading : List String} {u : System}

theorem Binds.passing {import_ : Import} {t : System}
    (quiet : Quiet env s (d :: chain) (name :: loading) u) (newest : ∀ e ∈ chain, e < d)
    (other : import_.name ≠ name) (spec : LoadSpec env s load d)
    (passing : Passing env s loading import_.name)
    (binds : Binds env load fuel d import_.name u t) :
    Quiet env s (d :: chain) (name :: loading) t ∧ (∀ e ∈ d :: chain, t.image e = u.image e) ∧
      t.process.pdb = u.process.pdb := by
  have absent : s.findModule import_.name = none := by
    rcases passing with listed | ⟨absent, _⟩
    · exact (quiet.absent _ (List.mem_cons_of_mem _ listed)).1
    · exact absent
  cases binds with
  | found dll v found added bound =>
    have inside := quiet.find_loading absent found
    have own : dll ≠ d := by
      rintro rfl
      have first := (List.cons.inj quiet.names).1
      exact other ((szModule_of_find found).symm.trans first)
    have inside' := (List.mem_cons.mp inside).resolve_left own
    refine ⟨quiet.bound List.mem_cons_self inside (newest dll inside') added bound, ?_⟩
    obtain ⟨_, _, rfl⟩ := onLoader_ok added
    obtain ⟨_, _, rfl⟩ := onLoader_ok bound
    exact ⟨fun _ _ => rfl, rfl⟩
  | exe _ _ same =>
    subst same
    exact ⟨quiet, fun _ _ => rfl, rfl⟩
  | loaded dll v none_ other' _ _ =>
    rcases passing with listed | ⟨_, exe⟩
    · exact absurd (List.mem_cons_of_mem _ listed) (quiet.find_none none_).2
    · exact absurd exe other'

theorem Binds.lasting {import_ : Import} {t : System} (ready : Ready s) (straight : Straight env s)
    (quiet : Quiet env s (d :: chain) (name :: loading) u) (keeps : LoadKeeps load d)
    (other : import_.name ≠ name) (passing : ¬ Passing env s loading import_.name)
    (binds : Binds env load fuel d import_.name u t) : Lasting s (d :: chain) t := by
  have sound := quiet.sound straight.2
  have below := (quiet.range d List.mem_cons_self).2
  have own := (List.cons.inj quiet.names).1
  have other' : import_.name ≠ u.szModule d := own ▸ other
  cases binds with
  | found dll v found added bound =>
    by_cases absent : s.findModule import_.name = none
    · have inside := quiet.find_loading absent found
      exfalso
      rcases List.mem_cons.mp inside with rfl | inside
      · exact other' (szModule_of_find found).symm
      · refine passing (Or.inl ?_)
        rw [← (List.cons.inj quiet.names).2, ← szModule_of_find found]
        exact List.mem_map_of_mem inside
    · have inside := quiet.find_old absent found
      obtain ⟨sound', kept⟩ := addRef_kept sound added
      obtain ⟨l, counted, rfl⟩ := onLoader_ok added
      obtain ⟨o, here, rfl⟩ := addRef_ok counted
      have first : Lasting s (d :: chain)
          { u with loader := u.loader.set dll { o with referenced := o.referenced + 1 } } := by
        refine Or.inl ⟨dll, inside, o, _, ?_, Loader.set_object_self .., ?_⟩
        · rw [← quiet.old dll (ready.below inside)]
          exact here
        · exact Int.lt_succ o.referenced
      have apart : d ≠ dll := by
        rintro rfl
        exact other' (szModule_of_find found).symm
      obtain ⟨_, kept'⟩ :=
        onLoader_kept (fun l inner => bindImport_kept sound' apart inner) bound
      exact first.kept ready sound' (Nat.le_refl _) quiet.created (kept' _)
  | exe absent exe _ =>
    exact absurd (Or.inr ⟨(quiet.find_none absent).1, exe⟩) passing
  | loaded dll v absent notExe loaded bound =>
    obtain ⟨sound', kept, new⟩ := keeps sound below loaded
    obtain ⟨ge, inside⟩ := new dll rfl
    have first : Lasting s (d :: chain) v := by
      refine Or.inr ⟨dll, inside, quiet.created.trans ge, fun there => ?_⟩
      exact absurd (quiet.range dll there).2 (Nat.not_lt_of_le ge)
    have apart : d ≠ dll := (Nat.lt_of_lt_of_le below ge).ne
    obtain ⟨_, kept'⟩ := onLoader_kept (fun l inner => bindImport_kept sound' apart inner) bound
    exact first.kept ready sound' (Nat.le_refl _)
      (quiet.created.trans kept.grows.created) (kept' _)

theorem processImports_ends (ready : Ready s) (spec : LoadSpec env s load d)
    (keeps : Straight env s → LoadKeeps load d) (fresh : name ∉ loading)
    (newest : ∀ e ∈ chain, e < d) {imports : List Import}
    (others : Straight env s → ∀ import_ ∈ imports, import_.name ≠ name)
    (quiet : Quiet env s (d :: chain) (name :: loading) u) {rc : Bool} {t : System}
    (called : processImports env load fuel d imports u = .ok (rc, t)) :
    ImportsEnd env s (d :: chain) loading name imports u rc t := by
  induction imports generalizing u with
  | nil =>
    cases called
    exact .bound rfl quiet (fun _ _ => rfl) rfl
  | cons import_ rest ih =>
    have notExe := (quiet.absent name List.mem_cons_self).2
    rcases processImports_cons called with ⟨v, binds, further⟩ | ⟨none_, notExe', loaded, rfl⟩
    · by_cases passing : Passing env s loading import_.name
      · have other : import_.name ≠ name := by
          intro same
          rcases passing with listed | ⟨_, exe⟩
          · exact fresh (same ▸ listed)
          · exact notExe (same ▸ exe)
        obtain ⟨quiet', image, pdb⟩ := binds.passing quiet newest other spec passing
        rcases further with ⟨there, called⟩ | ⟨absent, rfl, rfl⟩
        · have stops : stopsAt env s loading (import_ :: rest) = stopsAt env s loading rest :=
            stopsAt_cons_passing passing there
          have ends := ih (fun straight i inside => others straight i (List.mem_cons_of_mem _ inside))
            quiet' called
          cases ends with
          | bound stops' quiet'' image' pdb' =>
            exact .bound (stops.trans stops') quiet''
              (fun e inside => (image' e inside).trans (image e inside)) (pdb'.trans pdb)
          | section_ stops' passing' quiet'' image' pdb' =>
            exact .section_ (stops.trans stops') passing' quiet''
              (fun e inside => (image' e inside).trans (image e inside)) (pdb'.trans pdb)
          | import_ stops' passing' other' absent falls quiet'' image' pdb' =>
            exact .import_ (stops.trans stops') passing' other' absent falls quiet''
              (fun e inside => (image' e inside).trans (image e inside)) (pdb ▸ pdb')
          | lasts stops' passing' stays lasting =>
            exact .lasts (stops.trans stops') passing' stays lasting
        · exact .section_ (stopsAt_cons_section absent) passing quiet' image pdb
      · refine .lasts (stopsAt_cons_not passing) passing ?_ ?_
        · intro other absent leaks leaf falls
          cases binds with
          | found dll v found _ _ =>
            have inside := quiet.find_loading absent found
            rcases List.mem_cons.mp inside with rfl | inside
            · exact other ((szModule_of_find found).symm.trans (List.cons.inj quiet.names).1)
            · refine passing (Or.inl ?_)
              rw [← (List.cons.inj quiet.names).2, ← szModule_of_find found]
              exact List.mem_map_of_mem inside
          | exe none_ exe _ => exact passing (Or.inr ⟨absent, exe⟩)
          | loaded dll v none_ notExe' loaded _ =>
            have ends := spec quiet List.mem_cons_self absent notExe' (quiet.find_none none_).2 loaded
            cases ends with
            | lasts stays _ => exact stays leaks leaf falls
        · intro straight
          have other := others straight import_ List.mem_cons_self
          have own := (List.cons.inj quiet.names).1
          have sound := quiet.sound straight.2
          have below := (quiet.range d List.mem_cons_self).2
          have first := binds.lasting ready straight quiet (keeps straight) other passing
          obtain ⟨sound', kept⟩ := binds_kept (keeps straight) sound below (own ▸ other) binds
          rcases further with ⟨_, called⟩ | ⟨_, _, rfl⟩
          · obtain ⟨sound'', kept'⟩ := processImports_kept (keeps straight) sound'
              (Nat.lt_of_lt_of_le below kept.grows.created) (by
                intro i inside
                rw [kept.names d below, own]
                exact others straight i (List.mem_cons_of_mem _ inside)) called
            have created := quiet.created.trans kept.grows.created
            exact ⟨sound'', created.trans kept'.grows.created,
              first.kept ready sound' (Nat.le_refl _) created kept'⟩
          · exact ⟨sound', quiet.created.trans kept.grows.created, first⟩
    · obtain ⟨absent, listed⟩ := quiet.find_none none_
      have passing : ¬ Passing env s loading import_.name := by
        rintro (there | ⟨_, exe⟩)
        · exact listed (List.mem_cons_of_mem _ there)
        · exact notExe' exe
      have ends := spec quiet List.mem_cons_self absent notExe' listed loaded
      cases ends with
      | falls leaks leaf falls quiet' image pdb =>
        exact .import_ (stopsAt_cons_not passing) passing
          (fun same => listed (same ▸ List.mem_cons_self)) absent falls quiet' image pdb
      | lasts stays lasting =>
        refine .lasts (stopsAt_cons_not passing) passing (fun _ _ => stays) fun straight => ?_
        obtain ⟨sound', kept, _⟩ := keeps straight (quiet.sound straight.2)
          (quiet.range d List.mem_cons_self).2 loaded
        exact ⟨sound', quiet.created.trans kept.grows.created, lasting straight rfl⟩

end Imports

/-! ## Whole loads -/

theorem abandoned {s u v t : System} {chain : List Dll} {loading : List String} {name : String}
    {d : Dll} (quiet : Quiet env s (d :: chain) (name :: loading) u)
    (newest : ∀ e ∈ chain, e < d) (failed : failure d u = .ok (false, v))
    (deleted : delete env d v = .ok t) :
    Quiet env s chain loading t ∧ t.image = u.image ∧ t.process.pdb = u.process.pdb := by
  obtain ⟨_, o, here, same⟩ := failure_ok failed
  refine ⟨quiet.delete newest same deleted, ?_⟩
  obtain ⟨o', loader, here', _, rfl⟩ := delete_eq deleted
  rw [same, Loader.set_object_self] at here'
  cases here'
  subst same
  exact ⟨rfl, destroy_pdb_error _ _ _ (by simp [errorInternal])⟩

theorem tlsInit_quiet {s u : System} {chain : List Dll} {loading : List String}
    (quiet : Quiet env s chain loading u) (d : Dll) (file : File) (flags : Flags) :
    Quiet env s chain loading (tlsInit env d file flags u) :=
  ⟨quiet.created, quiet.old, quiet.oldNames, quiet.front, quiet.nodup, quiet.placed, quiet.new,
    quiet.gone, quiet.range, quiet.deps, quiet.flags, quiet.names, quiet.absent⟩

theorem tlsInit_image {d e : Dll} (other : e ≠ d) (file : File) (flags : Flags) (u : System) :
    (tlsInit env d file flags u).image e = u.image e :=
  Function.update_of_ne other ..

theorem construct_image {fuel : ℕ} {parent : Option Dll} {name : String} {flags : Flags}
    {u t : System} (called : construct fuel parent name flags u = .ok t) :
    t.process = u.process ∧ (∀ e, e ≠ u.loader.created → t.image e = u.image e) ∧
      t.image u.loader.created = newImage u.loader.created flags.disableLibraryCalls := by
  obtain ⟨_, _, rfl⟩ := construct_ok called
  exact ⟨rfl, fun e other => Function.update_of_ne other .., Function.update_self ..⟩

section

variable {s : System} {loads : Dll → String → System → Except Fault (Option Dll × System)}
  {chain : List Dll} {loading : List String} {name : String} {u : System} {file : File}

theorem not_falls_of_bound (some_ : env.files name = some file)
    (good : (file.headers && file.directories) = true) (names : file.moduleNames = true)
    (stops : stopsAt env s loading file.imports = none)
    (through : (file.isDll && file.entryPoint) = true → file.dllMain = true) (leaks : List File)
    (leaf : Option File) : ¬ Falls env s loading name leaks leaf := by
  intro falls
  cases falls with
  | notFound none_ =>
    rw [none_] at some_
    cases some_
  | headers some_' bad =>
    rw [some_'] at some_
    cases some_
    rw [good] at bad
    cases bad
  | moduleNames some_' _ bad =>
    rw [some_'] at some_
    cases some_
    rw [names] at bad
    cases bad
  | section_ some_' _ _ stops' _ =>
    rw [some_'] at some_
    cases some_
    rw [stops] at stops'
    cases stops'
  | import_ some_' _ _ stops' _ _ _ _ =>
    rw [some_'] at some_
    cases some_
    rw [stops] at stops'
    cases stops'
  | entryPoint some_' _ _ _ entry refuses =>
    rw [some_'] at some_
    cases some_
    rw [through entry] at refuses
    cases refuses

theorem not_falls_of_lasting {import_ : Import} (some_ : env.files name = some file)
    (good : (file.headers && file.directories) = true) (names : file.moduleNames = true)
    (stops : stopsAt env s loading file.imports = some import_)
    (passing : ¬ Passing env s loading import_.name)
    (stays : import_.name ≠ name → s.findModule import_.name = none →
      ∀ leaks leaf, ¬ Falls env s (name :: loading) import_.name leaks leaf) (leaks : List File)
    (leaf : Option File) : ¬ Falls env s loading name leaks leaf := by
  intro falls
  cases falls with
  | notFound none_ =>
    rw [none_] at some_
    cases some_
  | headers some_' bad =>
    rw [some_'] at some_
    cases some_
    rw [good] at bad
    cases bad
  | moduleNames some_' _ bad =>
    rw [some_'] at some_
    cases some_
    rw [names] at bad
    cases bad
  | section_ some_' _ _ stops' passing' =>
    rw [some_'] at some_
    cases some_
    rw [stops] at stops'
    cases stops'
    exact passing passing'
  | import_ some_' _ _ stops' _ other absent below =>
    rw [some_'] at some_
    cases some_
    rw [stops] at stops'
    cases stops'
    exact stays other absent _ _ below
  | entryPoint some_' _ _ stops' _ _ =>
    rw [some_'] at some_
    cases some_
    rw [stops] at stops'
    cases stops'

theorem loadPeDll_ends (ready : Ready s) (fuel : ℕ) {parent : Option Dll}
    (specs : ∀ d, LoadSpec env s (loads d) d)
    (keeps : NoSelf env → ∀ d, LoadKeeps (loads d) d)
    (quiet : Quiet env s chain loading u) (absent : s.findModule name = none)
    (notExe : env.exe ≠ some name) (fresh : name ∉ loading)
    (apart : parent ≠ some u.loader.created) (some_ : env.files name = some file)
    {answer : Option Dll} {t : System}
    (called : loadPeDll env loads fuel parent name file {} u = .ok (answer, t)) :
    LoadEnds env s chain loading name u answer t := by
  obtain ⟨v, w, rc, constructed, inits, ends⟩ := loadPeDll_ok called
  have quiet₁ := quiet.construct absent notExe apart rfl constructed
  obtain ⟨process₁, image₁, imageNew⟩ := construct_image constructed
  have newest : ∀ e ∈ chain, e < u.loader.created := fun e inside => (quiet.range e inside).2
  have image_old {t : System} (image : ∀ e ∈ u.loader.created :: chain, t.image e =
      (tlsInit env u.loader.created file {} v).image e) : ∀ e ∈ chain, t.image e = u.image e := by
    intro e inside
    have other : e ≠ u.loader.created := (newest e inside).ne
    rw [image e (List.mem_cons_of_mem _ inside), tlsInit_image other, image₁ e other]
  have pdb₁ : (tlsInit env u.loader.created file {} v).process.pdb = leak u.process.pdb file := by
    rw [(tlsInit_spec env _ file v).1, process₁]
  have quiet₂ := tlsInit_quiet quiet₁ u.loader.created file {}
  cases inits with
  | headers bad failed =>
    simp only [Bool.false_or] at bad
    rcases ends with ⟨_, rfl, deleted⟩ | ⟨wrong, _⟩
    swap
    · cases wrong
    obtain ⟨quiet', image, pdb⟩ := abandoned quiet₁ newest failed deleted
    refine .falls [] none (.headers some_ bad) quiet' (fun e inside => ?_) ?_
    · rw [image, image₁ e (newest e inside).ne]
    · rw [pdb, process₁]
      rfl
  | skipped _ skip => cases skip
  | moduleNames good _ bad failed =>
    simp only [Bool.false_or] at good
    rcases ends with ⟨_, rfl, deleted⟩ | ⟨wrong, _⟩
    swap
    · cases wrong
    obtain ⟨quiet', image, pdb⟩ := abandoned quiet₂ newest failed deleted
    refine .falls [file] none (.moduleNames some_ good bad) quiet'
      (image_old fun e _ => by rw [image]) ?_
    rw [pdb, pdb₁]
    rfl
  | imports good _ names unbound failed =>
    simp only [Bool.false_or] at good
    rcases ends with ⟨_, rfl, deleted⟩ | ⟨wrong, _⟩
    swap
    · cases wrong
    have imports := processImports_ends ready (specs _) (fun straight => keeps straight.1 _) fresh
      newest (fun straight => straight.1 name file some_) quiet₂ unbound
    cases imports with
    | section_ stops passing quiet₃ image₃ pdb₃ =>
      obtain ⟨quiet', image, pdb⟩ := abandoned quiet₃ newest failed deleted
      refine .falls [file] none (.section_ some_ good names stops passing) quiet'
        (image_old fun e inside => by rw [image, image₃ e inside]) ?_
      rw [pdb, pdb₃, pdb₁]
      rfl
    | import_ stops passing other absent' falls quiet₃ image₃ pdb₃ =>
      obtain ⟨quiet', image, pdb⟩ := abandoned quiet₃ newest failed deleted
      refine .falls _ _ (.import_ some_ good names stops passing other absent' falls) quiet'
        (image_old fun e inside => by rw [image, image₃ e inside]) ?_
      rw [pdb, pdb₃, pdb₁]
      rfl
    | lasts stops passing stays lasting =>
      refine .lasts (not_falls_of_lasting some_ good names stops passing stays)
        fun straight _ => ?_
      obtain ⟨sound, created, lasting⟩ := lasting straight
      obtain ⟨_, kept⟩ := failure_kept sound failed
      have lasting' := lasting.kept ready sound (Nat.le_refl _) created (kept _)
      exact lasting'.delete ready quiet.created deleted
  | bound good _ names bound =>
    simp only [Bool.false_or] at good
    rcases ends with ⟨wrong, _⟩ | ⟨_, x, y, rc', added, attached, ends⟩
    · cases wrong
    obtain ⟨o, here, attached, answers⟩ := attachProcess_ok attached
    have imports := processImports_ends ready (specs _) (fun straight => keeps straight.1 _) fresh
      newest (fun straight => straight.1 name file some_) quiet₂ bound
    cases imports with
    | bound stops quiet₃ image₃ pdb₃ =>
      obtain ⟨l, counted, rfl⟩ := onLoader_ok added
      obtain ⟨o₃, here₃, rfl⟩ := addRef_ok counted
      have flags := quiet₃.flags _ List.mem_cons_self o₃ here₃
      change (w.loader.set u.loader.created _).object u.loader.created = some o at here
      rw [Loader.set_object_self] at here
      cases here
      obtain ⟨l', attached', rfl⟩ := onLoader_ok attached
      have image : w.image u.loader.created =
          (tlsInit env u.loader.created file {} v).image u.loader.created :=
        image₃ _ List.mem_cons_self
      obtain ⟨_, template, entry, skip, index⟩ := tlsInit_spec env u.loader.created file v
      simp only [flags.1, flags.2.1, Bool.false_or, image, entry] at answers
      rcases ends with ⟨through, rfl, _⟩ | ⟨refused, rfl, deleted⟩
      · refine .lasts (not_falls_of_bound some_ good names stops fun calls => ?_)
          fun _ none_ => nomatch none_
        rw [through, calls] at answers
        simpa using answers.symm
      · rw [refused] at answers
        simp only [Bool.false_eq, Bool.or_eq_false_iff, Bool.not_eq_false'] at answers
        obtain ⟨calls, refuses⟩ := answers
        obtain ⟨o₄, here₄, changed⟩ := attach_ok attached'
        rw [Loader.set_object_self] at here₄
        cases here₄
        obtain ⟨o₅, plain, moved⟩ : ∃ o₅ : Win32DllBase,
            (o₅.errorState = false ∧ o₅.fUnloaded = false) ∧ l' = w.loader.set u.loader.created o₅ := by
          rcases changed with rfl | rfl
          · exact ⟨{ o₃ with referenced := o₃.referenced + 1 }, flags.2.2, rfl⟩
          · refine ⟨{ o₃ with referenced := o₃.referenced + 1, fAttachedToProcess := true },
              flags.2.2, ?_⟩
            simp [Loader.set]
        have quiet' := quiet₃.delete newest (o := o₅) (by rw [moved]) deleted
        refine .falls [] (some file) (.entryPoint some_ good names stops calls refuses) quiet' ?_ ?_
        · obtain ⟨_, _, _, _, rfl⟩ := delete_eq deleted
          exact image_old image₃
        · obtain ⟨o₆, _, here₆, _, rfl⟩ := delete_eq deleted
          rw [moved] at here₆
          change (w.loader.set u.loader.created o₅).object u.loader.created = some o₆ at here₆
          rw [Loader.set_object_self] at here₆
          cases here₆
          change (w.process.destroy env.thread { w.image u.loader.created with
            errorState := if o₅.errorState || o₅.fUnloaded then errorInternal else 0 }).pdb = _
          rw [destroy_pdb _ _ _ (by simp [plain.1, plain.2]) (by
            simp only [image, skip, imageNew]
            rfl) (by simp only [image, entry, calls])]
          simp only [image, template, pdb₃, pdb₁, tlsAfter, List.foldl_nil, giveBack, leak]
          split
          · next tls => rw [index tls, process₁]
          · rfl
    | lasts stops passing stays lasting =>
      refine .lasts (not_falls_of_lasting some_ good names stops passing stays)
        fun straight none_ => ?_
      obtain ⟨sound, created, lasting⟩ := lasting straight
      obtain ⟨sound', kept⟩ := addRef_kept sound added
      obtain ⟨_, kept'⟩ := attach_kept sound' attached
      have lasting' := lasting.kept ready sound (Nat.le_refl _) created ((kept _).trans (kept' _))
      rcases ends with ⟨_, rfl, _⟩ | ⟨_, _, deleted⟩
      · cases none_
      · exact lasting'.delete ready quiet.created deleted

end

theorem loadDll_spec {s : System} (ready : Ready s) (fuel : ℕ) (parent : Dll) :
    LoadSpec env s (loadDll env fuel parent) parent := by
  induction fuel generalizing parent with
  | zero =>
    intro chain loading name u t answer _ _ _ _ _ called
    cases called
  | succ fuel ih =>
    intro chain loading name u t answer quiet inside absent notExe fresh called
    unfold loadDll at called
    split at called
    · next none_ =>
      cases called
      exact .falls [] none (.notFound none_) quiet (fun _ _ => rfl) rfl
    · next file some_ =>
      refine loadPeDll_ends ready fuel ih (fun noSelf d => loadDll_kept noSelf fuel d) quiet absent
        notExe fresh (fun same => ?_) some_ called
      exact (quiet.range parent inside).2.ne (Option.some.inj same)

theorem Falls.unique {s : System} {loading : List String} {name : String} {leaks leaks' : List File}
    {leaf leaf' : Option File} (falls : Falls env s loading name leaks leaf)
    (falls' : Falls env s loading name leaks' leaf') : leaks = leaks' ∧ leaf = leaf' := by
  induction falls generalizing leaks' leaf' with
  | notFound none_ => cases falls' <;> simp_all
  | headers some_ bad => cases falls' <;> simp_all
  | moduleNames some_ good bad => cases falls' <;> simp_all
  | section_ some_ good names stops passing => cases falls' <;> simp_all
  | entryPoint some_ good names stops entry refuses => cases falls' <;> simp_all
  | @import_ loading name file i leaks leaf some_ good names stops passing other absent below ih =>
    cases falls' with
    | import_ some_' _ _ stops' _ _ _ below' =>
      rw [some_] at some_'
      cases some_'
      rw [stops] at stops'
      cases stops'
      obtain ⟨rfl, rfl⟩ := ih below'
      exact ⟨rfl, rfl⟩
    | notFound none_ => simp_all
    | headers some_' bad => simp_all
    | moduleNames some_' _ bad => simp_all
    | section_ some_' _ _ stops' passing' => simp_all
    | entryPoint some_' _ _ stops' _ _ => simp_all

theorem Quiet.restored {s t : System} (quiet : Quiet env s [] [] t) (ready : Ready s) :
    t.loader.head = s.loader.head ∧ ∀ d ∈ s.loader.head, ∃ before after,
      s.loader.object d = some before ∧ t.loader.object d = some after ∧
      after.referenced = before.referenced ∧ after.nrDynamicLibRef = before.nrDynamicLibRef ∧
      after.loadedDlls = before.loadedDlls := by
  constructor
  · rw [← quiet.front, eq_comm, List.filter_eq_self]
    intro e inside
    rw [decide_eq_true_iff]
    exact fun ge => nomatch (quiet.new e ge).mp inside
  · intro d inside
    obtain ⟨o, here⟩ := ready.live d inside
    exact ⟨o, o, here, (quiet.old d (ready.below inside)).trans here, rfl, rfl, rfl⟩

theorem Lasting.not_restored {s t : System} (lasting : Lasting s [] t) (ready : Ready s) :
    ¬ Restored s t := by
  intro restored
  rcases lasting with ⟨e, inside, o, o', before, after, more⟩ | ⟨e, inside, ge, _⟩
  · obtain ⟨p, p', before', after', same, _⟩ := restored.modules e inside
    rw [before] at before'
    cases before'
    rw [after] at after'
    cases after'
    exact absurd same more.ne'
  · rw [restored.head] at inside
    exact absurd (ready.below inside) (Nat.not_lt_of_le ge)

theorem setUnloadOrder_new {fuel : ℕ} {d : Dll} {s t : Loader} {o : Win32DllBase}
    (here : s.object d = some o) (new : o.fInserted = false) (alone : o.loadedDlls = [])
    (called : setUnloadOrder fuel none d s = .ok t) :
    t = { s with head := d :: s.head }.set d { o with fInserted := true } := by
  cases fuel with
  | zero => cases called
  | succ fuel =>
    unfold setUnloadOrder at called
    simp only [get_eq here, bind, Except.bind, place, pure, Except.pure, new, alone,
      Bool.false_eq_true, if_false, List.foldlM_nil, Except.ok.injEq] at called
    rw [← called, alone]

theorem loadPeDll_skipped {s t : System} (ready : Ready s) {fuel : ℕ} {name : String} {file : File}
    {flags : Flags} {loads : Dll → String → System → Except Fault (Option Dll × System)}
    (skip : flags.disableLibraryCalls = true)
    (called : loadPeDll env loads fuel none name file flags s = .ok (none, t)) : Restored s t := by
  obtain ⟨u, v, rc, constructed, inits, ends⟩ := loadPeDll_ok called
  obtain ⟨loader, inner, rfl⟩ := construct_ok constructed
  have front := setUnloadOrder_new (s := withNew s.loader flags)
    (Loader.set_object_self s.loader s.loader.created _) rfl rfl inner
  have head : loader.head = s.loader.created :: s.loader.head := by
    rw [front]
    rfl
  have object {e : Dll} (own : e ≠ s.loader.created) : loader.object e = s.loader.object e := by
    rw [front]
    exact (Loader.set_object_of_ne _ own _).trans (Loader.set_object_of_ne _ own _)
  have here : ∃ o, loader.object s.loader.created = some o ∧ o.fSkipEntryCalls = true := by
    rw [front]
    exact ⟨_, Loader.set_object_self .., skip⟩
  cases inits with
  | headers bad failed =>
    rcases ends with ⟨_, _, deleted⟩ | ⟨wrong, _⟩
    swap
    · cases wrong
    obtain ⟨_, o, _, rfl⟩ := failure_ok failed
    obtain ⟨o', loader', here', deleted', rfl⟩ := delete_eq deleted
    obtain ⟨head', _, _, object'⟩ := delete_ok deleted'
    refine ⟨?_, ?_, ?_⟩
    · change loader'.head = _
      rw [head']
      change loader.head.erase _ = _
      rw [head, List.erase_cons_head]
    · intro d inside
      have own : d ≠ s.loader.created := (ready.below inside).ne
      obtain ⟨p, there⟩ := ready.live d inside
      refine ⟨p, p, there, ?_, rfl, rfl, rfl⟩
      rw [← there, ← object own]
      exact (object' d own).trans (Loader.set_object_of_ne _ own _)
    · intro i
      change (Process.pdb (s.process.destroy _ _)).allocated i = _
      rw [destroy_pdb_error]
      change (Loader.set loader _ _).object s.loader.created = some o' at here'
      rw [Loader.set_object_self] at here'
      cases here'
      simp [errorInternal]
  | skipped good _ =>
    rcases ends with ⟨wrong, _⟩ | ⟨_, x, y, rc', added, attached, ends⟩
    · cases wrong
    obtain ⟨o, here', _, answers⟩ := attachProcess_ok attached
    obtain ⟨l, counted, rfl⟩ := onLoader_ok added
    obtain ⟨o₃, here₃, rfl⟩ := addRef_ok counted
    obtain ⟨o₁, here₁, skips⟩ := here
    change loader.object s.loader.created = some o₃ at here₃
    rw [here₁] at here₃
    cases here₃
    change (Loader.set _ _ _).object s.loader.created = some o at here'
    rw [Loader.set_object_self] at here'
    cases here'
    simp only [skips, Bool.or_true, Bool.true_or] at answers
    rcases ends with ⟨_, wrong, _⟩ | ⟨refused, _⟩
    · cases wrong
    · rw [answers] at refused
      cases refused
  | moduleNames _ calls _ _ =>
    rw [skip] at calls
    cases calls
  | bound _ calls _ _ =>
    rw [skip] at calls
    cases calls
  | imports _ calls _ _ _ =>
    rw [skip] at calls
    cases calls

/-- A `LoadLibrary` that fails is undone where no image of those given up had bound an import
that stays, or had got a TLS index to itself, and only there. -/
theorem loadLibraryExA_restored {s t : System} (ready : Ready s) {fuel : ℕ} {name : String}
    {flags : Flags} (failed : loadLibraryExA env fuel name flags s = .ok (none, t)) :
    (Undone env s name flags → Restored s t) ∧
      (Straight env s → Restored s t → Undone env s name flags) := by
  unfold loadLibraryExA at failed
  split at failed
  · cases failed
  next notExe =>
  split at failed
  · rw [bind_ok] at failed
    obtain ⟨_, _, failed⟩ := failed
    rw [bind_ok] at failed
    obtain ⟨_, _, failed⟩ := failed
    cases failed
  next absent =>
  split at failed
  · next none_ =>
    cases failed
    refine ⟨fun _ => ⟨rfl, fun d inside => ?_, fun _ => rfl⟩, fun _ _ => ?_⟩
    · obtain ⟨o, here⟩ := ready.live d inside
      exact ⟨o, o, here, here, rfl, rfl, rfl⟩
    · exact Or.inr ⟨[], none, .notFound none_, nofun, nofun⟩
  next file some_ =>
  rw [bind_ok] at failed
  obtain ⟨⟨answer, u⟩, called, failed⟩ := failed
  rcases answer with _ | dll
  swap
  · simp only at failed
    rw [bind_ok] at failed
    obtain ⟨_, _, failed⟩ := failed
    cases failed
  cases failed
  cases skip : (flags.of file).disableLibraryCalls with
  | true =>
    exact ⟨fun _ => loadPeDll_skipped ready skip called, fun _ _ => Or.inl ⟨file, some_, skip⟩⟩
  | false =>
    have plain : flags.of file = {} := by
      generalize flags.of file = flags at skip
      obtain ⟨asDatafile, dontResolve⟩ := flags
      simpa [Flags.disableLibraryCalls] using skip
    rw [plain] at called
    have ends := loadPeDll_ends ready fuel (fun d => loadDll_spec ready fuel d)
      (fun noSelf d => loadDll_kept noSelf fuel d) ready.quiet absent notExe List.not_mem_nil
      (show (none : Option Dll) ≠ some s.loader.created by simp) some_ called
    cases ends with
    | falls leaks leaf falls quiet _ pdb =>
      obtain ⟨head, modules⟩ := quiet.restored ready
      have indices := tlsAfter_restored_iff leaks leaf s.process.pdb
      constructor
      · rintro (⟨file', some_', skip'⟩ | ⟨leaks', leaf', falls', full, back⟩)
        · rw [some_] at some_'
          cases some_'
          rw [skip] at skip'
          cases skip'
        · obtain ⟨rfl, rfl⟩ := falls.unique falls'
          refine ⟨head, modules, fun i => ?_⟩
          rw [pdb]
          exact indices.mpr ⟨full, back⟩ i
      · intro _ restored
        refine Or.inr ⟨leaks, leaf, falls, indices.mp fun j => ?_⟩
        rw [← pdb]
        exact restored.tls j
    | lasts stays lasting =>
      constructor
      · rintro (⟨file', some_', skip'⟩ | ⟨leaks', leaf', falls', _⟩)
        · rw [some_] at some_'
          cases some_'
          rw [skip] at skip'
          cases skip'
        · exact absurd falls' (stays leaks' leaf')
      · exact fun straight restored => absurd restored ((lasting straight rfl).not_restored ready)

/-! Two loads that fail, in a process that has loaded one DLL. -/

def plainFile (imports : List Import) (dllMain : Bool) : File :=
  ⟨true, true, true, none, 0, true, imports, true, dllMain⟩

def oneModule : System where
  loader := ⟨[0], fun d => if d = 0 then some ⟨1, 1, [], true, false, true, false, false⟩ else none,
    1, [0], [], [], [], []⟩
  szModule := fun _ => "USER32"
  image := fun d => newImage d false
  process := newProcess

theorem ready_oneModule : Ready oneModule where
  live := by
    intro d inside
    rw [List.mem_singleton.mp inside]
    exact ⟨_, rfl⟩
  fresh := fun d ge => if_neg (Nat.ne_of_gt ge)
  nodup := List.nodup_singleton _
  placed := by
    intro d o here new inside
    rw [List.mem_singleton.mp inside] at here
    cases here
    cases new

/-- The entry point of a DLL that imports nothing refuses. -/
def refusing : Env where
  files := fun name => if name = "A" then some (plainFile [] false) else none
  exe := none
  thread := 0
  memory := fun _ => true

theorem loadLibraryExA_restored_refusing : ∃ t,
    loadLibraryExA refusing 9 "A" {} oneModule = .ok (none, t) ∧ Restored oneModule t := by
  refine ⟨_, rfl, (@loadLibraryExA_restored refusing oneModule _ ready_oneModule 9 "A" {} rfl).1 ?_⟩
  refine Or.inr ⟨[], some (plainFile [] false), ?_, nofun, ?_⟩
  · exact .entryPoint rfl rfl rfl rfl rfl rfl
  · rintro file ⟨⟩ tls
    cases tls

/-- The second import of a DLL is not found. -/
def missing : Env where
  files := fun name =>
    if name = "A" then some (plainFile [⟨"USER32", true⟩, ⟨"MISSING", true⟩] true) else none
  exe := none
  thread := 0
  memory := fun _ => true

/-- The reference to the first one stays. -/
theorem missing_not_restored : ¬ ∀ (env : Env) (s t : System) (fuel : ℕ) (name : String)
    (flags : Flags), Ready s → loadLibraryExA env fuel name flags s = .ok (none, t) →
      Restored s t := by
  intro all
  have seen : (loadLibraryExA missing 9 "A" {} oneModule).map (fun r => (r.1,
      (r.2.loader.object 0).map Win32DllBase.referenced)) = .ok (none, some 2) := rfl
  rcases called : loadLibraryExA missing 9 "A" {} oneModule with _ | ⟨answer, t⟩
  · rw [called] at seen
    cases seen
  rw [called] at seen
  simp only [Except.map, Except.ok.injEq, Prod.mk.injEq] at seen
  obtain ⟨rfl, count⟩ := seen
  obtain ⟨o, o', before, after, same, _⟩ :=
    (all missing oneModule t 9 "A" {} ready_oneModule called).modules 0 List.mem_cons_self
  rw [after] at count
  cases before
  simp only [Option.map_some, Option.some.injEq] at count
  rw [same] at count
  exact absurd count (by decide)

/-! ## Reachable lists -/

end Odin32.LoadLibrary
