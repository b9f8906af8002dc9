import Odin32.LoadLibraryKept

/-! # Loads under way

As long as the loads under way have bound nothing but each other, the modules that were there
before are as they were, and what was added are the objects of these loads. -/

set_option autoImplicit false

namespace Odin32.LoadLibrary

open DllList OrderedList ImageTls

variable {env : Env}

/-- What a list of modules is like between two calls. -/
structure Ready (s : System) : Prop where
  live : ∀ d ∈ s.loader.head, ∃ object, s.loader.object d = some object
  fresh : ∀ d, s.loader.created ≤ d → s.loader.object d = none
  nodup : s.loader.head.Nodup
  placed : Placed s.loader

theorem Ready.below {s : System} (ready : Ready s) {d : Dll} (inside : d ∈ s.loader.head) :
    d < s.loader.created := by
  obtain ⟨o, here⟩ := ready.live d inside
  by_contra ge
  rw [ready.fresh d (Nat.le_of_not_lt ge)] at here
  cases here

/-- Since `s`, the loads of `chain` have begun, the innermost first, and they have bound nothing
but those outside of them. -/
structure Quiet (env : Env) (s : System) (chain : List Dll) (loading : List String)
    (u : System) : Prop where
  created : s.loader.created ≤ u.loader.created
  old : ∀ e < s.loader.created, u.loader.object e = s.loader.object e
  oldNames : ∀ e < s.loader.created, u.szModule e = s.szModule e
  front : (u.loader.head.filter fun e => ¬ s.loader.created ≤ e) = s.loader.head
  nodup : u.loader.head.Nodup
  placed : Placed u.loader
  new : ∀ e, s.loader.created ≤ e → (e ∈ u.loader.head ↔ e ∈ chain)
  gone : ∀ e, s.loader.created ≤ e → e ∉ chain → u.loader.object e = none
  range : ∀ e ∈ chain, s.loader.created ≤ e ∧ e < u.loader.created
  deps : ∀ e ∈ chain, ∀ v ∈ u.loader.deps e, v ∈ chain ∧ v < e
  flags : ∀ e ∈ chain, ∀ o, u.loader.object e = some o → o.fAttachedToProcess = false ∧
    o.fSkipEntryCalls = false ∧ o.errorState = false ∧ o.fUnloaded = false
  names : chain.map u.szModule = loading
  absent : ∀ name ∈ loading, s.findModule name = none ∧ env.exe ≠ some name

theorem Ready.quiet {s : System} (ready : Ready s) : Quiet env s [] [] s where
  created := Nat.le_refl _
  old := fun _ _ => rfl
  oldNames := fun _ _ => rfl
  front := by
    rw [List.filter_eq_self]
    intro e inside
    simpa using ready.below inside
  nodup := ready.nodup
  placed := ready.placed
  new := by
    intro e ge
    constructor
    · exact fun inside => absurd (ready.below inside) (Nat.not_lt_of_le ge)
    · exact nofun
  gone := fun e ge _ => ready.fresh e ge
  range := nofun
  deps := nofun
  flags := nofun
  names := rfl
  absent := nofun

namespace Quiet

variable {s u : System} {chain : List Dll} {loading : List String}
  (quiet : Quiet env s chain loading u)

include quiet

theorem mem_old {e : Dll} : e ∈ s.loader.head ↔ e ∈ u.loader.head ∧ e < s.loader.created := by
  rw [← quiet.front, List.mem_filter]
  simp

theorem fresh {e : Dll} (ge : u.loader.created ≤ e) : u.loader.object e = none :=
  quiet.gone e (quiet.created.trans ge)
    fun inside => absurd (quiet.range e inside).2 (Nat.not_lt_of_le ge)

theorem mem_chain {e : Dll} {o : Win32DllBase} (ge : s.loader.created ≤ e)
    (here : u.loader.object e = some o) : e ∈ chain := by
  by_contra outside
  rw [quiet.gone e ge outside] at here
  cases here

theorem closed : Closed (fun e => s.loader.created ≤ e) u.loader := by
  intro e ge v inside
  have there : e ∈ chain := by
    by_contra outside
    unfold Loader.deps at inside
    rw [quiet.gone e ge outside] at inside
    cases inside
  obtain ⟨inside', below⟩ := quiet.deps e there v inside
  exact ⟨(quiet.range v inside').1, below.ne⟩

theorem sound (straight : ∀ d, d ∉ s.loader.deps d) : Sound u.loader where
  fresh := fun _ ge => quiet.fresh ge
  below := by
    intro e inside
    by_cases old : e < s.loader.created
    · exact Nat.lt_of_lt_of_le old quiet.created
    · have ge := Nat.le_of_not_lt old
      exact (quiet.range e ((quiet.new e ge).mp inside)).2
  own := by
    intro e inside
    by_cases old : e < s.loader.created
    · unfold Loader.deps at inside
      rw [quiet.old e old] at inside
      exact straight e inside
    · exact (quiet.closed e (Nat.le_of_not_lt old) e inside).2 rfl

theorem find_loading {name : String} {dll : Dll} (absent : s.findModule name = none)
    (found : u.findModule name = some dll) : dll ∈ chain := by
  have inside := List.mem_of_find?_eq_some found
  have named := szModule_of_find found
  by_contra outside
  have old : dll < s.loader.created := by
    by_contra ge
    exact outside ((quiet.new dll (Nat.le_of_not_lt ge)).mp inside)
  have none_ := List.find?_eq_none.mp absent dll (quiet.mem_old.mpr ⟨inside, old⟩)
  rw [← quiet.oldNames dll old, named] at none_
  simp at none_

theorem find_old {name : String} {dll : Dll} (there : s.findModule name ≠ none)
    (found : u.findModule name = some dll) : dll ∈ s.loader.head := by
  have inside := List.mem_of_find?_eq_some found
  refine quiet.mem_old.mpr ⟨inside, ?_⟩
  by_contra ge
  have inside' := (quiet.new dll (Nat.le_of_not_lt ge)).mp inside
  have listed : u.szModule dll ∈ loading := quiet.names ▸ List.mem_map_of_mem inside'
  rw [szModule_of_find found] at listed
  exact there (quiet.absent name listed).1

theorem find_none {name : String} (none_ : u.findModule name = none) :
    s.findModule name = none ∧ name ∉ loading := by
  have all := List.find?_eq_none.mp none_
  constructor
  · refine List.find?_eq_none.mpr fun e inside => ?_
    obtain ⟨inside', old⟩ := quiet.mem_old.mp inside
    have other := all e inside'
    rwa [quiet.oldNames e old] at other
  · intro listed
    rw [← quiet.names] at listed
    obtain ⟨e, inside, named⟩ := List.mem_map.mp listed
    have other := all e ((quiet.new e (quiet.range e inside).1).mpr inside)
    simp [named] at other

/-! What the calls keep quiet. -/

theorem moves {loader : Loader} (moves : Moves (fun e => s.loader.created ≤ e) u.loader loader) :
    Quiet env s chain loading { u with loader := loader } where
  created := quiet.created.trans moves.created.ge
  old := by
    intro e old
    rcases moves.object e with same | ⟨ge, _⟩
    · exact same.trans (quiet.old e old)
    · exact absurd old (Nat.not_lt_of_le ge)
  oldNames := quiet.oldNames
  front := moves.front.trans quiet.front
  nodup := moves.nodup quiet.placed quiet.nodup
  placed := moves.placed quiet.placed
  new := by
    intro e ge
    rw [← quiet.new e ge]
    constructor
    · intro inside
      rcases moves.back e inside with inside | ⟨_, o, here⟩
      · exact inside
      · exact (quiet.new e ge).mpr (quiet.mem_chain ge here)
    · exact moves.members e
  gone := by
    intro e ge outside
    have none_ := quiet.gone e ge outside
    rcases moves.object e with same | ⟨_, o, here, _⟩
    · exact same.trans none_
    · rw [none_] at here
      cases here
  range := fun e inside => ⟨(quiet.range e inside).1,
    Nat.lt_of_lt_of_le (quiet.range e inside).2 moves.created.ge⟩
  deps := by
    change ∀ e ∈ chain, ∀ v ∈ loader.deps e, v ∈ chain ∧ v < e
    rw [moves.deps]
    exact quiet.deps
  flags := by
    intro e inside o here
    rcases moves.object e with same | ⟨_, o', here', after⟩
    · exact quiet.flags e inside o (same.symm.trans here)
    · change loader.object e = some o at here
      rw [after] at here
      cases here
      exact quiet.flags e inside o' here'
  names := quiet.names
  absent := quiet.absent

theorem set {d : Dll} {o p : Win32DllBase} (inside : d ∈ chain)
    (here : u.loader.object d = some o) (inserted : p.fInserted = o.fInserted)
    (queue : ∀ v ∈ p.loadedDlls, v ∈ chain ∧ v < d) (attached : p.fAttachedToProcess = false)
    (same : p.fSkipEntryCalls = o.fSkipEntryCalls ∧ p.errorState = o.errorState ∧
      p.fUnloaded = o.fUnloaded) :
    Quiet env s chain loading { u with loader := u.loader.set d p } where
  created := quiet.created
  old := by
    intro e old
    have other : e ≠ d := (Nat.lt_of_lt_of_le old (quiet.range d inside).1).ne
    exact (Loader.set_object_of_ne _ other _).trans (quiet.old e old)
  oldNames := quiet.oldNames
  front := quiet.front
  nodup := quiet.nodup
  placed := by
    intro e q there new listed
    change (u.loader.set d p).object e = some q at there
    by_cases own : e = d
    · subst own
      rw [Loader.set_object_self] at there
      cases there
      exact quiet.placed e o here (inserted ▸ new) listed
    · rw [Loader.set_object_of_ne _ own] at there
      exact quiet.placed e q there new listed
  new := quiet.new
  gone := by
    intro e ge outside
    have other : e ≠ d := fun own => outside (own ▸ inside)
    exact (Loader.set_object_of_ne _ other _).trans (quiet.gone e ge outside)
  range := quiet.range
  deps := by
    intro e inside' v queued
    change v ∈ (u.loader.set d p).deps e at queued
    rw [deps_set] at queued
    split at queued
    · next own => exact own ▸ queue v queued
    · exact quiet.deps e inside' v queued
  flags := by
    intro e inside' q there
    change (u.loader.set d p).object e = some q at there
    by_cases own : e = d
    · subst own
      rw [Loader.set_object_self] at there
      cases there
      obtain ⟨_, skip, error, unloaded⟩ := quiet.flags e inside o here
      exact ⟨attached, same.1.trans skip, same.2.1.trans error, same.2.2.trans unloaded⟩
    · rw [Loader.set_object_of_ne _ own] at there
      exact quiet.flags e inside' q there
  names := quiet.names
  absent := quiet.absent

theorem bound {fuel : ℕ} {d dll : Dll} {v t : System} (inside : d ∈ chain) (inside' : dll ∈ chain)
    (below : dll < d) (added : u.onLoader (addRef dll) = .ok v)
    (bound : v.onLoader (bindImport fuel d dll) = .ok t) : Quiet env s chain loading t := by
  obtain ⟨l, counted, rfl⟩ := onLoader_ok added
  obtain ⟨o, here, rfl⟩ := addRef_ok counted
  have quiet' := quiet.set inside' here (p := { o with referenced := o.referenced + 1 }) rfl
    (fun w queued => quiet.deps dll inside' w (by rwa [deps_eq here]))
    (quiet.flags dll inside' o here).1 ⟨rfl, rfl, rfl⟩
  obtain ⟨l, inner, rfl⟩ := onLoader_ok bound
  obtain ⟨o', here', called⟩ := bindImport_ok inner
  have quiet'' := quiet'.set inside here' (p := { o' with loadedDlls := dll :: o'.loadedDlls }) rfl
    (fun w queued => by
      rcases List.mem_cons.mp queued with rfl | queued
      · exact ⟨inside', below⟩
      · exact quiet'.deps d inside w (by rwa [deps_eq here']))
    (quiet'.flags d inside o' here').1 ⟨rfl, rfl, rfl⟩
  exact quiet''.moves (setUnloadOrder_moves fuel quiet''.closed (quiet.range dll inside').1
    (fun same => below.ne' (Option.some.inj same)) called)

theorem construct {fuel : ℕ} {parent : Option Dll} {name : String} {flags : Flags} {t : System}
    (absent : s.findModule name = none) (other : env.exe ≠ some name)
    (apart : parent ≠ some u.loader.created) (calls : flags.disableLibraryCalls = false)
    (called : construct fuel parent name flags u = .ok t) :
    Quiet env s (u.loader.created :: chain) (name :: loading) t := by
  obtain ⟨loader, inner, rfl⟩ := construct_ok called
  have object_old {e : Dll} (old : e ≠ u.loader.created) :
      (withNew u.loader flags).object e = u.loader.object e := Loader.set_object_of_ne _ old _
  have object_new : (withNew u.loader flags).object u.loader.created =
      some (newDll flags.disableLibraryCalls) := Loader.set_object_self ..
  have deps_old {e : Dll} : (withNew u.loader flags).deps e =
      if e = u.loader.created then [] else u.loader.deps e := deps_set u.loader _ e _
  have closed : Closed (fun e => s.loader.created ≤ e) (withNew u.loader flags) := by
    intro e ge v inside
    rw [deps_old] at inside
    split at inside
    · cases inside
    · exact quiet.closed e ge v inside
  have moves := setUnloadOrder_moves fuel closed quiet.created apart inner
  have inside := setUnloadOrder_mem closed quiet.created apart object_new rfl inner
  have notYet : u.loader.created ∉ u.loader.head := by
    intro inside
    have there := (quiet.new _ quiet.created).mp inside
    exact Nat.lt_irrefl _ (quiet.range _ there).2
  have placed : Placed (withNew u.loader flags) := by
    intro e o here new
    by_cases own : e = u.loader.created
    · rw [own]
      exact notYet
    · exact quiet.placed e o ((object_old own).symm.trans here) new
  have same_object {e : Dll} : loader.object e = (withNew u.loader flags).object e ∨
      s.loader.created ≤ e ∧ ∃ o, (withNew u.loader flags).object e = some o ∧
        loader.object e = some { o with fInserted := true } := moves.object e
  constructor
  · exact (quiet.created.trans (Nat.le_succ _)).trans moves.created.ge
  · intro e old
    rcases same_object with same | ⟨ge, _⟩
    · exact (same.trans (object_old (Nat.lt_of_lt_of_le old quiet.created).ne)).trans
        (quiet.old e old)
    · exact absurd old (Nat.not_lt_of_le ge)
  · intro e old
    exact (Function.update_of_ne (Nat.lt_of_lt_of_le old quiet.created).ne ..).trans
      (quiet.oldNames e old)
  · exact moves.front.trans quiet.front
  · exact moves.nodup placed quiet.nodup
  · exact moves.placed placed
  · intro e ge
    constructor
    · intro there
      rcases moves.back e there with there | ⟨_, o, here⟩
      · exact List.mem_cons_of_mem _ ((quiet.new e ge).mp there)
      · by_cases own : e = u.loader.created
        · exact own ▸ List.mem_cons_self
        · rw [object_old own] at here
          exact List.mem_cons_of_mem _ (quiet.mem_chain ge here)
    · intro there
      rcases List.mem_cons.mp there with rfl | there
      · exact inside
      · exact moves.members e ((quiet.new e ge).mpr there)
  · intro e ge outside
    have own : e ≠ u.loader.created := fun own => outside (own ▸ List.mem_cons_self)
    have none_ := quiet.gone e ge fun there => outside (List.mem_cons_of_mem _ there)
    rcases same_object with same | ⟨_, o, here, _⟩
    · exact (same.trans (object_old own)).trans none_
    · rw [object_old own, none_] at here
      cases here
  · have grown : u.loader.created + 1 ≤ loader.created := moves.created.ge
    intro e there
    rcases List.mem_cons.mp there with rfl | there
    · exact ⟨quiet.created, grown⟩
    · obtain ⟨ge, below⟩ := quiet.range e there
      exact ⟨ge, below.trans grown⟩
  · intro e there v queued
    change v ∈ loader.deps e at queued
    rw [moves.deps, deps_old] at queued
    split at queued
    · cases queued
    · next own =>
      have there' := (List.mem_cons.mp there).resolve_left own
      obtain ⟨inside', below⟩ := quiet.deps e there' v queued
      exact ⟨List.mem_cons_of_mem _ inside', below⟩
  · intro e there o here
    have plain : ∀ o, (withNew u.loader flags).object e = some o → o.fAttachedToProcess = false ∧
        o.fSkipEntryCalls = false ∧ o.errorState = false ∧ o.fUnloaded = false := by
      intro o here
      by_cases own : e = u.loader.created
      · rw [own, object_new, calls] at here
        cases here
        exact ⟨rfl, rfl, rfl, rfl⟩
      · rw [object_old own] at here
        exact quiet.flags e ((List.mem_cons.mp there).resolve_left own) o here
    change loader.object e = some o at here
    rcases same_object with same | ⟨_, o', here', after⟩
    · exact plain o (same.symm.trans here)
    · rw [after] at here
      cases here
      exact plain o' here'
  · have before : chain.map (Function.update u.szModule u.loader.created name) =
        chain.map u.szModule := by
      refine List.map_congr_left fun e there => ?_
      exact Function.update_of_ne (quiet.range e there).2.ne ..
    change Function.update u.szModule u.loader.created name u.loader.created :: chain.map _ = _
    rw [Function.update_self, before, quiet.names]
  · intro name' there
    rcases List.mem_cons.mp there with rfl | there
    · exact ⟨absent, other⟩
    · exact quiet.absent name' there

end Quiet

theorem Quiet.delete {s u v t : System} {d : Dll} {chain : List Dll} {name : String}
    {loading : List String} (quiet : Quiet env s (d :: chain) (name :: loading) u)
    (newest : ∀ e ∈ chain, e < d) {o : Win32DllBase}
    (same : v = { u with loader := u.loader.set d o }) (called : delete env d v = .ok t) :
    Quiet env s chain loading t := by
  subst same
  obtain ⟨_, loader, _, deleted, rfl⟩ := delete_eq called
  obtain ⟨head, created, gone, object'⟩ := delete_ok deleted
  have object (e : Dll) (own : e ≠ d) : loader.object e = u.loader.object e :=
    (object' e own).trans (Loader.set_object_of_ne _ own _)
  have head : loader.head = u.loader.head.erase d := head
  have range := quiet.range d List.mem_cons_self
  have outside : d ∉ chain := fun inside => Nat.lt_irrefl _ (newest d inside)
  constructor
  · exact quiet.created.trans created.ge
  · intro e old
    exact (object e (Nat.lt_of_lt_of_le old range.1).ne).trans (quiet.old e old)
  · exact quiet.oldNames
  · change (loader.head.filter _) = _
    rw [head, filter_erase range.1]
    exact quiet.front
  · change loader.head.Nodup
    rw [head]
    exact quiet.nodup.erase d
  · intro e o here new inside
    change e ∈ loader.head at inside
    rw [head] at inside
    have own : e ≠ d := by
      rintro rfl
      exact quiet.nodup.not_mem_erase inside
    exact quiet.placed e o ((object e own).symm.trans here) new (List.mem_of_mem_erase inside)
  · intro e ge
    change e ∈ loader.head ↔ _
    rw [head, quiet.nodup.mem_erase_iff, quiet.new e ge, List.mem_cons]
    constructor
    · exact fun ⟨own, there⟩ => there.resolve_left own
    · exact fun there => ⟨fun own => outside (own ▸ there), Or.inr there⟩
  · intro e ge there
    by_cases own : e = d
    · exact own ▸ gone
    · refine (object e own).trans (quiet.gone e ge fun inside => ?_)
      exact (List.mem_cons.mp inside).elim own there
  · intro e inside
    obtain ⟨ge, below⟩ := quiet.range e (List.mem_cons_of_mem _ inside)
    exact ⟨ge, Nat.lt_of_lt_of_le below created.ge⟩
  · intro e inside v queued
    have own : e ≠ d := fun own => outside (own ▸ inside)
    change v ∈ loader.deps e at queued
    unfold Loader.deps at queued
    rw [object e own] at queued
    obtain ⟨there, below⟩ := quiet.deps e (List.mem_cons_of_mem _ inside) v queued
    refine ⟨(List.mem_cons.mp there).resolve_left fun same => ?_, below⟩
    exact Nat.lt_irrefl _ ((same ▸ below).trans (newest e inside))
  · intro e inside o here
    have own : e ≠ d := fun own => outside (own ▸ inside)
    exact quiet.flags e (List.mem_cons_of_mem _ inside) o ((object e own).symm.trans here)
  · exact (List.cons.inj quiet.names).2
  · exact fun name' there => quiet.absent name' (List.mem_cons_of_mem _ there)

end Odin32.LoadLibrary
