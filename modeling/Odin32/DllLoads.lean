import Odin32.DllUnload

/-! # Loading

A new DLL is put into the list before its imports are known. Every import that is found or
loaded takes a reference first, then becomes an entry of the queue, and then finds its place
in the list. -/

set_option autoImplicit false

namespace Odin32.DllList

open OrderedList Relation

/-- The imports with one more. -/
def withImport (s : Loader) (p d u v : Dll) : Prop := s.DependsOn u v ∨ u = p ∧ v = d

/-- There is one reference to a DLL that nothing accounts for yet. -/
def Spare (s : Loader) (d : Dll) : Prop :=
  ∀ object, s.object d = some object →
    ((references s []).count d : ℤ) + object.nrDynamicLibRef + 1 ≤ object.referenced

theorem addRef_spec {s : Loader} {d : Dll} (inv : Inv s []) (inside : d ∈ s.head) :
    ∃ t, addRef d s = .ok t ∧ Inv t [] ∧ Spare t d ∧ SameGraph s t ∧ SameDynamic s t ∧
      t.detachedUnder = s.detachedUnder := by
  obtain ⟨object, here⟩ := (inv.live d).mp inside
  have same := sameGraph_set here { object with referenced := object.referenced + 1 } rfl rfl
  have dynamic := sameDynamic_set here { object with referenced := object.referenced + 1 } rfl
  have count := inv.counted d object here
  refine ⟨s.set d { object with referenced := object.referenced + 1 }, ?_,
    ⟨same.core_same dynamic inv.toCore, ?_, nofun⟩, ?_, same, dynamic, rfl⟩
  · unfold addRef
    rw [get_eq here]
    rfl
  · intro e o there
    rw [same.references_eq]
    by_cases own : e = d
    · subst own
      rw [Loader.set_object_self] at there
      cases there
      simp only
      omega
    · rw [Loader.set_object_of_ne _ own] at there
      exact inv.counted e o there
  · intro o there
    rw [same.references_eq]
    rw [Loader.set_object_self] at there
    cases there
    simp only
    omega

theorem incDynamicLib_core {s : Loader} {pending : List Dll} {d : Dll} {object : Win32DllBase}
    (core : Core s pending) (here : s.object d = some object) :
    ∃ t, incDynamicLib d s = .ok t ∧ Core t pending ∧ SameGraph s t ∧
      t.detachedUnder = s.detachedUnder ∧
      t.object d = some { object with nrDynamicLibRef := object.nrDynamicLibRef + 1 } ∧
      ∀ e, e ≠ d → t.object e = s.object e := by
  have same := sameGraph_set here { object with nrDynamicLibRef := object.nrDynamicLibRef + 1 }
    rfl rfl
  by_cases first : object.nrDynamicLibRef = 0
  · have outside : d ∉ s.loadLibDlls := by
      intro there
      obtain ⟨o, here', some_⟩ := (core.dynamic d).mp there
      rw [here] at here'
      cases here'
      exact some_ first
    have same' : SameGraph s (Loader.set { s with loadLibDlls := push d s.loadLibDlls } d
        { object with nrDynamicLibRef := object.nrDynamicLibRef + 1 }) :=
      ⟨rfl, rfl, rfl, rfl, rfl, same.object⟩
    refine ⟨_, ?_, same'.core core ?_ ?_, same', rfl, Loader.set_object_self ..,
      fun e other => Loader.set_object_of_ne _ other _⟩
    · unfold incDynamicLib
      rw [get_eq here]
      simp only [bind, Except.bind, if_pos first]
      rfl
    · exact List.nodup_cons.mpr ⟨outside, core.dynamicOnce⟩
    · intro e
      change e ∈ d :: s.loadLibDlls ↔ _
      by_cases own : e = d
      · subst own
        rw [Loader.set_object_self]
        simp
      · rw [Loader.set_object_of_ne _ own, List.mem_cons, core.dynamic]
        simp [own]
  · refine ⟨_, ?_, same.core core ?_ ?_, same, rfl, Loader.set_object_self ..,
      fun e other => Loader.set_object_of_ne _ other _⟩
    · unfold incDynamicLib
      rw [get_eq here]
      simp only [bind, Except.bind, if_neg first]
      rfl
    · exact core.dynamicOnce
    · intro e
      change e ∈ s.loadLibDlls ↔ _
      by_cases own : e = d
      · subst own
        rw [Loader.set_object_self]
        simp [(core.dynamic e).mpr ⟨object, here, first⟩]
      · rw [Loader.set_object_of_ne _ own, core.dynamic]

theorem incDynamicLib_spec {s : Loader} {d : Dll} (core : Core s []) (inside : d ∈ s.head)
    (counted : ∀ e, e ≠ d → Counted s [] e) (spare : Spare s d) :
    ∃ t, incDynamicLib d s = .ok t ∧ Inv t [] ∧ SameGraph s t ∧
      t.detachedUnder = s.detachedUnder := by
  obtain ⟨object, here⟩ := (core.live d).mp inside
  obtain ⟨t, called, core', same, detached, mine, others⟩ := incDynamicLib_core core here
  refine ⟨t, called, ⟨core', ?_, nofun⟩, same, detached⟩
  intro e o there
  rw [same.references_eq]
  by_cases own : e = d
  · subst own
    rw [mine] at there
    cases there
    have one := spare object here
    push_cast
    omega
  · rw [others e own] at there
    exact counted e own o there

theorem loadLibraryFound_spec {s : Loader} {d : Dll} (inv : Inv s []) (inside : d ∈ s.head) :
    ∃ t u, incDynamicLib d s = .ok t ∧ addRef d t = .ok u ∧ Inv u [] ∧ SameGraph s u ∧
      u.detachedUnder = s.detachedUnder := by
  obtain ⟨object, here⟩ := (inv.live d).mp inside
  obtain ⟨t, called, core', same, detached, mine, others⟩ := incDynamicLib_core inv.toCore here
  have same' := sameGraph_set mine { object with
    nrDynamicLibRef := object.nrDynamicLibRef + 1, referenced := object.referenced + 1 } rfl rfl
  have dynamic := sameDynamic_set mine { object with
    nrDynamicLibRef := object.nrDynamicLibRef + 1, referenced := object.referenced + 1 } rfl
  refine ⟨t, t.set d { object with
    nrDynamicLibRef := object.nrDynamicLibRef + 1, referenced := object.referenced + 1 }, called,
    ?_, ⟨same'.core_same dynamic core', ?_, nofun⟩, same.trans same', detached⟩
  · unfold addRef
    rw [get_eq mine]
    rfl
  · intro e o there
    rw [same'.references_eq, same.references_eq]
    by_cases own : e = d
    · subst own
      rw [Loader.set_object_self] at there
      cases there
      have count := inv.counted e object here
      push_cast
      omega
    · rw [Loader.set_object_of_ne _ own, others e own] at there
      exact inv.counted e o there

/-! ## An import -/

/-- A queue has one entry more. -/
structure Imports (s t : Loader) (p d : Dll) : Prop where
  head : t.head = s.head
  created : t.created = s.created
  exeDlls : t.exeDlls = s.exeDlls
  loading : t.loading = s.loading
  deleted : t.deleted = s.deleted
  detachedUnder : t.detachedUnder = s.detachedUnder
  dynamic : SameDynamic s t
  deps : ∀ u, t.deps u = if u = p then d :: s.deps p else s.deps u
  object : ∀ u, (t.object u).map (fun o => (o.referenced, o.nrDynamicLibRef, o.fInserted)) =
    (s.object u).map fun o => (o.referenced, o.nrDynamicLibRef, o.fInserted)

theorem addDependency_spec {s : Loader} {p : Dll} (d : Dll) {object : Win32DllBase}
    (here : s.object p = some object) : ∃ t, addDependency p d s = .ok t ∧ Imports s t p d := by
  refine ⟨s.set p { object with loadedDlls := push d object.loadedDlls }, ?_, ?_⟩
  · unfold addDependency
    rw [get_eq here]
    rfl
  · refine ⟨rfl, rfl, rfl, rfl, rfl, rfl, sameDynamic_set here _ rfl, ?_, ?_⟩
    · intro u
      split
      · next own =>
        subst own
        rw [deps_eq (Loader.set_object_self s u _), deps_eq here]
        rfl
      · next other =>
        unfold Loader.deps
        rw [Loader.set_object_of_ne _ other]
    · intro u
      by_cases own : u = p
      · subst own
        rw [here, Loader.set_object_self]
        rfl
      · rw [Loader.set_object_of_ne _ own]

namespace Imports

variable {s t : Loader} {p d : Dll} (imports : Imports s t p d)

include imports

theorem dependsOn : t.DependsOn = withImport s p d := by
  funext u v
  unfold Loader.DependsOn withImport
  rw [imports.deps]
  split
  · next own =>
    subst own
    simp [Loader.DependsOn, or_comm]
  · next other =>
    simp [Loader.DependsOn, other]

theorem get {u : Dll} {o : Win32DllBase} (here : t.object u = some o) :
    ∃ o', s.object u = some o' ∧ o.referenced = o'.referenced ∧
      o.nrDynamicLibRef = o'.nrDynamicLibRef ∧ o.fInserted = o'.fInserted := by
  have eq := imports.object u
  rw [here] at eq
  rcases right : s.object u with _ | o'
  · rw [right] at eq
    cases eq
  · rw [right] at eq
    simp only [Option.map_some, Option.some.injEq, Prod.mk.injEq] at eq
    exact ⟨o', rfl, eq⟩

theorem none_iff (u : Dll) : t.object u = none ↔ s.object u = none := by
  rw [← Option.map_eq_none_iff, imports.object u, Option.map_eq_none_iff]

theorem linked (linked : Linked s) (inside : d ∈ s.head) : Linked t where
  nodup := imports.head ▸ linked.nodup
  live := by
    intro u
    rw [imports.head, linked.live, ← Option.ne_none_iff_exists', ← Option.ne_none_iff_exists',
      ne_eq, ne_eq, imports.none_iff]
  inserted := by
    intro u o here
    obtain ⟨o', here', _, _, inserted⟩ := imports.get here
    rw [inserted]
    exact linked.inserted u o' here'
  deps := by
    intro u v edge
    rw [imports.dependsOn] at edge
    rw [imports.head]
    rcases edge with edge | ⟨_, rfl⟩
    · exact linked.deps u v edge
    · exact inside

theorem core (core : Core s []) (inside : d ∈ s.head) (short : CyclesShort t) {head : List Dll}
    (perm : head.Perm t.head) (ordered : ∀ u v, ¬ Misplaced t head u v) :
    Core { t with head := head } [] where
  toLinked := (imports.linked core.toLinked inside).perm perm
  fresh := fun u above => (imports.none_iff u).mpr (core.fresh u (imports.created ▸ above))
  gone := by
    intro u
    change u ∈ t.deleted ↔ u < t.created ∧ t.object u = none
    rw [imports.deleted, imports.created, imports.none_iff, core.gone]
  once := imports.deleted ▸ core.once
  exe := by
    intro u there
    rw [perm.mem_iff, imports.head]
    exact core.exe u (imports.exeDlls ▸ there)
  waiting := nofun
  loads := by
    intro load there
    rw [perm.mem_iff, imports.head]
    exact core.loads load (imports.loading ▸ there)
  loadsOnce := imports.loading ▸ core.loadsOnce
  dynamicOnce := imports.dynamic.loadLibDlls ▸ core.dynamicOnce
  dynamic := by
    intro u
    change u ∈ t.loadLibDlls ↔ ∃ o, t.object u = some o ∧ _
    rw [imports.dynamic.loadLibDlls, core.dynamic]
    constructor
    · rintro ⟨o, here, some_⟩
      obtain ⟨o', here', nr⟩ := imports.dynamic.symm.get here
      exact ⟨o', here', nr ▸ some_⟩
    · rintro ⟨o, here, some_⟩
      obtain ⟨o', here', nr⟩ := imports.dynamic.get here
      exact ⟨o', here', nr ▸ some_⟩
  ordered := ordered
  short := short

theorem count (nodup : s.head.Nodup) (inside : p ∈ s.head) {head : List Dll}
    (perm : head.Perm t.head) (e : Dll) : (references { t with head := head } []).count e =
      (references s []).count e + if d = e then 1 else 0 := by
  have queues : (head.flatMap t.deps).count e =
      (s.head.flatMap s.deps).count e + if d = e then 1 else 0 := by
    have all : head.Perm (p :: s.head.erase p) :=
      (imports.head ▸ perm).trans (List.perm_cons_erase inside)
    have rest : ((s.head.erase p).flatMap t.deps).count e =
        ((s.head.erase p).flatMap s.deps).count e := by
      rw [List.count_flatMap, List.count_flatMap]
      congr 1
      refine List.map_congr_left ?_
      intro u there
      simp only [Function.comp_apply]
      rw [imports.deps, if_neg (nodup.mem_erase_iff.mp there).1]
    rw [(all.flatMap_right t.deps).count_eq,
      ((List.perm_cons_erase inside).flatMap_right s.deps).count_eq, List.flatMap_cons,
      List.flatMap_cons, List.count_append, List.count_append, rest, imports.deps, if_pos rfl,
      List.count_cons]
    simp only [beq_iff_eq]
    omega
  unfold references held
  simp only [List.count_append]
  change (head.flatMap t.deps).count e + _ = _
  rw [queues, imports.exeDlls, imports.loading]
  omega

end Imports

theorem bindImport_spec {s : Loader} {p d : Dll} (core : Core s []) (inside : p ∈ s.head)
    (inside' : d ∈ s.head) (counted : ∀ e, e ≠ d → Counted s [] e) (spare : Spare s d)
    (short : ∀ l, IsCycle (withImport s p d) l → l.length = 2) :
    ∃ t, bindImport s.head.length p d s = .ok t ∧ Inv t [] ∧ t.DependsOn = withImport s p d ∧
      t.detachedUnder = s.detachedUnder := by
  obtain ⟨object, here⟩ := (core.live p).mp inside
  obtain ⟨u, called, imports⟩ := addDependency_spec d here
  have short' : CyclesShort u := by
    unfold CyclesShort
    rw [imports.dependsOn]
    exact short
  obtain ⟨head, placed, perm, ordered⟩ := setUnloadOrder_spec
    (imports.linked core.toLinked inside') short'
    (by rw [imports.dependsOn]; exact Or.inr ⟨rfl, rfl⟩ : u.DependsOn p d)
    (imports.head ▸ inside)
    (by
      rintro a b ⟨edge, single, wrong⟩
      rw [imports.dependsOn] at edge single
      rw [imports.head] at wrong
      rcases edge with edge | new
      · exact absurd ⟨edge, fun back => single (Or.inl back), wrong⟩ (core.ordered a b)
      · exact new)
    (Nat.le_of_eq (congrArg List.length imports.head))
  refine ⟨{ u with head := head }, ?_, ⟨imports.core core inside' short' perm ordered, ?_, nofun⟩,
    imports.dependsOn, imports.detachedUnder⟩
  · unfold bindImport
    rw [bind_ok]
    exact ⟨u, called, placed⟩
  · intro e o there
    obtain ⟨o', there', ref, nr, _⟩ := imports.get there
    rw [imports.count core.nodup inside perm, ref, nr]
    by_cases own : d = e
    · subst own
      have one := spare o' there'
      rw [if_pos rfl]
      omega
    · have enough := counted e (Ne.symm own) o' there'
      rw [if_neg own]
      omega

/-! ## A new DLL -/

/-- The list with a new member somewhere, and its object. -/
def joined (s : Loader) (head : List Dll) (load : Load) (object : Win32DllBase) : Loader :=
  { s with
    head := head
    object := Function.update s.object s.created (some object)
    created := s.created + 1
    loading := load :: s.loading }

theorem joined_deps {s : Loader} {pending : List Dll} (core : Core s pending) (head : List Dll)
    (load : Load) {object : Win32DllBase} (queue : object.loadedDlls = []) :
    (joined s head load object).deps = s.deps := by
  funext u
  unfold Loader.deps joined
  simp only
  by_cases own : u = s.created
  · subst own
    rw [Function.update_self, core.fresh s.created (Nat.le_refl _)]
    exact queue
  · rw [Function.update_of_ne own]

theorem not_mem_head {s : Loader} {pending : List Dll} (core : Core s pending) :
    s.created ∉ s.head := by
  intro inside
  obtain ⟨o, here⟩ := (core.live _).mp inside
  rw [core.fresh s.created (Nat.le_refl _)] at here
  cases here

theorem mem_head_of_references {s : Loader} {pending : List Dll} (core : Core s pending) {d : Dll}
    (inside : d ∈ references s pending) : d ∈ s.head := by
  unfold references held at inside
  simp only [List.mem_append, List.mem_flatMap, List.mem_filterMap] at inside
  rcases inside with ⟨u, _, edge⟩ | exe | waiting | ⟨load, there, same⟩
  · exact core.deps u d edge
  · exact core.exe d exe
  · exact core.waiting d waiting
  · split at same
    · cases same
      exact core.loads load there
    · cases same

theorem joined_inv {s : Loader} (inv : Inv s []) {head : List Dll}
    (perm : head.Perm (s.created :: s.head)) (sub : s.head.Sublist head) (origin : Origin)
    {object : Win32DllBase} (queue : object.loadedDlls = []) (nr : object.nrDynamicLibRef = 0)
    (referenced : object.referenced = 0) (inserted : object.fInserted = true) :
    Inv (joined s head ⟨s.created, origin, .imports⟩ object) [] := by
  have outside := not_mem_head inv.toCore
  have deps := joined_deps inv.toCore head ⟨s.created, origin, .imports⟩ queue
  have graph : (joined s head ⟨s.created, origin, .imports⟩ object).DependsOn = s.DependsOn := by
    funext u v
    unfold Loader.DependsOn
    rw [deps]
  have mine : (joined s head ⟨s.created, origin, .imports⟩ object).object s.created =
      some object := Function.update_self ..
  have others {u : Dll} (other : u ≠ s.created) :
      (joined s head ⟨s.created, origin, .imports⟩ object).object u = s.object u :=
    Function.update_of_ne other ..
  have heads : (joined s head ⟨s.created, origin, .imports⟩ object).head = head := rfl
  have kept {u : Dll} (there : u ∈ s.head) : u ∈ head := sub.subset there
  have refs (e : Dll) : (references (joined s head ⟨s.created, origin, .imports⟩ object) []).count e
      = (references s []).count e := by
    unfold references
    rw [deps, heads]
    simp only [List.count_append]
    rw [(perm.flatMap_right s.deps).count_eq, List.flatMap_cons, List.count_append]
    have none_ : s.deps s.created = [] := by
      unfold Loader.deps
      rw [inv.fresh s.created (Nat.le_refl _)]
    rw [none_]
    simp [joined, held]
  refine ⟨⟨⟨?_, ?_, ?_, ?_⟩, ?_, ?_, ?_, ?_, nofun, ?_, ?_, ?_, ?_, ?_, ?_⟩, ?_, nofun⟩
  · exact perm.nodup_iff.mpr (List.nodup_cons.mpr ⟨outside, inv.nodup⟩)
  · intro u
    rw [heads, perm.mem_iff, List.mem_cons]
    by_cases own : u = s.created
    · subst own
      simp [mine]
    · rw [others own, inv.live]
      simp [own]
  · intro u o there
    by_cases own : u = s.created
    · subst own
      rw [mine] at there
      cases there
      exact inserted
    · rw [others own] at there
      exact inv.inserted u o there
  · intro u v edge
    rw [graph] at edge
    exact kept (inv.deps u v edge)
  · intro u above
    change s.created + 1 ≤ u at above
    have other : u ≠ s.created := by
      rintro rfl
      exact Nat.not_succ_le_self _ above
    rw [others other]
    exact inv.fresh u (Nat.le_of_succ_le above)
  · intro u
    change u ∈ s.deleted ↔ u < s.created + 1 ∧ _
    rw [inv.gone]
    by_cases own : u = s.created
    · subst own
      simp [mine]
    · rw [others own, Nat.lt_succ_iff_lt_or_eq]
      simp [own]
  · exact inv.once
  · exact fun u there => kept (inv.exe u there)
  · intro load there
    rcases List.mem_cons.mp there with rfl | there
    · exact perm.mem_iff.mpr List.mem_cons_self
    · exact kept (inv.loads load there)
  · refine List.nodup_cons.mpr ⟨?_, inv.loadsOnce⟩
    intro there
    obtain ⟨load, there, same⟩ := List.mem_map.mp there
    have known := inv.loads load there
    rw [same] at known
    exact outside known
  · exact inv.dynamicOnce
  · intro u
    change u ∈ s.loadLibDlls ↔ _
    rw [inv.dynamic]
    by_cases own : u = s.created
    · subst own
      rw [mine, inv.fresh _ (Nat.le_refl _)]
      simp [nr]
    · rw [others own]
  · intro u v
    unfold Misplaced
    rw [graph]
    rintro ⟨edge, single, wrong⟩
    exact inv.ordered u v ⟨edge, single, fun before => wrong (List.Sublist.trans before sub)⟩
  · unfold CyclesShort
    rw [graph]
    exact inv.short
  · intro e o there
    rw [refs]
    by_cases own : e = s.created
    · subst own
      rw [mine] at there
      cases there
      have none_ : (references s []).count s.created = 0 :=
        List.count_eq_zero.mpr fun inside => outside (mem_head_of_references inv.toCore inside)
      rw [none_, nr, referenced]
      exact Int.le_refl _
    · rw [others own] at there
      exact inv.counted e o there

theorem place_new {s : Loader} (live : ∀ dll ∈ s.head, ∃ o, s.object dll = some o)
    (nodup : s.head.Nodup) {p : Dll} (inside : p ∈ s.head) (d : Dll) :
    place s (some p) d false = .ok (some (some p, insertAfter p d s.head)) := by
  obtain ⟨o, here⟩ := live p inside
  rcases walk_spec (d := p) live nodup with ⟨none_, _⟩ | ⟨next, walked, _⟩
  · exact absurd inside none_
  · unfold place
    simp only [get_eq here, walked, bind, Except.bind, pure, Except.pure]
    rfl

theorem construct_spec {s : Loader} (inv : Inv s []) (origin : Origin) (fSkipEntryCalls : Bool)
    (parent : Option Dll) (known : ∀ p, parent = some p → p ∈ s.head) :
    ∃ t, construct 1 origin fSkipEntryCalls parent s = .ok t ∧ Inv t [] ∧
      t.DependsOn = s.DependsOn ∧ t.detachedUnder = s.detachedUnder := by
  have outside := not_mem_head inv.toCore
  obtain ⟨head, placed, perm, sub⟩ : ∃ head : List Dll,
      place { s.set s.created (newDll fSkipEntryCalls) with created := s.created + 1 } parent
        s.created false = .ok (some (parent, head)) ∧ head.Perm (s.created :: s.head) ∧
        s.head.Sublist head := by
    rcases parent with _ | p
    · exact ⟨s.created :: s.head, rfl, List.Perm.refl _, List.sublist_cons_self _ _⟩
    · have inside := known p rfl
      refine ⟨insertAfter p s.created s.head,
        place_new (s := { s.set s.created (newDll fSkipEntryCalls) with created := s.created + 1 })
          ?_ inv.nodup inside s.created,
        insertAfter_perm inside, sublist_insertAfter _ _ _⟩
      intro dll there
      have other : dll ≠ s.created := fun same => outside (same ▸ there)
      obtain ⟨o, here⟩ := (inv.live dll).mp there
      exact ⟨o, (Loader.set_object_of_ne s other _).trans here⟩
  have graph : (joined s head ⟨s.created, origin, .imports⟩
      { newDll fSkipEntryCalls with fInserted := true }).DependsOn = s.DependsOn := by
    funext u v
    unfold Loader.DependsOn
    rw [joined_deps inv.toCore head _ rfl]
  refine ⟨joined s head ⟨s.created, origin, .imports⟩
    { newDll fSkipEntryCalls with fInserted := true }, ?_,
    joined_inv inv perm sub origin rfl rfl rfl rfl, graph, rfl⟩
  unfold construct setUnloadOrder
  have mine : Loader.get { s.set s.created (newDll fSkipEntryCalls) with
      created := s.created + 1 } s.created = .ok (newDll fSkipEntryCalls) :=
    get_eq (Loader.set_object_self s s.created _)
  simp only [mine, bind, Except.bind]
  rw [show (newDll fSkipEntryCalls).fInserted = false from rfl, placed]
  simp [joined, newDll, Loader.set, pure, Except.pure]

/-! ## The loads in progress -/

theorem count_references_loading (s : Loader) (loading : List Load) (e : Dll) :
    (references { s with loading := loading } []).count e + (held s).count e =
      (references s []).count e + (held { s with loading := loading }).count e := by
  unfold references
  simp only [List.count_append]
  change (s.head.flatMap s.deps).count e + (s.exeDlls.count e + (_ + _)) + _ = _
  omega

theorem Inv.changeLoads {s : Loader} (inv : Inv s []) {loading : List Load}
    (dlls : (loading.map Load.dll).Sublist (s.loading.map Load.dll))
    (fewer : ∀ e, (held { s with loading := loading }).count e ≤ (held s).count e) :
    Inv { s with loading := loading } [] where
  toCore := { inv.toCore with
    toLinked := ⟨inv.nodup, inv.live, inv.inserted, inv.deps⟩
    loads := by
      intro load there
      obtain ⟨old, there', same⟩ := List.mem_map.mp (dlls.subset (List.mem_map_of_mem there))
      rw [← same]
      exact inv.loads old there'
    loadsOnce := inv.loadsOnce.sublist dlls }
  counted := by
    intro e o here
    have enough := inv.counted e o here
    have less := fewer e
    have sum := count_references_loading s loading e
    omega
  settled := nofun

theorem held_cons (s : Loader) (load : Load) (loading : List Load) :
    held { s with loading := load :: loading } =
      if load.phase = .entry then load.dll :: held { s with loading := loading }
      else held { s with loading := loading } := by
  unfold held
  simp only [List.filterMap_cons]
  split <;> rename_i eq <;> split at eq <;> simp_all

theorem held_top {s : Loader} {load : Load} {loading : List Load}
    (top : s.loading = load :: loading) : held s =
      if load.phase = .entry then load.dll :: held { s with loading := loading }
      else held { s with loading := loading } := by
  rw [← held_cons]
  unfold held
  rw [top]

theorem Inv.pop {s : Loader} (inv : Inv s []) {load : Load} {loading : List Load}
    (top : s.loading = load :: loading) : Inv { s with loading := loading } [] := by
  refine inv.changeLoads ?_ ?_
  · rw [top]
    exact List.sublist_cons_self _ _
  · intro e
    rw [held_top top]
    split
    · exact List.count_le_count_cons
    · exact Nat.le_refl _

theorem Inv.pop_spare {s : Loader} (inv : Inv s []) {load : Load} {loading : List Load}
    (top : s.loading = load :: loading) (entry : load.phase = .entry) :
    Spare { s with loading := loading } load.dll := by
  intro o here
  have enough := inv.counted load.dll o here
  have sum := count_references_loading s loading load.dll
  have more : held s = load.dll :: held { s with loading := loading } := by
    rw [held_top top, if_pos entry]
  rw [more, List.count_cons_self] at sum
  omega

theorem Inv.top_unique {s : Loader} (inv : Inv s []) {load : Load} {loading : List Load}
    (top : s.loading = load :: loading) {other : Load} (inside : other ∈ loading) :
    other.dll ≠ load.dll := by
  have once := inv.loadsOnce
  rw [top, List.map_cons, List.nodup_cons] at once
  intro same
  exact once.1 (same ▸ List.mem_map_of_mem inside)

theorem forget_eq_self {s : Loader} {d : Dll} (alone : ∀ u, ¬ s.DependsOn u d)
    (queue : List Dll) : forget s d queue = s := by
  have same : (forget s d queue).object = s.object := by
    funext u
    unfold forget
    simp only
    rcases here : s.object u with _ | o
    · rfl
    · have outside := alone u
      unfold Loader.DependsOn at outside
      rw [deps_eq here] at outside
      have whole : (o.loadedDlls.filter fun dll => dll ≠ d) = o.loadedDlls := by
        rw [List.filter_eq_self]
        intro dll inside
        have other : dll ≠ d := fun same => outside (same ▸ inside)
        simpa using other
      simp only [Option.map_some, whole, ite_self]
  calc forget s d queue = { s with object := (forget s d queue).object } := rfl
    _ = s := by rw [same]

theorem Inv.remove {s : Loader} (inv : Inv s []) {d : Dll} (inside : d ∈ s.head)
    (alone : ∀ u, ¬ s.DependsOn u d) (exe : d ∉ s.exeDlls)
    (loads : ∀ load ∈ s.loading, load.dll ≠ d) (dynamic : d ∉ s.loadLibDlls) :
    Inv { s with head := s.head.erase d, object := Function.update s.object d none,
                 deleted := d :: s.deleted } [] := by
  have back : ∀ u, s.DependsOn u d → s.DependsOn d u := fun u edge => absurd edge (alone u)
  have core := inv.toCore.without inside back exe List.not_mem_nil loads dynamic
  have same : DllList.without s d (s.deps d) = { s with
      head := s.head.erase d, object := Function.update s.object d none,
      deleted := d :: s.deleted } := by
    unfold DllList.without
    rw [forget_eq_self alone]
  have count := @without_references s d inv.nodup inside (s.deps d) []
  rw [same] at core count
  refine ⟨{ core with waiting := nofun }, ?_, nofun⟩
  intro e o here
  have other : e ≠ d := by
    rintro rfl
    simp at here
  have there : s.object e = some o := by
    simpa [Function.update_of_ne other] using here
  have enough := inv.counted e o there
  have equal := count other
  have fewer (t : Loader) : (references t []).count e ≤ (references t (s.deps d ++ [])).count e := by
    unfold references
    simp only [List.count_append]
    omega
  have less := fewer { s with head := s.head.erase d, object := Function.update s.object d none,
                              deleted := d :: s.deleted }
  omega

/-- Nothing refers to a DLL but its own load. -/
def Unreferenced (s : Loader) (d : Dll) : Prop :=
  (∀ u, ¬ s.DependsOn u d) ∧ d ∉ s.exeDlls ∧ d ∉ s.loadLibDlls

theorem abandon_spec {s : Loader} (inv : Inv s []) {d : Dll} {origin : Origin} {phase : Phase}
    {loading : List Load} (top : s.loading = ⟨d, origin, phase⟩ :: loading)
    (free : Unreferenced s d) : ∃ t, abandon d origin loading s = .ok t ∧ Inv t [] ∧
      (∀ u v, t.DependsOn u v → s.DependsOn u v) ∧ t.detachedUnder = s.detachedUnder := by
  obtain ⟨alone, exe, dynamic⟩ := free
  have inside : d ∈ s.head := inv.loads ⟨d, origin, phase⟩ (by rw [top]; exact List.mem_cons_self)
  have deleted := delete_eq inv.toLinked inside alone
  have fewer (loading' : List Load) : ∀ u v, Loader.DependsOn { s with
      head := s.head.erase d, object := Function.update s.object d none,
      deleted := d :: s.deleted, loading := loading' } u v → s.DependsOn u v := by
    intro u v edge
    unfold Loader.DependsOn Loader.deps at edge ⊢
    simp only at edge
    by_cases own : u = d
    · subst own
      simp at edge
    · rwa [Function.update_of_ne own] at edge
  have removed {loading' : List Load} (dlls : loading'.map Load.dll = loading.map Load.dll)
      (fewer : ∀ e, (held { s with loading := loading' }).count e ≤
        (held { s with loading := loading }).count e) :
      Inv { s with
        head := s.head.erase d, object := Function.update s.object d none,
        deleted := d :: s.deleted, loading := loading' } [] := by
    have popped : Inv { s with loading := loading' } [] :=
      (inv.pop top).changeLoads (by rw [dlls]) fewer
    refine popped.remove inside alone exe ?_ dynamic
    intro load there same
    obtain ⟨other, there', same'⟩ := List.mem_map.mp (dlls ▸ List.mem_map_of_mem there)
    exact inv.top_unique top there' (same'.trans same)
  unfold abandon
  simp only [deleted, bind, Except.bind]
  split
  · next importer rest =>
    refine ⟨_, rfl, removed ?_ ?_, fewer _, rfl⟩
    · rfl
    · intro e
      rw [held_cons, held_cons, if_neg (by simp)]
      split
      · exact List.count_le_count_cons
      · exact Nat.le_refl _
  · exact ⟨_, rfl, removed rfl fun _ => Nat.le_refl _, fewer _, rfl⟩

theorem attachProcess_spec {s : Loader} {d : Dll} (inv : Inv s []) (inside : d ∈ s.head) :
    ∃ t, attachProcess d s = .ok t ∧ Inv t [] ∧ SameGraph s t ∧
      t.detachedUnder = s.detachedUnder := by
  obtain ⟨object, here⟩ := (inv.live d).mp inside
  have same := sameGraph_set here { object with fAttachedToProcess := true } rfl rfl
  have dynamic := sameDynamic_set here { object with fAttachedToProcess := true } rfl
  unfold attachProcess
  rw [get_eq here]
  simp only [bind, Except.bind]
  split
  · exact ⟨s, rfl, inv, ⟨rfl, rfl, rfl, rfl, rfl, fun _ => rfl⟩, rfl⟩
  · refine ⟨_, rfl, ⟨same.core_same dynamic inv.toCore, ?_, nofun⟩, same, rfl⟩
    intro e o there
    rw [same.references_eq]
    by_cases own : e = d
    · subst own
      rw [Loader.set_object_self] at there
      cases there
      exact inv.counted e object here
    · rw [Loader.set_object_of_ne _ own] at there
      exact inv.counted e o there

theorem initDone_spec {s : Loader} (inv : Inv s []) {d : Dll} {origin : Origin}
    {loading : List Load} (top : s.loading = ⟨d, origin, .imports⟩ :: loading) :
    ∃ t u, addRef d s = .ok t ∧
      attachProcess d { t with loading := ⟨d, origin, .entry⟩ :: loading } = .ok u ∧ Inv u [] ∧
      u.DependsOn = s.DependsOn ∧ u.detachedUnder = s.detachedUnder := by
  have inside : d ∈ s.head := inv.loads ⟨d, origin, .imports⟩ (by rw [top]; exact List.mem_cons_self)
  obtain ⟨t, called, inv', spare, same, _, detached⟩ := addRef_spec inv inside
  have top' : t.loading = ⟨d, origin, .imports⟩ :: loading := same.loading.trans top
  have entered : Inv { t with loading := ⟨d, origin, .entry⟩ :: loading } [] := by
    refine ⟨{ inv'.toCore with
      toLinked := ⟨inv'.nodup, inv'.live, inv'.inserted, inv'.deps⟩
      loads := ?_
      loadsOnce := ?_ }, ?_, nofun⟩
    · intro load there
      rcases List.mem_cons.mp there with rfl | there
      · exact same.head ▸ inside
      · exact inv'.loads load (by rw [top']; exact List.mem_cons_of_mem _ there)
    · have once := inv'.loadsOnce
      rw [top'] at once
      exact once
    · intro e o here
      have sum := count_references_loading t (⟨d, origin, .entry⟩ :: loading) e
      rw [held_cons, if_pos rfl, held_top top', if_neg (by simp), List.count_cons] at sum
      by_cases own : d = e
      · subst own
        have one := spare o here
        simp only [beq_self_eq_true, if_true] at sum
        omega
      · have enough := inv'.counted e o here
        rw [if_neg (by simpa using own)] at sum
        omega
  obtain ⟨u, attached, inv'', same', detached'⟩ :=
    attachProcess_spec entered (show d ∈ t.head from same.head ▸ inside)
  exact ⟨t, u, called, attached, inv'', same'.dependsOn_eq.trans same.dependsOn_eq,
    detached'.trans detached⟩

theorem bindExeImport_spec {s : Loader} {d : Dll} (core : Core s []) (inside : d ∈ s.head)
    (counted : ∀ e, e ≠ d → Counted s [] e) (spare : Spare s d) :
    bindExeImport 1 d s = .ok { s with exeDlls := push d s.exeDlls } ∧
      Inv { s with exeDlls := push d s.exeDlls } [] := by
  obtain ⟨object, here⟩ := (core.live d).mp inside
  constructor
  · have mine : Loader.get { s with exeDlls := push d s.exeDlls } d = .ok object := get_eq here
    unfold bindExeImport setUnloadOrder
    rw [mine]
    simp only [place, bind, Except.bind, pure, Except.pure, core.inserted d object here, if_true]
  · have count (e : Dll) : (references { s with exeDlls := push d s.exeDlls } []).count e =
        (references s []).count e + if d = e then 1 else 0 := by
      unfold references
      simp only [List.count_append]
      change _ + ((d :: s.exeDlls).count e + (_ + (held s).count e)) = _
      rw [List.count_cons]
      simp only [beq_iff_eq]
      change (s.head.flatMap s.deps).count e + _ = _
      omega
    refine ⟨{ core with
      toLinked := ⟨core.nodup, core.live, core.inserted, core.deps⟩
      exe := ?_ }, ?_, fun _ none_ => absurd none_ List.not_mem_nil⟩
    · intro e there
      rcases List.mem_cons.mp there with rfl | there
      · exact inside
      · exact core.exe e there
    · intro e o there
      rw [count]
      by_cases own : d = e
      · subst own
        have one := spare o there
        rw [if_pos rfl]
        omega
      · have enough := counted e (Ne.symm own) o there
        rw [if_neg own]
        omega

end Odin32.DllList
