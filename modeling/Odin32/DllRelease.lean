import Mathlib.Logic.Relation
import Odin32.DllFuel
import Odin32.DllOrder

/-! # References

Every DLL has at least as many references as there are queues it is in, loads that have
called their entry point, and references of `LoadLibrary`. So a count that runs out says
that nothing refers to the DLL, and `Release` can go on with its imports. -/

set_option autoImplicit false

namespace Odin32.DllList

open OrderedList Relation

/-- The loads that hold a reference. -/
def held (s : Loader) : List Dll :=
  s.loading.filterMap fun load => if load.phase = .entry then some load.dll else none

/-- Everything that counts as a reference, with the releases that are still to come. -/
def references (s : Loader) (pending : List Dll) : List Dll :=
  s.head.flatMap s.deps ++ (s.exeDlls ++ (pending ++ held s))

/-- The DLL depends on none whose load holds no reference yet. -/
def Settled (s : Loader) (d : Dll) : Prop :=
  ∀ load ∈ s.loading, load.phase ≠ .entry → ¬ ReflTransGen s.DependsOn d load.dll

structure Core (s : Loader) (pending : List Dll) : Prop extends Linked s where
  fresh : ∀ d, s.created ≤ d → s.object d = none
  gone : ∀ d, d ∈ s.deleted ↔ d < s.created ∧ s.object d = none
  once : s.deleted.Nodup
  exe : ∀ d ∈ s.exeDlls, d ∈ s.head
  waiting : ∀ d ∈ pending, d ∈ s.head
  loads : ∀ load ∈ s.loading, load.dll ∈ s.head
  loadsOnce : (s.loading.map Load.dll).Nodup
  dynamicOnce : s.loadLibDlls.Nodup
  dynamic : ∀ d, d ∈ s.loadLibDlls ↔
    ∃ object, s.object d = some object ∧ object.nrDynamicLibRef ≠ 0
  ordered : ∀ u v, ¬ Misplaced s s.head u v
  short : CyclesShort s

def Counted (s : Loader) (pending : List Dll) (d : Dll) : Prop :=
  ∀ object, s.object d = some object →
    ((references s pending).count d : ℤ) + object.nrDynamicLibRef ≤ object.referenced

structure Inv (s : Loader) (pending : List Dll) : Prop extends Core s pending where
  counted : ∀ d, Counted s pending d
  settled : ∀ d ∈ pending, Settled s d

/-! ## The same graph -/

/-- The lists are the same, and so are the queues of the objects. -/
structure SameGraph (s t : Loader) : Prop where
  head : t.head = s.head
  created : t.created = s.created
  exeDlls : t.exeDlls = s.exeDlls
  loading : t.loading = s.loading
  deleted : t.deleted = s.deleted
  object : ∀ d, (t.object d).map (fun o => (o.loadedDlls, o.fInserted)) =
    (s.object d).map fun o => (o.loadedDlls, o.fInserted)

/-- The references of `LoadLibrary` are the same. -/
structure SameDynamic (s t : Loader) : Prop where
  loadLibDlls : t.loadLibDlls = s.loadLibDlls
  object : ∀ d, (t.object d).map Win32DllBase.nrDynamicLibRef =
    (s.object d).map Win32DllBase.nrDynamicLibRef

theorem SameDynamic.get {s t : Loader} (same : SameDynamic s t) {d : Dll} {o : Win32DllBase}
    (here : t.object d = some o) :
    ∃ o', s.object d = some o' ∧ o.nrDynamicLibRef = o'.nrDynamicLibRef := by
  have eq := same.object d
  rw [here] at eq
  rcases right : s.object d with _ | o'
  · rw [right] at eq
    cases eq
  · rw [right] at eq
    exact ⟨o', rfl, Option.some.inj eq⟩

theorem SameDynamic.symm {s t : Loader} (same : SameDynamic s t) : SameDynamic t s :=
  ⟨same.loadLibDlls.symm, fun d => (same.object d).symm⟩

namespace SameGraph

variable {s t : Loader} (same : SameGraph s t)

include same

theorem some_iff (d : Dll) : (∃ o, t.object d = some o) ↔ ∃ o, s.object d = some o := by
  have eq := same.object d
  rcases left : t.object d with _ | o <;> rcases right : s.object d with _ | o' <;>
    simp_all

theorem none_iff (d : Dll) : t.object d = none ↔ s.object d = none := by
  rw [← not_iff_not, ← ne_eq, ← ne_eq, Option.ne_none_iff_exists', Option.ne_none_iff_exists']
  exact same.some_iff d

theorem get {d : Dll} {o : Win32DllBase} (here : t.object d = some o) :
    ∃ o', s.object d = some o' ∧ o.loadedDlls = o'.loadedDlls ∧ o.fInserted = o'.fInserted := by
  have eq := same.object d
  rw [here] at eq
  rcases right : s.object d with _ | o'
  · rw [right] at eq
    cases eq
  · rw [right] at eq
    simp only [Option.map_some, Option.some.injEq, Prod.mk.injEq] at eq
    exact ⟨o', rfl, eq⟩

theorem deps_eq : t.deps = s.deps := by
  funext d
  unfold Loader.deps
  have eq := same.object d
  rcases left : t.object d with _ | o <;> rcases right : s.object d with _ | o' <;>
    simp_all

theorem dependsOn_eq : t.DependsOn = s.DependsOn := by
  funext u v
  unfold Loader.DependsOn
  rw [same.deps_eq]

theorem references_eq (pending : List Dll) : references t pending = references s pending := by
  unfold references held
  rw [same.head, same.deps_eq, same.exeDlls, same.loading]

theorem linked (linked : Linked s) : Linked t where
  nodup := same.head ▸ linked.nodup
  live := fun d => by rw [same.head, same.some_iff, linked.live]
  inserted := by
    intro d o here
    obtain ⟨o', here', _, inserted⟩ := same.get here
    rw [inserted]
    exact linked.inserted d o' here'
  deps := by
    rw [same.dependsOn_eq, same.head]
    exact linked.deps

theorem core {pending : List Dll} (core : Core s pending) (once : t.loadLibDlls.Nodup)
    (dynamic : ∀ d, d ∈ t.loadLibDlls ↔ ∃ o, t.object d = some o ∧ o.nrDynamicLibRef ≠ 0) :
    Core t pending where
  toLinked := same.linked core.toLinked
  fresh := fun d above => (same.none_iff d).mpr (core.fresh d (same.created ▸ above))
  gone := fun d => by rw [same.deleted, same.created, same.none_iff, core.gone]
  once := same.deleted ▸ core.once
  exe := same.exeDlls ▸ same.head ▸ core.exe
  waiting := same.head ▸ core.waiting
  loads := same.loading ▸ same.head ▸ core.loads
  loadsOnce := same.loading ▸ core.loadsOnce
  dynamicOnce := once
  dynamic := dynamic
  ordered := by
    unfold Misplaced
    rw [same.dependsOn_eq, same.head]
    exact core.ordered
  short := by
    unfold CyclesShort
    rw [same.dependsOn_eq]
    exact core.short

theorem settled {d : Dll} (settled : Settled s d) : Settled t d := by
  unfold Settled
  rw [same.dependsOn_eq, same.loading]
  exact settled

theorem core_same {pending : List Dll} (dynamic : SameDynamic s t) (core : Core s pending) :
    Core t pending := by
  refine same.core core (dynamic.loadLibDlls ▸ core.dynamicOnce) ?_
  intro d
  rw [dynamic.loadLibDlls, core.dynamic]
  constructor
  · rintro ⟨o, here, some_⟩
    obtain ⟨o', here', nr⟩ := dynamic.symm.get here
    exact ⟨o', here', nr ▸ some_⟩
  · rintro ⟨o, here, some_⟩
    obtain ⟨o', here', nr⟩ := dynamic.get here
    exact ⟨o', here', nr ▸ some_⟩

end SameGraph

theorem SameGraph.trans {s t u : Loader} (first : SameGraph s t) (second : SameGraph t u) :
    SameGraph s u :=
  ⟨second.head.trans first.head, second.created.trans first.created,
    second.exeDlls.trans first.exeDlls, second.loading.trans first.loading,
    second.deleted.trans first.deleted, fun d => (second.object d).trans (first.object d)⟩

theorem sameGraph_set {s : Loader} {d : Dll} {o : Win32DllBase} (here : s.object d = some o)
    (o' : Win32DllBase) (queue : o'.loadedDlls = o.loadedDlls)
    (inserted : o'.fInserted = o.fInserted) : SameGraph s (s.set d o') where
  head := rfl
  created := rfl
  exeDlls := rfl
  loading := rfl
  deleted := rfl
  object := by
    intro e
    by_cases same : e = d
    · subst same
      rw [here, Loader.set_object_self]
      simp [queue, inserted]
    · rw [Loader.set_object_of_ne _ same]

theorem sameDynamic_set {s : Loader} {d : Dll} {o : Win32DllBase} (here : s.object d = some o)
    (o' : Win32DllBase) (nr : o'.nrDynamicLibRef = o.nrDynamicLibRef) :
    SameDynamic s (s.set d o') where
  loadLibDlls := rfl
  object := by
    intro e
    by_cases same : e = d
    · subst same
      rw [here, Loader.set_object_self, Option.map_some, Option.map_some, nr]
    · rw [Loader.set_object_of_ne _ same]

/-! ## A DLL is deleted -/

/-- What a release leaves of what there was. -/
structure Shrinks (s t : Loader) : Prop where
  length : t.head.length ≤ s.head.length
  created : t.created = s.created
  loadLibDlls : t.loadLibDlls = s.loadLibDlls
  exeDlls : t.exeDlls = s.exeDlls
  loading : t.loading = s.loading
  detachedUnder : t.detachedUnder = s.detachedUnder
  object : ∀ d o, t.object d = some o → ∃ o', s.object d = some o' ∧
    o.nrDynamicLibRef = o'.nrDynamicLibRef
  dependsOn : ∀ u v, t.DependsOn u v → s.DependsOn u v

theorem Shrinks.refl (s : Loader) : Shrinks s s :=
  ⟨Nat.le_refl _, rfl, rfl, rfl, rfl, rfl, fun _ o here => ⟨o, here, rfl⟩, fun _ _ => id⟩

theorem Shrinks.trans {s t u : Loader} (first : Shrinks s t) (second : Shrinks t u) :
    Shrinks s u where
  length := second.length.trans first.length
  created := second.created.trans first.created
  loadLibDlls := second.loadLibDlls.trans first.loadLibDlls
  exeDlls := second.exeDlls.trans first.exeDlls
  loading := second.loading.trans first.loading
  detachedUnder := second.detachedUnder.trans first.detachedUnder
  object := by
    intro d o here
    obtain ⟨o', here', nr⟩ := second.object d o here
    obtain ⟨o'', here'', nr'⟩ := first.object d o' here'
    exact ⟨o'', here'', nr.trans nr'⟩
  dependsOn := fun u v edge => first.dependsOn u v (second.dependsOn u v edge)

theorem SameGraph.shrinks {s t : Loader} (same : SameGraph s t) (dynamic : SameDynamic s t)
    (detached : t.detachedUnder = s.detachedUnder) : Shrinks s t where
  length := by rw [same.head]
  created := same.created
  loadLibDlls := dynamic.loadLibDlls
  exeDlls := same.exeDlls
  loading := same.loading
  detachedUnder := detached
  object := fun _ _ here => dynamic.get here
  dependsOn := fun u v edge => by rwa [same.dependsOn_eq] at edge

/-- The queues of some DLLs without the entries of one. -/
def forget (s : Loader) (d : Dll) (queue : List Dll) : Loader :=
  { s with object := fun u => (s.object u).map fun o =>
      if u ∈ queue then { o with loadedDlls := o.loadedDlls.filter fun dll => dll ≠ d } else o }

theorem forget_cons {s : Loader} {d item : Dll} {rest : List Dll} {o : Win32DllBase}
    (here : s.object item = some o) :
    forget (s.set item { o with loadedDlls := o.loadedDlls.filter fun dll => dll ≠ d }) d rest =
      forget s d (item :: rest) := by
  simp only [forget, Loader.set, Loader.mk.injEq, and_true, true_and]
  funext u
  by_cases same : u = item
  · subst same
    simp [here, List.filter_filter]
  · simp [same]

theorem forget_deps (s : Loader) (d : Dll) (queue : List Dll) (u : Dll) :
    (forget s d queue).deps u =
      if u ∈ queue then (s.deps u).filter fun dll => dll ≠ d else s.deps u := by
  unfold Loader.deps forget
  simp only
  rcases s.object u with _ | o
  · simp
  · simp only [Option.map_some]
    split <;> rfl

theorem linked_forget {s : Loader} (linked : Linked s) (d : Dll) (queue : List Dll) :
    Linked (forget s d queue) where
  nodup := linked.nodup
  live := by
    intro u
    rw [show (forget s d queue).head = s.head from rfl, linked.live]
    unfold forget
    simp
  inserted := by
    intro u o here
    unfold forget at here
    simp only [Option.map_eq_some_iff] at here
    obtain ⟨o', here, rfl⟩ := here
    have inserted := linked.inserted u o' here
    split <;> exact inserted
  deps := by
    intro u v edge
    unfold Loader.DependsOn at edge
    rw [forget_deps] at edge
    refine linked.deps u v ?_
    split at edge
    · exact (List.mem_filter.mp edge).1
    · exact edge

theorem removeCircularDependency_all {d : Dll} (queue : List Dll) (s : Loader)
    (live : ∀ u ∈ queue, ∃ o, s.object u = some o) :
    queue.foldlM (fun s dll => removeCircularDependency d dll s) s = .ok (forget s d queue) := by
  induction queue generalizing s with
  | nil =>
    have same : forget s d [] = s := by
      unfold forget
      simp
    rw [same]
    rfl
  | cons item rest ih =>
    obtain ⟨o, here⟩ := live item List.mem_cons_self
    rw [List.foldlM_cons, bind_ok]
    refine ⟨s.set item { o with loadedDlls := o.loadedDlls.filter fun dll => dll ≠ d }, ?_, ?_⟩
    · unfold removeCircularDependency
      rw [get_eq here]
      rfl
    · rw [ih, forget_cons here]
      · intro u inside
        by_cases same : u = item
        · rw [same, Loader.set_object_self]
          exact ⟨_, rfl⟩
        · rw [Loader.set_object_of_ne _ same]
          exact live u (List.mem_cons_of_mem _ inside)

theorem delete_eq {s : Loader} {d : Dll} (linked : Linked s) (inside : d ∈ s.head)
    (alone : ∀ u, ¬ s.DependsOn u d) : delete d s = .ok { s with
      head := s.head.erase d, object := Function.update s.object d none,
      deleted := d :: s.deleted } := by
  obtain ⟨o, here⟩ := (linked.live d).mp inside
  have none_ : s.dependents d = [] := by
    unfold Loader.dependents
    rw [List.filter_eq_nil_iff]
    intro u _ found
    simp only [Bool.and_eq_true, decide_eq_true_eq] at found
    rcases there : s.object u with _ | o'
    · rw [there] at found
      cases found.2
    · rw [there] at found
      refine alone u ?_
      unfold Loader.DependsOn
      rw [deps_eq there]
      simpa using (Bool.and_eq_true_iff.mp found.2).2
  obtain ⟨next, walked, _⟩ := linked.walk_mem inside
  unfold delete detachProcess
  rw [get_eq here]
  simp only [none_, List.map_nil, List.nil_append, ite_self, bind, Except.bind, pure, Except.pure]
  split
  · have linked' := (sameGraph_set here { o with fUnloaded := true } rfl rfl).linked linked
    obtain ⟨next', walked', _⟩ := linked'.walk_mem inside
    have gone : Function.update (s.set d { o with fUnloaded := true }).object d none =
        Function.update s.object d none := Function.update_idem ..
    rw [walked', gone]
    rfl
  · rw [walked]

/-- The state without a DLL, its entries in the queues of its own imports removed. -/
def without (s : Loader) (d : Dll) (queue : List Dll) : Loader :=
  { forget s d queue with
    head := s.head.erase d
    object := Function.update (forget s d queue).object d none
    deleted := d :: s.deleted }

theorem without_object (s : Loader) (d : Dll) (queue : List Dll) {u : Dll} (other : u ≠ d) :
    (without s d queue).object u = (s.object u).map fun o =>
      if u ∈ queue then { o with loadedDlls := o.loadedDlls.filter fun dll => dll ≠ d } else o :=
  Function.update_of_ne other ..

theorem without_object_self (s : Loader) (d : Dll) (queue : List Dll) :
    (without s d queue).object d = none := Function.update_self ..

theorem without_deps (s : Loader) (d : Dll) (queue : List Dll) {u : Dll} (other : u ≠ d) :
    (without s d queue).deps u =
      if u ∈ queue then (s.deps u).filter fun dll => dll ≠ d else s.deps u := by
  rw [← forget_deps]
  unfold Loader.deps
  rw [without_object s d queue other]
  rfl

theorem without_dependsOn {s : Loader} {d : Dll} (back : ∀ u, s.DependsOn u d → s.DependsOn d u)
    {u v : Dll} : (without s d (s.deps d)).DependsOn u v ↔ u ≠ d ∧ v ≠ d ∧ s.DependsOn u v := by
  by_cases same : u = d
  · subst same
    simp [Loader.DependsOn, Loader.deps, without_object_self]
  unfold Loader.DependsOn
  rw [without_deps s d _ same]
  constructor
  · intro inside
    split at inside
    · rw [List.mem_filter] at inside
      exact ⟨same, by simpa using inside.2, inside.1⟩
    · next outside =>
      refine ⟨same, ?_, inside⟩
      rintro rfl
      exact outside (back u inside)
  · rintro ⟨_, other, inside⟩
    split
    · exact List.mem_filter.mpr ⟨inside, by simpa using other⟩
    · exact inside

theorem without_count (s : Loader) (d : Dll) (queue : List Dll) {u e : Dll} (same : u ≠ d)
    (other : e ≠ d) : ((without s d queue).deps u).count e = (s.deps u).count e := by
  rw [without_deps s d queue same]
  split
  · exact List.count_filter (by simpa using other)
  · rfl

/-- The references to the other DLLs: the queue of the one that goes is still to be
released. -/
theorem without_references {s : Loader} {d : Dll} (nodup : s.head.Nodup) (inside : d ∈ s.head)
    (queue pending : List Dll) {e : Dll} (other : e ≠ d) :
    (references (without s d queue) (s.deps d ++ pending)).count e =
      (references s pending).count e := by
  have rest : ((s.head.erase d).flatMap (without s d queue).deps).count e =
      ((s.head.erase d).flatMap s.deps).count e := by
    rw [List.count_flatMap, List.count_flatMap]
    congr 1
    refine List.map_congr_left ?_
    intro u there
    exact without_count s d queue (nodup.mem_erase_iff.mp there).1 other
  have all : (s.head.flatMap s.deps).count e =
      (s.deps d).count e + ((s.head.erase d).flatMap s.deps).count e := by
    rw [((List.perm_cons_erase inside).flatMap_right s.deps).count_eq, List.flatMap_cons,
      List.count_append]
  unfold references
  simp only [List.count_append]
  change ((s.head.erase d).flatMap (without s d queue).deps).count e + _ = _
  rw [rest, all]
  change _ + (s.exeDlls.count e + _) = _
  change _ + (_ + (_ + (held s).count e)) = _
  omega

theorem delete_without {s : Loader} {d : Dll} (linked : Linked s) (inside : d ∈ s.head)
    (back : ∀ u, s.DependsOn u d → s.DependsOn d u) :
    delete d (forget s d (s.deps d)) = .ok (without s d (s.deps d)) := by
  refine delete_eq (linked_forget linked d (s.deps d)) inside ?_
  intro u edge
  unfold Loader.DependsOn at edge
  rw [forget_deps] at edge
  split at edge
  · simp at edge
  · next outside => exact outside (back u edge)

theorem shrinks_without {s : Loader} {d : Dll} (back : ∀ u, s.DependsOn u d → s.DependsOn d u) :
    Shrinks s (without s d (s.deps d)) where
  length := List.length_erase_le
  created := rfl
  loadLibDlls := rfl
  exeDlls := rfl
  loading := rfl
  detachedUnder := rfl
  object := by
    intro u o here
    by_cases same : u = d
    · rw [same, without_object_self] at here
      cases here
    · rw [without_object s d _ same, Option.map_eq_some_iff] at here
      obtain ⟨o', here, rfl⟩ := here
      exact ⟨o', here, by split <;> rfl⟩
  dependsOn := fun _ _ edge => ((without_dependsOn back).mp edge).2.2

theorem Core.without {s : Loader} {pending : List Dll} {d : Dll} (core : Core s pending)
    (inside : d ∈ s.head) (back : ∀ u, s.DependsOn u d → s.DependsOn d u)
    (exe : d ∉ s.exeDlls) (waiting : d ∉ pending) (loads : ∀ load ∈ s.loading, load.dll ≠ d)
    (dynamic : d ∉ s.loadLibDlls) :
    Core (without s d (s.deps d)) (s.deps d ++ pending) := by
  have heads : (DllList.without s d (s.deps d)).head = s.head.erase d := rfl
  have kept {u : Dll} (here : u ∈ s.head) (other : u ≠ d) :
      u ∈ (DllList.without s d (s.deps d)).head := by
    rw [heads, core.nodup.mem_erase_iff]
    exact ⟨other, here⟩
  have apart : ¬ s.DependsOn d d := by
    intro edge
    have one := core.short [d] ⟨List.nodup_singleton d, List.IsChain.cons_cons edge
      (List.IsChain.singleton d)⟩
    simp at one
  have fewer {u v : Dll} : (DllList.without s d (s.deps d)).DependsOn u v → s.DependsOn u v :=
    fun edge => ((without_dependsOn back).mp edge).2.2
  have object_none {u : Dll} : (DllList.without s d (s.deps d)).object u = none ↔
      u = d ∨ s.object u = none := by
    by_cases same : u = d
    · simp [same, without_object_self]
    · simp [without_object s d _ same, same]
  have object_some {u : Dll} {o : Win32DllBase}
      (here : (DllList.without s d (s.deps d)).object u = some o) : u ≠ d ∧
        ∃ o', s.object u = some o' ∧ o.nrDynamicLibRef = o'.nrDynamicLibRef ∧
          o.fInserted = o'.fInserted := by
    have other : u ≠ d := by
      rintro rfl
      rw [without_object_self] at here
      cases here
    rw [without_object s d _ other, Option.map_eq_some_iff] at here
    obtain ⟨o', here, rfl⟩ := here
    exact ⟨other, o', here, by split <;> rfl, by split <;> rfl⟩
  constructor
  · constructor
    · exact core.nodup.erase d
    · intro u
      rw [heads, core.nodup.mem_erase_iff, core.live, ← Option.ne_none_iff_exists',
        ← Option.ne_none_iff_exists', ne_eq, ne_eq, ne_eq, object_none]
      tauto
    · intro u o here
      obtain ⟨_, o', here', _, inserted⟩ := object_some here
      rw [inserted]
      exact core.inserted u o' here'
    · intro u v edge
      obtain ⟨_, other, edge⟩ := (without_dependsOn back).mp edge
      exact kept (core.deps u v edge) other
  · intro u above
    exact object_none.mpr (Or.inr (core.fresh u above))
  · intro u
    have below : d < s.created := by
      by_contra above
      have none_ := core.fresh d (Nat.le_of_not_lt above)
      obtain ⟨o, here⟩ := (core.live d).mp inside
      rw [none_] at here
      cases here
    change u ∈ d :: s.deleted ↔ u < s.created ∧ _
    rw [List.mem_cons, core.gone, object_none]
    constructor
    · rintro (rfl | ⟨lt, none_⟩)
      · exact ⟨below, Or.inl rfl⟩
      · exact ⟨lt, Or.inr none_⟩
    · rintro ⟨lt, rfl | none_⟩
      · exact Or.inl rfl
      · exact Or.inr ⟨lt, none_⟩
  · refine List.nodup_cons.mpr ⟨?_, core.once⟩
    intro there
    obtain ⟨o, here⟩ := (core.live d).mp inside
    rw [((core.gone d).mp there).2] at here
    cases here
  · exact fun u there => kept (core.exe u there) fun same => exe (same ▸ there)
  · intro u there
    rcases List.mem_append.mp there with edge | there
    · exact kept (core.deps d u edge) fun same => apart (same ▸ edge)
    · exact kept (core.waiting u there) fun same => waiting (same ▸ there)
  · exact fun load there => kept (core.loads load there) (loads load there)
  · exact core.loadsOnce
  · exact core.dynamicOnce
  · intro u
    change u ∈ s.loadLibDlls ↔ _
    constructor
    · intro there
      obtain ⟨o, here, some_⟩ := (core.dynamic u).mp there
      have other : u ≠ d := fun same => dynamic (same ▸ there)
      rw [without_object s d _ other, here]
      exact ⟨_, rfl, by split <;> exact some_⟩
    · rintro ⟨o, here, some_⟩
      obtain ⟨_, o', here', nr, _⟩ := object_some here
      exact (core.dynamic u).mpr ⟨o', here', nr ▸ some_⟩
  · rintro u v ⟨edge, single, wrong⟩
    obtain ⟨left, right, edge⟩ := (without_dependsOn back).mp edge
    refine core.ordered u v ⟨edge, ?_, ?_⟩
    · exact fun edge' => single ((without_dependsOn back).mpr ⟨right, left, edge'⟩)
    · exact fun before => wrong (before.erase left right)
  · intro l cycle
    exact core.short l (cycle.mono fun _ _ => fewer)

theorem Inv.without {s : Loader} {pending : List Dll} {d : Dll} (core : Core s pending)
    (inside : d ∈ s.head) (counted : ∀ e, e ≠ d → Counted s pending e)
    (after : Core (without s d (s.deps d)) (s.deps d ++ pending))
    (back : ∀ u, s.DependsOn u d → s.DependsOn d u) (settled : Settled s d)
    (pendingSettled : ∀ e ∈ pending, Settled s e) :
    Inv (without s d (s.deps d)) (s.deps d ++ pending) where
  toCore := after
  settled := by
    intro u there load loading phase path
    have reach := path.lift id fun _ _ edge => ((without_dependsOn back).mp edge).2.2
    rcases List.mem_append.mp there with edge | there
    · exact settled load loading phase (ReflTransGen.head edge reach)
    · exact pendingSettled u there load loading phase reach
  counted := by
    intro e o here
    by_cases same : e = d
    · rw [same, without_object_self] at here
      cases here
    rw [without_references core.nodup inside _ _ same]
    rw [without_object s d _ same, Option.map_eq_some_iff] at here
    obtain ⟨o', here, rfl⟩ := here
    have enough := counted e same o' here
    split <;> exact enough

/-! ## Release -/

theorem Core.tail {s : Loader} {pending : List Dll} {d : Dll} (core : Core s (d :: pending)) :
    Core s pending :=
  { core with waiting := fun u there => core.waiting u (List.mem_cons_of_mem _ there) }

theorem references_cons_count (s : Loader) (pending : List Dll) (d e : Dll) :
    (references s (d :: pending)).count e =
      (references s pending).count e + if d = e then 1 else 0 := by
  unfold references
  simp only [List.count_append, List.cons_append, List.count_cons, beq_iff_eq]
  omega

theorem Linked.mem_of_dependsOn {s : Loader} (linked : Linked s) {u v : Dll}
    (edge : s.DependsOn u v) : u ∈ s.head := by
  rw [linked.live]
  unfold Loader.DependsOn Loader.deps at edge
  rcases here : s.object u with _ | o
  · rw [here] at edge
    cases edge
  · exact ⟨o, rfl⟩

theorem not_mem_references {s : Loader} {pending : List Dll} {d : Dll} (linked : Linked s)
    (none_ : (references s pending).count d = 0) : (∀ u, ¬ s.DependsOn u d) ∧ d ∉ s.exeDlls ∧
      d ∉ pending ∧ d ∉ held s := by
  rw [List.count_eq_zero] at none_
  unfold references at none_
  simp only [List.mem_append, not_or, List.mem_flatMap, not_exists, not_and] at none_
  exact ⟨fun u edge => none_.1 u (linked.mem_of_dependsOn edge) edge, none_.2⟩

theorem mem_held {s : Loader} {load : Load} (inside : load ∈ s.loading)
    (entry : load.phase = .entry) : load.dll ∈ held s :=
  List.mem_filterMap.mpr ⟨load, inside, if_pos entry⟩

theorem release_last (fuel : ℕ) {s : Loader} {pending : List Dll} {d : Dll} {object : Win32DllBase}
    (here : s.object d = some object) (core : Core s pending) (last : object.referenced - 1 ≤ 0)
    (counted : ∀ e, e ≠ d → Counted s pending e) (back : ∀ u, s.DependsOn u d → s.DependsOn d u)
    (exe : d ∉ s.exeDlls) (waiting : d ∉ pending) (loads : ∀ load ∈ s.loading, load.dll ≠ d)
    (dynamic : d ∉ s.loadLibDlls) (settled : Settled s d)
    (pendingSettled : ∀ e ∈ pending, Settled s e) :
    ∃ t, Inv t (object.loadedDlls ++ pending) ∧ Shrinks s t ∧ t.head = s.head.erase d ∧
      release (fuel + 1) d s = object.loadedDlls.foldlM (fun s dll => release fuel dll s) t := by
  have same := sameGraph_set here { object with referenced := object.referenced - 1 } rfl rfl
  have dynamic' := sameDynamic_set here { object with referenced := object.referenced - 1 } rfl
  have queue : (s.set d { object with referenced := object.referenced - 1 }).deps d =
      object.loadedDlls := by
    rw [deps_eq (Loader.set_object_self s d _)]
  have detached : (s.set d { object with referenced := object.referenced - 1 }).detachedUnder =
      s.detachedUnder := rfl
  have kept : ∀ e, e ≠ d →
      (s.set d { object with referenced := object.referenced - 1 }).object e = s.object e :=
    fun e other => Loader.set_object_of_ne s other _
  have called : release (fuel + 1) d s = (do
      let t ← object.loadedDlls.foldlM (fun s dll => removeCircularDependency d dll s)
        (s.set d { object with referenced := object.referenced - 1 })
      let t ← delete d t
      object.loadedDlls.foldlM (fun s dll => release fuel dll s) t) := by
    rw [release, get_eq here]
    simp only [bind, Except.bind, if_pos last, assign_nil]
  generalize s.set d { object with referenced := object.referenced - 1 } = t
    at same dynamic' queue kept called detached
  have graph := same.dependsOn_eq
  have core' := same.core_same dynamic' core
  have inside : d ∈ t.head := same.head.symm ▸ (core.live d).mpr ⟨object, here⟩
  have fewer : ∀ e, e ≠ d → Counted t pending e := by
    intro e other o there
    rw [same.references_eq]
    rw [kept e other] at there
    exact counted e other o there
  have back' : ∀ u, t.DependsOn u d → t.DependsOn d u := by
    rw [graph]
    exact back
  have after := core'.without inside back' (same.exeDlls ▸ exe) waiting (same.loading ▸ loads)
    (dynamic'.loadLibDlls ▸ dynamic)
  have inv := Inv.without core' inside fewer after back' (same.settled settled)
    fun e there => same.settled (pendingSettled e there)
  have shrinks := shrinks_without back'
  have gone := delete_without core'.toLinked inside back'
  have forgot := removeCircularDependency_all (t.deps d) (d := d) t fun u edge =>
    (core'.live u).mp (core'.deps d u edge)
  rw [queue] at inv shrinks gone forgot
  refine ⟨_, inv, (same.shrinks dynamic' detached).trans shrinks, ?_, ?_⟩
  · rw [← same.head]
    rfl
  · rw [called, forgot]
    simp only [bind, Except.bind]
    rw [gone]

theorem release_queue {call : Dll → Loader → Except Fault Loader} {bound : ℕ}
    (callOk : ∀ {s : Loader} {pending : List Dll} {d : Dll}, Inv s (d :: pending) →
      s.head.length < bound → ∃ s', call d s = .ok s' ∧ Inv s' pending ∧ Shrinks s s')
    (queue : List Dll) {s : Loader} {pending : List Dll} (inv : Inv s (queue ++ pending))
    (enough : s.head.length < bound) :
    ∃ s', queue.foldlM (fun s dll => call dll s) s = .ok s' ∧ Inv s' pending ∧ Shrinks s s' := by
  induction queue generalizing s with
  | nil => exact ⟨s, rfl, inv, Shrinks.refl s⟩
  | cons dll queue ih =>
    obtain ⟨u, released, inv', shrinks⟩ := callOk inv enough
    obtain ⟨s', folded, inv'', shrinks'⟩ := ih inv' (Nat.lt_of_le_of_lt shrinks.length enough)
    refine ⟨s', ?_, inv'', shrinks.trans shrinks'⟩
    rw [List.foldlM_cons, bind_ok]
    exact ⟨u, released, folded⟩

theorem release_spec (fuel : ℕ) {s : Loader} {pending : List Dll} {d : Dll}
    (inv : Inv s (d :: pending)) (enough : s.head.length < fuel) :
    ∃ s', release fuel d s = .ok s' ∧ Inv s' pending ∧ Shrinks s s' := by
  induction fuel generalizing s pending d with
  | zero => omega
  | succ fuel ih =>
    have inside := inv.waiting d List.mem_cons_self
    obtain ⟨object, here⟩ := (inv.live d).mp inside
    have mine := inv.counted d object here
    rw [references_cons_count, if_pos rfl] at mine
    have others : ∀ e, e ≠ d → Counted s pending e := by
      intro e other o there
      have count := inv.counted e o there
      rwa [references_cons_count, if_neg (Ne.symm other), Nat.add_zero] at count
    by_cases last : object.referenced - 1 ≤ 0
    · -- so nothing else refers to the DLL
      have none_ : (references s pending).count d = 0 := by omega
      have nr : object.nrDynamicLibRef = 0 := by omega
      obtain ⟨alone, exe, waiting, free⟩ := not_mem_references inv.toLinked none_
      have settled := inv.settled d List.mem_cons_self
      obtain ⟨t, inv', shrinks, head, released⟩ := release_last fuel here inv.toCore.tail
        last others (fun u edge => absurd edge (alone u)) exe waiting
        (by
          rintro load there rfl
          by_cases entry : load.phase = .entry
          · exact free (mem_held there entry)
          · exact settled load there entry ReflTransGen.refl)
        (by
          intro there
          obtain ⟨o, here', some_⟩ := (inv.dynamic d).mp there
          rw [here] at here'
          cases here'
          exact some_ nr)
        settled fun e there => inv.settled e (List.mem_cons_of_mem _ there)
      have shorter : t.head.length < fuel := by
        rw [head, List.length_erase_of_mem inside]
        have some_ := List.length_pos_of_mem inside
        omega
      obtain ⟨s', folded, inv'', shrinks'⟩ := release_queue ih object.loadedDlls inv' shorter
      exact ⟨s', released.trans folded, inv'', shrinks.trans shrinks'⟩
    · have same := sameGraph_set here { object with referenced := object.referenced - 1 } rfl rfl
      have dynamic := sameDynamic_set here { object with referenced := object.referenced - 1 } rfl
      refine ⟨s.set d { object with referenced := object.referenced - 1 }, ?_, ⟨?_, ?_, ?_⟩,
        same.shrinks dynamic rfl⟩
      · unfold release
        rw [get_eq here]
        simp only [bind, Except.bind, if_neg last]
        rfl
      · exact same.core_same dynamic inv.toCore.tail
      · intro e o there
        rw [same.references_eq]
        by_cases other : e = d
        · subst other
          rw [Loader.set_object_self] at there
          cases there
          simp only
          omega
        · rw [Loader.set_object_of_ne _ other] at there
          exact others e other o there
      · exact fun e there => same.settled (inv.settled e (List.mem_cons_of_mem _ there))

end Odin32.DllList
