import Odin32.DllRelease

/-! # Unloading

The libraries of `LoadLibrary` lose their references one by one, and at the end of the
process the first DLL of the list is released until it is gone, again and again. Nothing
that stays depends on the first one, except a DLL it depends on itself. -/

set_option autoImplicit false

namespace Odin32.DllList

open OrderedList Relation

theorem decDynamicLib_core {s : Loader} {pending : List Dll} {d : Dll} {object : Win32DllBase}
    (inv : Inv s pending) (here : s.object d = some object) (some_ : object.nrDynamicLibRef ≠ 0) :
    ∃ t, decDynamicLib d s = .ok t ∧ Core t pending ∧ SameGraph s t ∧ t.detachedUnder = s.detachedUnder ∧
      t.loadLibDlls = (if object.nrDynamicLibRef - 1 = 0 then s.loadLibDlls.erase d
        else s.loadLibDlls) ∧
      t.object d = some { object with nrDynamicLibRef := object.nrDynamicLibRef - 1 } ∧
      ∀ e, e ≠ d → t.object e = s.object e := by
  have same := sameGraph_set here { object with nrDynamicLibRef := object.nrDynamicLibRef - 1 }
    rfl rfl
  -- the queue of LoadLibrary is no part of the graph
  have same' : SameGraph s ((if object.nrDynamicLibRef - 1 = 0 then
      { s with loadLibDlls := s.loadLibDlls.erase d } else s).set d
      { object with nrDynamicLibRef := object.nrDynamicLibRef - 1 }) := by
    split
    · exact ⟨rfl, rfl, rfl, rfl, rfl, same.object⟩
    · exact same
  have called : decDynamicLib d s = .ok ((if object.nrDynamicLibRef - 1 = 0 then
      { s with loadLibDlls := s.loadLibDlls.erase d } else s).set d
      { object with nrDynamicLibRef := object.nrDynamicLibRef - 1 }) := by
    unfold decDynamicLib
    rw [get_eq here]
    rfl
  have libs : ((if object.nrDynamicLibRef - 1 = 0 then
      { s with loadLibDlls := s.loadLibDlls.erase d } else s).set d
      { object with nrDynamicLibRef := object.nrDynamicLibRef - 1 }).loadLibDlls =
      if object.nrDynamicLibRef - 1 = 0 then s.loadLibDlls.erase d else s.loadLibDlls := by
    split <;> rfl
  have mine := Loader.set_object_self (if object.nrDynamicLibRef - 1 = 0 then
    { s with loadLibDlls := s.loadLibDlls.erase d } else s) d
    { object with nrDynamicLibRef := object.nrDynamicLibRef - 1 }
  have others : ∀ e, e ≠ d → ((if object.nrDynamicLibRef - 1 = 0 then
      { s with loadLibDlls := s.loadLibDlls.erase d } else s).set d
      { object with nrDynamicLibRef := object.nrDynamicLibRef - 1 }).object e = s.object e := by
    intro e other
    rw [Loader.set_object_of_ne _ other]
    split <;> rfl
  have detached : ((if object.nrDynamicLibRef - 1 = 0 then
      { s with loadLibDlls := s.loadLibDlls.erase d } else s).set d
      { object with nrDynamicLibRef := object.nrDynamicLibRef - 1 }).detachedUnder =
      s.detachedUnder := by
    split <;> rfl
  generalize (if object.nrDynamicLibRef - 1 = 0 then
      { s with loadLibDlls := s.loadLibDlls.erase d } else s).set d
      { object with nrDynamicLibRef := object.nrDynamicLibRef - 1 } = t
    at same' called libs mine others detached
  refine ⟨t, called, ?_, same', detached, libs, mine, others⟩
  refine same'.core inv.toCore ?_ ?_
  · rw [libs]
    split
    · exact inv.dynamicOnce.erase d
    · exact inv.dynamicOnce
  · intro e
    rw [libs]
    by_cases own : e = d
    · subst own
      rw [mine]
      have there : e ∈ s.loadLibDlls := (inv.dynamic e).mpr ⟨object, here, some_⟩
      split
      · next zero =>
        simp [zero, inv.dynamicOnce.mem_erase_iff]
      · next more =>
        simp [there, more]
    · rw [others e own, ← inv.dynamic e]
      split
      · rw [inv.dynamicOnce.mem_erase_iff]
        simp [own]
      · exact Iff.rfl

theorem decDynamicLib_spec {s : Loader} {pending : List Dll} {d : Dll} {object : Win32DllBase}
    (inv : Inv s pending) (here : s.object d = some object) (some_ : object.nrDynamicLibRef ≠ 0)
    (settled : Settled s d) : ∃ t, decDynamicLib d s = .ok t ∧ Inv t (d :: pending) ∧
      SameGraph s t ∧ t.detachedUnder = s.detachedUnder ∧
      t.loadLibDlls = (if object.nrDynamicLibRef - 1 = 0 then s.loadLibDlls.erase d
        else s.loadLibDlls) ∧
      t.object d = some { object with nrDynamicLibRef := object.nrDynamicLibRef - 1 } := by
  obtain ⟨t, called, core, same, detached, libs, mine, others⟩ := decDynamicLib_core inv here some_
  refine ⟨t, called, ⟨?_, ?_, ?_⟩, same, detached, libs, mine⟩
  · refine { core with waiting := ?_ }
    intro e there
    rcases List.mem_cons.mp there with rfl | there
    · exact same.head ▸ (inv.live e).mpr ⟨object, here⟩
    · exact core.waiting e there
  · intro e o there
    rw [references_cons_count, same.references_eq]
    by_cases own : e = d
    · subst own
      rw [mine] at there
      cases there
      have count := inv.counted e object here
      rw [if_pos rfl]
      simp only
      omega
    · rw [others e own] at there
      rw [if_neg (Ne.symm own)]
      exact inv.counted e o there
  · intro e there
    rcases List.mem_cons.mp there with rfl | there
    · exact same.settled settled
    · exact same.settled (inv.settled e there)

theorem releaseDynamic_spec {fuel : ℕ} {d : Dll} (dynref : ℕ) {s : Loader} {object : Win32DllBase}
    (inv : Inv s []) (here : s.object d = some object) (nr : object.nrDynamicLibRef = dynref + 1)
    (settled : Settled s d) (enough : s.head.length < fuel) :
    ∃ t, releaseDynamic fuel d (dynref + 1) s = .ok t ∧ Inv t [] ∧
      t.loadLibDlls = s.loadLibDlls.erase d ∧ t.head.length ≤ s.head.length ∧
      t.created = s.created ∧ t.exeDlls = s.exeDlls ∧ t.loading = s.loading ∧
      t.detachedUnder = s.detachedUnder ∧ ∀ u v, t.DependsOn u v → s.DependsOn u v := by
  induction dynref generalizing s object with
  | zero =>
    obtain ⟨u, dec, inv', same, detached, libs, _⟩ :=
      decDynamicLib_spec inv here (by omega) settled
    obtain ⟨t, released, inv'', shrinks⟩ := release_spec fuel inv' (same.head ▸ enough)
    refine ⟨t, ?_, inv'', ?_, ?_, ?_, ?_, ?_, ?_, ?_⟩
    · unfold releaseDynamic
      rw [bind_ok]
      refine ⟨u, dec, ?_⟩
      rw [bind_ok]
      exact ⟨t, released, rfl⟩
    · rw [shrinks.loadLibDlls, libs, if_pos (by omega)]
    · rw [← same.head]
      exact shrinks.length
    · rw [shrinks.created, same.created]
    · rw [shrinks.exeDlls, same.exeDlls]
    · rw [shrinks.loading, same.loading]
    · rw [shrinks.detachedUnder, detached]
    · intro a b edge
      have edge' := shrinks.dependsOn a b edge
      rwa [same.dependsOn_eq] at edge'
  | succ dynref ih =>
    obtain ⟨u, dec, inv', same, detached, libs, mine⟩ :=
      decDynamicLib_spec inv here (by omega) settled
    obtain ⟨v, released, inv'', shrinks⟩ := release_spec fuel inv' (same.head ▸ enough)
    rw [if_neg (by omega)] at libs
    -- with references left, the DLL is still there
    have there : d ∈ v.loadLibDlls := by
      rw [shrinks.loadLibDlls, libs]
      exact (inv.dynamic d).mpr ⟨object, here, by omega⟩
    obtain ⟨object', here', _⟩ := (inv''.dynamic d).mp there
    obtain ⟨o, mine', nr'⟩ := shrinks.object d object' here'
    rw [mine] at mine'
    cases mine'
    have fewer {a b : Dll} (edge : v.DependsOn a b) : s.DependsOn a b := by
      have edge' := shrinks.dependsOn a b edge
      rwa [same.dependsOn_eq] at edge'
    obtain ⟨t, rest, inv3, libs', length, created, exe, loading, detached', sub⟩ :=
      ih inv'' here' (by simp only at nr'; omega)
        (by
          intro load inside phase path
          rw [shrinks.loading, same.loading] at inside
          exact settled load inside phase (path.lift id fun _ _ => fewer))
        (Nat.lt_of_le_of_lt shrinks.length (same.head ▸ enough))
    refine ⟨t, ?_, inv3, ?_, ?_, ?_, ?_, ?_, ?_, ?_⟩
    · rw [releaseDynamic, bind_ok]
      refine ⟨u, dec, ?_⟩
      rw [bind_ok]
      exact ⟨v, released, rest⟩
    · rw [libs', shrinks.loadLibDlls, libs]
    · exact length.trans (same.head ▸ shrinks.length)
    · rw [created, shrinks.created, same.created]
    · rw [exe, shrinks.exeDlls, same.exeDlls]
    · rw [loading, shrinks.loading, same.loading]
    · rw [detached', shrinks.detachedUnder, detached]
    · exact fun a b edge => fewer (sub a b edge)

/-- What unloading leaves as it is. -/
structure Unloads (s t : Loader) : Prop where
  created : t.created = s.created
  exeDlls : t.exeDlls = s.exeDlls
  loading : t.loading = s.loading
  detachedUnder : t.detachedUnder = s.detachedUnder
  dependsOn : ∀ u v, t.DependsOn u v → s.DependsOn u v

theorem deleteDynamicLibs_spec (n fuel : ℕ) {s : Loader} (inv : Inv s [])
    (libs : s.loadLibDlls.length ≤ n) (settled : ∀ d ∈ s.loadLibDlls, Settled s d)
    (enough : n + s.head.length < fuel) : ∃ t, deleteDynamicLibs fuel s = .ok t ∧ Inv t [] ∧
      t.loadLibDlls = [] ∧ t.head.length ≤ s.head.length ∧ Unloads s t := by
  induction n generalizing fuel s with
  | zero =>
    obtain ⟨fuel, rfl⟩ := Nat.exists_eq_succ_of_ne_zero (show fuel ≠ 0 by omega)
    have empty : s.loadLibDlls = [] := List.length_eq_zero_iff.mp (by omega)
    refine ⟨s, ?_, inv, empty, Nat.le_refl _, ⟨rfl, rfl, rfl, rfl, fun _ _ => id⟩⟩
    rw [deleteDynamicLibs, empty]
  | succ n ih =>
    obtain ⟨fuel, rfl⟩ := Nat.exists_eq_succ_of_ne_zero (show fuel ≠ 0 by omega)
    rcases queue : s.loadLibDlls with _ | ⟨d, rest⟩
    · refine ⟨s, ?_, inv, queue, Nat.le_refl _, ⟨rfl, rfl, rfl, rfl, fun _ _ => id⟩⟩
      rw [deleteDynamicLibs, queue]
    · have first : d ∈ s.loadLibDlls := by
        rw [queue]
        exact List.mem_cons_self
      obtain ⟨object, here, some_⟩ := (inv.dynamic d).mp first
      obtain ⟨dynref, nr⟩ := Nat.exists_eq_succ_of_ne_zero some_
      obtain ⟨u, released, inv', libs', length, created, exe, loading, detached, fewer⟩ :=
        releaseDynamic_spec dynref inv here nr (settled d first) (show s.head.length < fuel by omega)
      have left : u.loadLibDlls = rest := by
        rw [libs', queue, List.erase_cons_head]
      obtain ⟨t, called, inv'', none_, length', unloads⟩ := ih fuel inv'
        (by rw [left]; simp [queue] at libs; omega)
        (by
          intro e there load inside phase path
          rw [loading] at inside
          refine settled e ?_ load inside phase (path.lift id fewer)
          rw [queue]
          exact List.mem_cons_of_mem _ (left ▸ there))
        (by omega)
      refine ⟨t, ?_, inv'', none_, length'.trans length, ?_⟩
      · rw [deleteDynamicLibs, queue]
        simp only
        rw [bind_ok]
        refine ⟨object, get_eq here, ?_⟩
        rw [nr, bind_ok]
        exact ⟨u, released, called⟩
      · exact ⟨unloads.created.trans created, unloads.exeDlls.trans exe,
          unloads.loading.trans loading, unloads.detachedUnder.trans detached,
          fun a b edge => fewer a b (unloads.dependsOn a b edge)⟩

theorem Core.back_of_head {s : Loader} {pending : List Dll} (core : Core s pending) {d : Dll}
    {rest : List Dll} (head : s.head = d :: rest) {u : Dll} (edge : s.DependsOn u d) :
    s.DependsOn d u := by
  by_contra single
  refine core.ordered u d ⟨edge, single, ?_⟩
  have nodup := core.nodup
  rw [head] at nodup ⊢
  have outside := (List.nodup_cons.mp nodup).1
  intro before
  rcases before_cons.mp before with ⟨_, inside⟩ | before
  · exact outside inside
  · exact outside before.right_mem

theorem release_head {s : Loader} (core : Core s []) {d : Dll} {rest : List Dll}
    (head : s.head = d :: rest) {object : Win32DllBase} (here : s.object d = some object)
    (last : object.referenced - 1 ≤ 0) (counted : ∀ e, e ≠ d → Counted s [] e)
    (libs : s.loadLibDlls = []) (exe : s.exeDlls = []) (loads : s.loading = []) :
    ∃ t, release (s.head.length + 1) d s = .ok t ∧ Inv t [] ∧ t.head.length < s.head.length ∧
      Shrinks s t := by
  have inside : d ∈ s.head := (core.live d).mpr ⟨object, here⟩
  obtain ⟨u, inv, shrinks, shorter, released⟩ := release_last s.head.length here core last counted
    (fun u edge => core.back_of_head head edge) (by simp [exe]) List.not_mem_nil (by simp [loads])
    (by simp [libs]) (by unfold Settled; simp [loads]) nofun
  have less : u.head.length < s.head.length := by
    rw [shorter, List.length_erase_of_mem inside]
    have some_ := List.length_pos_of_mem inside
    omega
  obtain ⟨t, all, inv', shrinks'⟩ := release_queue (release_spec s.head.length) object.loadedDlls
    inv less
  exact ⟨t, released.trans all, inv', Nat.lt_of_le_of_lt shrinks'.length less, shrinks.trans shrinks'⟩

theorem deleteAll_cons {fuel more : ℕ} {s t u : Loader} {d : Dll} {rest : List Dll}
    (head : s.head = d :: rest) (released : release fuel d s = .ok t)
    (called : deleteAll more t = .ok u) : deleteAll (max fuel more + 1) s = .ok u := by
  rw [deleteAll, head]
  simp only
  rw [bind_ok]
  exact ⟨t, release_mono (Nat.le_max_left _ _) released,
    deleteAll_mono (Nat.le_max_right _ _) called⟩

/-- With nothing but the list left, all of it is deleted. Only the count of the first DLL may
be too low, while it is being released. -/
theorem deleteAll_spec (n : ℕ) {s : Loader} (core : Core s [])
    (counted : ∀ e, s.head.head? ≠ some e → Counted s [] e) (libs : s.loadLibDlls = [])
    (exe : s.exeDlls = []) (loads : s.loading = []) (length : s.head.length ≤ n) :
    ∃ fuel t, deleteAll fuel s = .ok t ∧ Inv t [] ∧ t.head = [] ∧ Unloads s t := by
  induction n generalizing s with
  | zero =>
    have empty : s.head = [] := List.length_eq_zero_iff.mp (by omega)
    refine ⟨1, s, ?_, ⟨core, fun e => counted e (by rw [empty]; exact nofun), nofun⟩, empty,
      ⟨rfl, rfl, rfl, rfl, fun _ _ => id⟩⟩
    rw [deleteAll, empty]
  | succ n ihn =>
    rcases head : s.head with _ | ⟨d, rest⟩
    · refine ⟨1, s, ?_, ⟨core, fun e => counted e (by rw [head]; exact nofun), nofun⟩, head,
        ⟨rfl, rfl, rfl, rfl, fun _ _ => id⟩⟩
      rw [deleteAll, head]
    obtain ⟨object, here⟩ := (core.live d).mp (by rw [head]; exact List.mem_cons_self)
    -- the releases before the last one only count down
    obtain ⟨k, bound⟩ : ∃ k : ℕ, object.referenced ≤ k := ⟨_, Int.self_le_toNat _⟩
    induction k generalizing s object with
    | zero =>
      obtain ⟨t, released, inv, shorter, shrinks⟩ := release_head core head here
        (by omega)
        (fun e other => counted e (by rw [head]; simpa using Ne.symm other)) libs exe loads
      obtain ⟨fuel, u, called, inv', empty, unloads⟩ := ihn inv.toCore (fun e _ => inv.counted e)
        (shrinks.loadLibDlls.trans libs) (shrinks.exeDlls.trans exe) (shrinks.loading.trans loads)
        (by omega)
      exact ⟨_, u, deleteAll_cons head released called, inv', empty,
        unloads.created.trans shrinks.created, unloads.exeDlls.trans shrinks.exeDlls,
        unloads.loading.trans shrinks.loading, unloads.detachedUnder.trans shrinks.detachedUnder,
        fun a b edge => shrinks.dependsOn a b (unloads.dependsOn a b edge)⟩
    | succ k ihk =>
      by_cases last : object.referenced - 1 ≤ 0
      · obtain ⟨t, released, inv, shorter, shrinks⟩ := release_head core head here last
          (fun e other => counted e (by rw [head]; simpa using Ne.symm other)) libs exe loads
        obtain ⟨fuel, u, called, inv', empty, unloads⟩ := ihn inv.toCore
          (fun e _ => inv.counted e) (shrinks.loadLibDlls.trans libs)
          (shrinks.exeDlls.trans exe) (shrinks.loading.trans loads) (by omega)
        exact ⟨_, u, deleteAll_cons head released called, inv', empty,
          unloads.created.trans shrinks.created, unloads.exeDlls.trans shrinks.exeDlls,
          unloads.loading.trans shrinks.loading,
          unloads.detachedUnder.trans shrinks.detachedUnder,
          fun a b edge => shrinks.dependsOn a b (unloads.dependsOn a b edge)⟩
      · have same := sameGraph_set here { object with referenced := object.referenced - 1 } rfl rfl
        have dynamic := sameDynamic_set here { object with referenced := object.referenced - 1 } rfl
        have released : release 1 d s =
            .ok (s.set d { object with referenced := object.referenced - 1 }) := by
          rw [release, get_eq here]
          simp only [bind, Except.bind, if_neg last]
          rfl
        obtain ⟨fuel, u, called, inv', empty, unloads⟩ :=
          ihk (s := s.set d { object with referenced := object.referenced - 1 })
            (same.core_same dynamic core)
            (by
              intro e first o there
              rw [same.references_eq]
              have other : e ≠ d := by
                rintro rfl
                exact first (by rw [same.head, head]; rfl)
              rw [Loader.set_object_of_ne _ other] at there
              exact counted e first o there)
            libs exe loads length head _ (Loader.set_object_self ..) (by simp only; omega)
        exact ⟨_, u, deleteAll_cons head released called, inv', empty, unloads.created,
          unloads.exeDlls, unloads.loading, unloads.detachedUnder,
          fun a b edge => by
            have edge' := unloads.dependsOn a b edge
            rwa [same.dependsOn_eq] at edge'⟩

/-! ## The end of the process -/

/-- No DLL imports itself, directly or through others. -/
def NoCycle (s : Loader) : Prop := ∀ l, ¬ IsCycle s.DependsOn l

/-- What a detach leaves: everything the counts depend on. -/
structure Detaches (s t : Loader) : Prop where
  graph : SameGraph s t
  dynamic : SameDynamic s t
  counts : ∀ d o, t.object d = some o → ∃ o', s.object d = some o' ∧
    o.referenced = o'.referenced ∧ o.nrDynamicLibRef = o'.nrDynamicLibRef ∧
    (o'.fUnloaded = true → o.fUnloaded = true)

theorem Detaches.trans {s t u : Loader} (first : Detaches s t) (second : Detaches t u) :
    Detaches s u where
  graph := first.graph.trans second.graph
  dynamic := ⟨second.dynamic.loadLibDlls.trans first.dynamic.loadLibDlls,
    fun d => (second.dynamic.object d).trans (first.dynamic.object d)⟩
  counts := by
    intro d o here
    obtain ⟨o', here', ref, nr, unloaded⟩ := second.counts d o here
    obtain ⟨o'', here'', ref', nr', unloaded'⟩ := first.counts d o' here'
    exact ⟨o'', here'', ref.trans ref', nr.trans nr', fun gone => unloaded (unloaded' gone)⟩

theorem Detaches.inv {s t : Loader} (detaches : Detaches s t) {pending : List Dll}
    (inv : Inv s pending) : Inv t pending where
  toCore := detaches.graph.core_same detaches.dynamic inv.toCore
  counted := by
    intro d o here
    obtain ⟨o', here', ref, nr, _⟩ := detaches.counts d o here
    rw [detaches.graph.references_eq, ref, nr]
    exact inv.counted d o' here'
  settled := fun d there => detaches.graph.settled (inv.settled d there)

theorem detachProcess_spec {s : Loader} {d : Dll} {object : Win32DllBase}
    (here : s.object d = some object) : ∃ t, detachProcess d s = .ok t ∧ Detaches s t ∧
      (∃ o, t.object d = some o ∧ o.fUnloaded = true) ∧
      (s.dependents d = [] → t.detachedUnder = s.detachedUnder) := by
  have same := sameGraph_set here { object with fUnloaded := true } rfl rfl
  have dynamic := sameDynamic_set here { object with fUnloaded := true } rfl
  have counts : ∀ e o, (s.set d { object with fUnloaded := true }).object e = some o →
      ∃ o', s.object e = some o' ∧ o.referenced = o'.referenced ∧
        o.nrDynamicLibRef = o'.nrDynamicLibRef ∧ (o'.fUnloaded = true → o.fUnloaded = true) := by
    intro e o there
    by_cases own : e = d
    · subst own
      rw [Loader.set_object_self] at there
      cases there
      exact ⟨object, here, rfl, rfl, fun _ => rfl⟩
    · rw [Loader.set_object_of_ne _ own] at there
      exact ⟨o, there, rfl, rfl, id⟩
  unfold detachProcess
  rw [get_eq here]
  by_cases attached : object.attached = true
  · refine ⟨_, rfl, ⟨?_, ?_, ?_⟩, ?_, ?_⟩
    · simp only [attached, if_true]
      exact ⟨rfl, rfl, rfl, rfl, rfl, same.object⟩
    · simp only [attached, if_true]
      exact ⟨rfl, dynamic.object⟩
    · simp only [attached, if_true]
      exact counts
    · exact ⟨_, Loader.set_object_self .., rfl⟩
    · intro none_
      simp only [attached, if_true, none_]
      rfl
  · refine ⟨_, rfl, ⟨?_, ?_, ?_⟩, ?_, ?_⟩
    · simp only [if_neg attached]
      exact same
    · simp only [if_neg attached]
      exact dynamic
    · simp only [if_neg attached]
      exact counts
    · exact ⟨_, Loader.set_object_self .., rfl⟩
    · intro _
      simp only [if_neg attached]
      rfl

/-- In a graph without cycles, a DLL whose predecessors in the list are all unloaded has no
attached DLL that depends on it. -/
theorem dependents_eq_nil {s : Loader} {pending : List Dll} (core : Core s pending)
    (noCycle : NoCycle s) {front rest : List Dll} {d : Dll} (head : s.head = front ++ d :: rest)
    (done : ∀ u ∈ front, ∀ o, s.object u = some o → o.fUnloaded = true) :
    s.dependents d = [] := by
  unfold Loader.dependents
  rw [List.filter_eq_nil_iff]
  intro u _ found
  simp only [Bool.and_eq_true, decide_eq_true_eq] at found
  obtain ⟨other, found⟩ := found
  rcases there : s.object u with _ | o
  · rw [there] at found
    cases found
  rw [there] at found
  obtain ⟨attached, imported⟩ := Bool.and_eq_true_iff.mp found
  have edge : s.DependsOn u d := by
    unfold Loader.DependsOn
    rw [deps_eq there]
    simpa using imported
  have single : ¬ s.DependsOn d u := fun back =>
    noCycle [u, d] ⟨by simpa using other, List.IsChain.cons_cons back
      (List.IsChain.cons_cons edge (List.IsChain.singleton u))⟩
  have before : Before s.head u d := by
    by_contra wrong
    exact core.ordered u d ⟨edge, single, wrong⟩
  have nodup := core.nodup
  rw [head] at before nodup
  have gone := done u (before.mem_front nodup) o there
  unfold Win32DllBase.attached at attached
  rw [gone] at attached
  simp at attached

theorem detachProcessFromAllDlls_from {s : Loader} {pending : List Dll} (front rest : List Dll)
    (core : Core s pending) (head : s.head = front ++ rest) :
    ∃ t, rest.foldlM (fun s dll => detachProcess dll s) s = .ok t ∧ Detaches s t ∧
      (NoCycle s → (∀ u ∈ front, ∀ o, s.object u = some o → o.fUnloaded = true) →
        t.detachedUnder = s.detachedUnder) := by
  induction rest generalizing s front with
  | nil => exact ⟨s, rfl, ⟨⟨rfl, rfl, rfl, rfl, rfl, fun _ => rfl⟩, ⟨rfl, fun _ => rfl⟩,
      fun _ o here => ⟨o, here, rfl, rfl, id⟩⟩, fun _ _ => rfl⟩
  | cons d rest ih =>
    obtain ⟨object, here⟩ := (core.live d).mp (by rw [head]; simp)
    obtain ⟨u, called, detaches, ⟨o, mine, unloaded⟩, quiet⟩ := detachProcess_spec here
    obtain ⟨t, folded, detaches', quiet'⟩ := ih (s := u) (front ++ [d])
      (detaches.graph.core_same detaches.dynamic core) (by rw [detaches.graph.head, head]; simp)
    refine ⟨t, ?_, detaches.trans detaches', ?_⟩
    · rw [List.foldlM_cons, bind_ok]
      exact ⟨u, called, folded⟩
    · intro noCycle done
      rw [quiet' ?_ ?_, quiet (dependents_eq_nil core noCycle head done)]
      · unfold NoCycle
        rw [detaches.graph.dependsOn_eq]
        exact noCycle
      · intro e inside o' there
        rcases List.mem_append.mp inside with inside | own
        · obtain ⟨o'', there', _, _, kept⟩ := detaches.counts e o' there
          exact kept (done e inside o'' there')
        · rw [List.mem_singleton.mp own, mine] at there
          cases there
          exact unloaded

theorem detachProcessFromAllDlls_spec {s : Loader} {pending : List Dll} (core : Core s pending) :
    ∃ t, detachProcessFromAllDlls s = .ok t ∧ Detaches s t ∧
      (NoCycle s → t.detachedUnder = s.detachedUnder) := by
  obtain ⟨t, called, detaches, quiet⟩ := detachProcessFromAllDlls_from [] s.head core rfl
  exact ⟨t, called, detaches, fun noCycle => quiet noCycle nofun⟩

theorem Inv.abandonLoads {s : Loader} {pending : List Dll} (inv : Inv s pending) :
    Inv { s with loading := [] } pending where
  toCore := { inv.toCore with
    toLinked := ⟨inv.nodup, inv.live, inv.inserted, inv.deps⟩
    loads := nofun
    loadsOnce := List.nodup_nil }
  settled := fun _ _ => nofun
  counted := by
    intro d o here
    have count := inv.counted d o here
    have fewer : (references { s with loading := [] } pending).count d ≤
        (references s pending).count d := by
      unfold references
      simp only [List.count_append]
      change _ + (_ + (_ + List.count d [])) ≤ _
      simp only [List.count_nil]
      exact Nat.add_le_add (Nat.le_refl _) (Nat.add_le_add (Nat.le_refl _)
        (Nat.add_le_add (Nat.le_refl _) (Nat.zero_le _)))
    omega

theorem Inv.releaseExe {s : Loader} (inv : Inv s []) (loads : s.loading = []) :
    Inv { s with exeDlls := [] } s.exeDlls where
  toCore := { inv.toCore with
    toLinked := ⟨inv.nodup, inv.live, inv.inserted, inv.deps⟩
    exe := nofun
    waiting := inv.exe }
  settled := fun _ _ => by unfold Settled; simp [loads]
  counted := by
    intro d o here
    have count := inv.counted d o here
    have same : (references { s with exeDlls := [] } s.exeDlls).count d =
        (references s []).count d := by
      unfold references
      simp only [List.count_append, List.nil_append]
      rfl
    rw [same]
    exact count

theorem deleteExe_spec {s : Loader} (inv : Inv s []) (loads : s.loading = []) :
    ∃ fuel t, deleteExe fuel s = .ok t ∧ Inv t [] ∧ t.head = [] ∧ t.created = s.created ∧
      t.loading = [] ∧ t.detachedUnder = s.detachedUnder := by
  obtain ⟨u, libs, inv', none_, length, unloads⟩ := deleteDynamicLibs_spec s.loadLibDlls.length
    (s.loadLibDlls.length + s.head.length + 1) inv (Nat.le_refl _)
    (fun d _ => by unfold Settled; simp [loads]) (Nat.lt_succ_self _)
  have inv0 : Inv { u with exeDlls := [] } (u.exeDlls ++ []) := by
    rw [List.append_nil]
    exact inv'.releaseExe (unloads.loading.trans loads)
  obtain ⟨v, released, inv'', shrinks⟩ := release_queue (release_spec (u.head.length + 1)) u.exeDlls
    inv0 (Nat.lt_succ_self _)
  have loads' : v.loading = [] := shrinks.loading.trans (unloads.loading.trans loads)
  obtain ⟨fuel, t, called, inv3, empty, unloads'⟩ := deleteAll_spec v.head.length inv''.toCore
    (fun e _ => inv''.counted e) (shrinks.loadLibDlls.trans none_) shrinks.exeDlls loads'
    (Nat.le_refl _)
  refine ⟨max (s.loadLibDlls.length + s.head.length + 1) (max (u.head.length + 1) fuel), t, ?_,
    inv3, empty, ?_, unloads'.loading.trans loads', ?_⟩
  · unfold deleteExe
    rw [bind_ok]
    refine ⟨u, deleteDynamicLibs_mono (Nat.le_max_left _ _) libs, ?_⟩
    rw [bind_ok]
    refine ⟨v, foldlM_mono (fun _ _ _ inner => release_mono ?_ inner) released,
      deleteAll_mono ?_ called⟩
    · exact (Nat.le_max_left _ _).trans (Nat.le_max_right _ _)
    · exact (Nat.le_max_right _ _).trans (Nat.le_max_right _ _)
  · rw [unloads'.created, shrinks.created]
    exact unloads.created
  · rw [unloads'.detachedUnder, shrinks.detachedUnder]
    exact unloads.detachedUnder

end Odin32.DllList
