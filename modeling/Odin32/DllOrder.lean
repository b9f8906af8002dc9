import Mathlib.Data.List.Dedup
import Mathlib.Data.Finset.Card
import Odin32.DllList

/-! # The unload order

`setUnloadOrder` moves a DLL down behind its parent and goes on with the imports of the DLL.
Only what the DLL itself stands before can get out of order by the move, and the recursion
puts it right. Where no cycle is longer than two, the DLLs it is in are all different, and
so it ends. -/

set_option autoImplicit false

namespace Odin32.DllList

open OrderedList

/-- The DLLs of the list are the objects there are, and so are those they import. -/
structure Linked (s : Loader) : Prop where
  nodup : s.head.Nodup
  live : ∀ d, d ∈ s.head ↔ ∃ object, s.object d = some object
  inserted : ∀ d object, s.object d = some object → object.fInserted = true
  deps : ∀ u v, s.DependsOn u v → v ∈ s.head

/-- A DLL does not stand before one it imports, and the two do not import each other. -/
def Misplaced (s : Loader) (head : List Dll) (u v : Dll) : Prop :=
  s.DependsOn u v ∧ ¬ s.DependsOn v u ∧ ¬ Before head u v

/-- Every cycle of imports has length two. -/
def CyclesShort (s : Loader) : Prop := ∀ l, IsCycle s.DependsOn l → l.length = 2

theorem get_eq {s : Loader} {d : Dll} {object : Win32DllBase} (here : s.object d = some object) :
    s.get d = .ok object := by
  unfold Loader.get
  rw [here]

theorem deps_eq {s : Loader} {d : Dll} {object : Win32DllBase} (here : s.object d = some object) :
    s.deps d = object.loadedDlls := by
  unfold Loader.deps
  rw [here]

theorem walk_spec {s : Loader} {d : Dll} {list : List Dll}
    (live : ∀ dll ∈ list, ∃ object, s.object dll = some object) (nodup : list.Nodup) :
    d ∉ list ∧ walk s d list = .ok none ∨
      ∃ next, walk s d list = .ok (some next) ∧ d ∈ list ∧ next.Sublist list ∧
        ∀ v, v ∈ next ↔ Before list d v := by
  induction list with
  | nil => exact Or.inl ⟨List.not_mem_nil, rfl⟩
  | cons dll rest ih =>
    obtain ⟨object, here⟩ := live dll List.mem_cons_self
    obtain ⟨outside, tail⟩ := List.nodup_cons.mp nodup
    unfold walk
    rw [get_eq here]
    by_cases same : dll = d
    · subst same
      refine Or.inr ⟨rest, by simp [bind, Except.bind], List.mem_cons_self,
        List.sublist_cons_self dll rest, ?_⟩
      intro v
      rw [before_cons]
      constructor
      · exact fun inside => Or.inl ⟨rfl, inside⟩
      · rintro (⟨_, inside⟩ | before)
        · exact inside
        · exact absurd before.left_mem outside
    · simp only [bind, Except.bind, if_neg same]
      rcases ih (fun a inside => live a (List.mem_cons_of_mem _ inside)) tail with
        ⟨none_, walked⟩ | ⟨next, walked, inside, sub, behind⟩
      · exact Or.inl ⟨by simp [Ne.symm same, none_], walked⟩
      · refine Or.inr ⟨next, walked, List.mem_cons_of_mem _ inside, sub.cons dll, ?_⟩
        intro v
        rw [behind, before_cons]
        constructor
        · exact Or.inr
        · rintro (⟨rfl, _⟩ | before)
          · exact absurd rfl same
          · exact before

namespace Linked

variable {s : Loader} (linked : Linked s)

include linked

theorem walk_mem {d : Dll} (inside : d ∈ s.head) : ∃ next, walk s d s.head = .ok (some next) ∧
    next.Sublist s.head ∧ ∀ v, v ∈ next ↔ Before s.head d v := by
  rcases walk_spec (fun dll here => (linked.live dll).mp here) linked.nodup with
    ⟨none_, _⟩ | ⟨next, walked, _, sub, behind⟩
  · exact absurd inside none_
  · exact ⟨next, walked, sub, behind⟩

theorem perm {head : List Dll} (perm : head.Perm s.head) : Linked { s with head := head } where
  nodup := perm.nodup_iff.mpr linked.nodup
  live := fun d => (perm.mem_iff).trans (linked.live d)
  inserted := linked.inserted
  deps := fun u v edge => perm.mem_iff.mpr (linked.deps u v edge)

theorem place_spec {p d : Dll} (inside : p ∈ s.head) (inside' : d ∈ s.head) (other : p ≠ d) :
    Before s.head p d ∧ place s (some p) d true = .ok none ∨
      Before s.head d p ∧ place s (some p) d true = .ok (some (some p, moveAfter p d s.head)) := by
  obtain ⟨parent, here⟩ := (linked.live p).mp inside
  obtain ⟨next, walked, sub, behind⟩ := linked.walk_mem inside
  obtain ⟨next', walked', _, _⟩ := linked.walk_mem inside'
  unfold place
  simp only [get_eq here, walked, bind, Except.bind, pure, Except.pure, Option.map_some, if_true]
  rcases walk_spec (d := d) (fun dll there => (linked.live dll).mp (sub.subset there))
    (linked.nodup.sublist sub) with ⟨none_, walked''⟩ | ⟨_, walked'', there, _⟩
  · rw [walked'']
    have after := (before_total inside inside' other).resolve_left fun before =>
      none_ ((behind d).mpr before)
    exact Or.inr ⟨after, by simp only [walked']⟩
  · rw [walked'']
    exact Or.inl ⟨(behind d).mp there, rfl⟩

end Linked

theorem set_self {s : Loader} {d : Dll} {object : Win32DllBase} (here : s.object d = some object) :
    s.set d object = s := by
  unfold Loader.set
  rw [← here, Function.update_eq_self]

/-- What a call leaves: another order of the same list, and nothing new that is misplaced. -/
def Reorders (s s' : Loader) : Prop :=
  ∃ head : List Dll, s' = { s with head := head } ∧ head.Perm s.head ∧
    ∀ u v, Misplaced s head u v → Misplaced s s.head u v

theorem Reorders.refl (s : Loader) : Reorders s s :=
  ⟨s.head, rfl, List.Perm.refl _, fun _ _ => id⟩

theorem Reorders.trans {s t u : Loader} (first : Reorders s t) (second : Reorders t u) :
    Reorders s u := by
  obtain ⟨head, rfl, perm, kept⟩ := first
  obtain ⟨head', rfl, perm', kept'⟩ := second
  exact ⟨head', rfl, perm'.trans perm, fun a b wrong => kept a b (kept' a b wrong)⟩

theorem imports_spec (d : Dll) (parentdll : Option Dll) (call : Dll → Loader → Except Fault Loader)
    (upper dlls : List Dll) (s : Loader) (linked : Linked s)
    (callOk : ∀ dll ∈ dlls, some dll ≠ parentdll → ∀ t, Linked t → t.object = s.object →
      (∀ u v, Misplaced t t.head u v → u ∈ upper) →
      ∃ t', call dll t = .ok t' ∧ Reorders t t' ∧ ¬ Misplaced t' t'.head d dll)
    (pending : ∀ u v, Misplaced s s.head u v → u ∈ upper) :
    ∃ s', dlls.foldlM (fun s dll => if some dll = parentdll then .ok s else call dll s) s = .ok s' ∧
      Reorders s s' ∧ ∀ dll ∈ dlls, some dll ≠ parentdll → ¬ Misplaced s' s'.head d dll := by
  induction dlls generalizing s with
  | nil => exact ⟨s, rfl, Reorders.refl s, nofun⟩
  | cons dll rest ih =>
    rw [List.foldlM_cons]
    by_cases same : some dll = parentdll
    · rw [if_pos same]
      obtain ⟨s', folded, reorders, placed⟩ := ih s linked
        (fun a inside => callOk a (List.mem_cons_of_mem _ inside)) pending
      refine ⟨s', folded, reorders, ?_⟩
      intro a inside other
      rcases List.mem_cons.mp inside with rfl | inside
      · exact absurd same other
      · exact placed a inside other
    · rw [if_neg same]
      obtain ⟨t, called, reorders, placed⟩ := callOk dll List.mem_cons_self same s linked rfl pending
      obtain ⟨head, rfl, perm, kept⟩ := id reorders
      obtain ⟨s', folded, reorders', placed'⟩ := ih { s with head := head } (linked.perm perm)
        (fun a inside => callOk a (List.mem_cons_of_mem _ inside))
        (fun u v wrong => pending u v (kept u v wrong))
      refine ⟨s', by rw [called]; exact folded, reorders.trans reorders', ?_⟩
      intro a inside other
      rcases List.mem_cons.mp inside with rfl | inside
      · obtain ⟨head', rfl, _, kept'⟩ := reorders'
        exact fun wrong => placed (kept' _ _ wrong)
      · exact placed' a inside other

/-- The recursion. The path holds the DLLs whose calls are in progress, the innermost first;
only they can be out of order, and the call puts its own DLL behind its parent. -/
theorem setUnloadOrder_path (fuel : ℕ) {p d : Dll} (upper : List Dll) (s : Loader)
    (linked : Linked s) (short : CyclesShort s) (nodup : (d :: p :: upper).Nodup)
    (path : List.IsChain (fun v u => s.DependsOn u v) (d :: p :: upper))
    (inside : ∀ u ∈ d :: p :: upper, u ∈ s.head)
    (enough : s.head.length < fuel + (p :: upper).length)
    (pending : ∀ u v, Misplaced s s.head u v → u ∈ p :: upper) :
    ∃ s', setUnloadOrder fuel (some p) d s = .ok s' ∧ Reorders s s' ∧
      ¬ Misplaced s' s'.head p d := by
  induction fuel generalizing p d upper s with
  | zero =>
    have small : (d :: p :: upper).length ≤ s.head.length :=
      (List.subperm_of_subset nodup inside).length_le
    simp only [List.length_cons] at small enough
    omega
  | succ fuel ih =>
    have there := inside d List.mem_cons_self
    have there' := inside p (List.mem_cons_of_mem _ List.mem_cons_self)
    have other : p ≠ d := by
      rintro rfl
      simp at nodup
    obtain ⟨object, here⟩ := (linked.live d).mp there
    unfold setUnloadOrder
    simp only [get_eq here, bind, Except.bind]
    rw [linked.inserted d object here]
    rcases linked.place_spec there' there other with ⟨before, placed⟩ | ⟨after, placed⟩
    · rw [placed]
      exact ⟨s, rfl, Reorders.refl s, fun wrong => wrong.2.2 before⟩
    rw [placed]
    simp only
    have same : ({ s with head := moveAfter p d s.head }.set d
        { object with fInserted := true }) = { s with head := moveAfter p d s.head } := by
      refine set_self ?_
      rw [here, ← linked.inserted d object here]
    rw [same]
    have perm := moveAfter_perm there' there other
    -- only what the DLL itself stands before is disturbed by the move
    have moved : ∀ u v, Misplaced s (moveAfter p d s.head) u v →
        u = d ∨ Misplaced s s.head u v := by
      rintro u v ⟨edge, single, wrong⟩
      by_cases own : u = d
      · exact Or.inl own
      · exact Or.inr ⟨edge, single, fun before => wrong (before.moveAfter linked.nodup own after)⟩
    obtain ⟨s', folded, reorders, done⟩ := imports_spec d (some p)
      (fun dll => setUnloadOrder fuel (some d) dll) (d :: p :: upper)
      object.loadedDlls { s with head := moveAfter p d s.head } (linked.perm perm)
      (by
        intro dll imported different t linked' objects pending'
        have edges : t.DependsOn = s.DependsOn := by
          funext u v
          simp only [Loader.DependsOn, Loader.deps, objects]
        have edge : s.DependsOn d dll := by
          unfold Loader.DependsOn
          rw [deps_eq here]
          exact imported
        have fresh := not_mem_path short nodup path edge fun same => different (congrArg some same)
        have heads : t.head.length = s.head.length := by
          have same : ∀ u, u ∈ t.head ↔ u ∈ s.head := fun u => by
            rw [linked'.live, linked.live, objects]
          exact ((List.perm_ext_iff_of_nodup linked'.nodup linked.nodup).mpr same).length_eq
        refine ih (p :: upper) t linked' ?_ (List.nodup_cons.mpr ⟨fresh, nodup⟩) ?_ ?_ ?_ pending'
        · unfold CyclesShort
          rw [edges]
          exact short
        · rw [edges]
          exact List.IsChain.cons_cons edge path
        · intro u member
          rw [linked'.live, objects, ← linked.live]
          rcases List.mem_cons.mp member with rfl | member
          · exact linked.deps d u edge
          · exact inside u member
        · simp only [List.length_cons] at enough ⊢
          omega)
      (by
        intro u v wrong
        rcases moved u v wrong with rfl | wrong
        · exact List.mem_cons_self
        · exact List.mem_cons_of_mem _ (pending u v wrong))
    obtain ⟨head, rfl, perm', kept⟩ := reorders
    refine ⟨_, folded, ⟨head, rfl, perm'.trans perm, ?_⟩, ?_⟩
    · intro u v wrong
      rcases moved u v (kept u v wrong) with rfl | wrong'
      · exfalso
        have imported : v ∈ object.loadedDlls := by
          rw [← deps_eq here]
          exact wrong.1
        by_cases back : v = p
        · subst back
          exact wrong.2.1 ((List.isChain_cons_cons.mp path).1)
        · exact done v imported (fun same => back (Option.some.inj same)) wrong
      · exact wrong'
    · intro wrong
      rcases moved p d (kept p d wrong) with same | wrong'
      · exact other same
      · exact (kept p d wrong).2.2 (before_moveAfter_self there' other)

theorem setUnloadOrder_spec {fuel : ℕ} {p d : Dll} {s : Loader} (linked : Linked s)
    (short : CyclesShort s) (edge : s.DependsOn p d) (inside : p ∈ s.head)
    (ordered : ∀ u v, Misplaced s s.head u v → u = p ∧ v = d) (enough : s.head.length ≤ fuel) :
    ∃ head : List Dll, setUnloadOrder fuel (some p) d s = .ok { s with head := head } ∧
      head.Perm s.head ∧ ∀ u v, ¬ Misplaced s head u v := by
  have other : d ≠ p := by
    rintro rfl
    have one := short [d] ⟨List.nodup_singleton d, List.IsChain.cons_cons edge
      (List.IsChain.singleton d)⟩
    simp at one
  obtain ⟨_, called, ⟨head, rfl, perm, kept⟩, placed⟩ :=
    setUnloadOrder_path fuel [] s linked short (by simpa using other)
      (List.IsChain.cons_cons edge (List.IsChain.singleton p))
      (by
        intro u member
        rcases List.mem_cons.mp member with rfl | member
        · exact linked.deps p u edge
        · exact (List.mem_singleton.mp member) ▸ inside)
      (by simpa using Nat.lt_succ_of_le enough)
      (fun u v wrong => by simp [(ordered u v wrong).1])
  refine ⟨head, called, perm, ?_⟩
  intro u v wrong
  obtain ⟨rfl, rfl⟩ := ordered u v (kept u v wrong)
  exact placed wrong

end Odin32.DllList
