import Odin32.DllFuel
import Odin32.LoadLibrary

/-! # What a load leaves alone

Wherever `setUnloadOrder` moves DLLs to, the others keep their places, and no other member of
an object changes. Nothing that was there before a load goes away by it, or loses a
reference, whether the load fails or not. -/

set_option autoImplicit false

namespace Odin32.LoadLibrary

open DllList OrderedList ImageTls

/-! ## Moving DLLs -/

/-- An object that was not put in the list is not there. -/
def Placed (s : Loader) : Prop :=
  ∀ d object, s.object d = some object → object.fInserted = false → d ∉ s.head

/-- The list is changed by members of `P` only. -/
structure Moves (P : Dll → Prop) [DecidablePred P] (s t : Loader) : Prop where
  created : t.created = s.created
  object : ∀ e, t.object e = s.object e ∨ P e ∧ ∃ o, s.object e = some o ∧
    t.object e = some { o with fInserted := true }
  members : ∀ e ∈ s.head, e ∈ t.head
  back : ∀ e ∈ t.head, e ∈ s.head ∨ P e ∧ ∃ o, s.object e = some o
  front : (t.head.filter fun e => ¬ P e) = s.head.filter fun e => ¬ P e
  placed : Placed s → Placed t
  nodup : Placed s → s.head.Nodup → t.head.Nodup

section Moves

variable {P : Dll → Prop} [DecidablePred P] {s t u : Loader}

theorem Moves.refl (s : Loader) : Moves P s s :=
  ⟨rfl, fun _ => Or.inl rfl, fun _ => id, fun _ => Or.inl, rfl, id, fun _ => id⟩

theorem Moves.trans (first : Moves P s t) (second : Moves P t u) : Moves P s u where
  created := second.created.trans first.created
  object := by
    intro e
    rcases first.object e with same | ⟨own, o, before, after⟩
    · rw [← same]
      exact second.object e
    · rcases second.object e with same | ⟨_, o', before', after'⟩
      · exact Or.inr ⟨own, o, before, same.trans after⟩
      · rw [after] at before'
        cases before'
        exact Or.inr ⟨own, o, before, after'⟩
  members := fun e inside => second.members e (first.members e inside)
  back := by
    intro e inside
    rcases second.back e inside with inside | ⟨own, o, here⟩
    · exact first.back e inside
    · rcases first.object e with same | ⟨_, o', here', _⟩
      · exact Or.inr ⟨own, o, same.symm.trans here⟩
      · exact Or.inr ⟨own, o', here'⟩
  front := second.front.trans first.front
  placed := fun placed => second.placed (first.placed placed)
  nodup := fun placed nodup => second.nodup (first.placed placed) (first.nodup placed nodup)

theorem Moves.deps (moves : Moves P s t) : t.deps = s.deps := by
  funext e
  unfold Loader.deps
  rcases moves.object e with same | ⟨_, o, before, after⟩
  · rw [same]
  · rw [before, after]

theorem filter_insertAfter {p d : Dll} (own : P d) (l : List Dll) :
    ((insertAfter p d l).filter fun e => ¬ P e) = l.filter fun e => ¬ P e := by
  induction l with
  | nil => rfl
  | cons a l ih =>
    unfold insertAfter
    split
    · simp [List.filter_cons, own]
    · rw [List.filter_cons, List.filter_cons, ih]

theorem filter_erase {d : Dll} (own : P d) (l : List Dll) :
    ((l.erase d).filter fun e => ¬ P e) = l.filter fun e => ¬ P e := by
  induction l with
  | nil => rfl
  | cons a l ih =>
    by_cases same : a = d
    · subst same
      simp [own]
    · rw [List.erase_cons_tail (by simpa using same), List.filter_cons, List.filter_cons, ih]

theorem walk_mem_of_some {d : Dll} {next list : List Dll}
    (walked : walk s d list = .ok (some next)) : d ∈ list := by
  induction list with
  | nil => cases walked
  | cons dll rest ih =>
    unfold walk at walked
    rw [bind_ok] at walked
    obtain ⟨_, _, walked⟩ := walked
    by_cases same : dll = d
    · rw [same]
      exact List.mem_cons_self
    · rw [if_neg same] at walked
      exact List.mem_cons_of_mem _ (ih walked)

theorem place_some {parent : Option Dll} {d : Dll} {fInserted : Bool} {parentdll : Option Dll}
    {list : List Dll} (placed : place s parent d fInserted = .ok (some (parentdll, list))) :
    (∃ p ∈ s.head, parent = some p ∧
      list = if fInserted then moveAfter p d s.head else insertAfter p d s.head) ∨
    fInserted = false ∧ list = d :: s.head := by
  unfold place at placed
  rcases parent with _ | p
  · by_cases inserted : fInserted = true
    · simp [inserted, bind, Except.bind, pure, Except.pure] at placed
    · simp only [Bool.not_eq_true] at inserted
      simp only [inserted, bind, Except.bind, pure, Except.pure, Bool.false_eq_true, if_false,
        Except.ok.injEq, Option.some.injEq, Prod.mk.injEq] at placed
      exact Or.inr ⟨inserted, placed.2.symm⟩
  simp only at placed
  rw [bind_ok] at placed
  obtain ⟨_, _, placed⟩ := placed
  rw [bind_ok] at placed
  obtain ⟨walked, search, placed⟩ := placed
  rw [bind_ok] at placed
  obtain ⟨found, same, placed⟩ := placed
  cases same
  rcases walked with _ | next
  · by_cases inserted : fInserted = true
    · simp [inserted, pure, Except.pure] at placed
    · simp only [Bool.not_eq_true] at inserted
      simp only [inserted, Option.map_none, pure, Except.pure, Bool.false_eq_true, if_false,
        Except.ok.injEq, Option.some.injEq, Prod.mk.injEq] at placed
      exact Or.inr ⟨inserted, placed.2.symm⟩
  · left
    refine ⟨p, walk_mem_of_some search, rfl, ?_⟩
    simp only [Option.map_some] at placed
    by_cases inserted : fInserted = true
    · simp only [inserted, if_true] at placed ⊢
      rw [bind_ok] at placed
      obtain ⟨behind, _, placed⟩ := placed
      rcases behind with _ | _
      · simp only at placed
        rw [bind_ok] at placed
        obtain ⟨_, _, placed⟩ := placed
        cases placed
        rfl
      · cases placed
    · rw [if_neg inserted] at placed ⊢
      cases placed
      rfl

theorem placed_moves {parent : Option Dll} {d : Dll} {object : Win32DllBase}
    {parentdll : Option Dll} {list : List Dll} (here : s.object d = some object) (own : P d)
    (apart : parent ≠ some d)
    (placed : place s parent d object.fInserted = .ok (some (parentdll, list))) :
    Moves P s ({ s with head := list }.set d { object with fInserted := true }) := by
  have shape : (∀ e ∈ s.head, e ∈ list) ∧ (∀ e ∈ list, e ∈ s.head ∨ e = d) ∧
      ((list.filter fun e => ¬ P e) = s.head.filter fun e => ¬ P e) ∧
      (Placed s → s.head.Nodup → list.Nodup) := by
    rcases place_some placed with ⟨p, inside, rfl, rfl⟩ | ⟨new, rfl⟩
    · have other : p ≠ d := fun same => apart (by rw [same])
      have still : p ∈ s.head.erase d := (List.mem_erase_of_ne other).mpr inside
      have perm := insertAfter_perm (d := d) inside
      have perm' := insertAfter_perm (d := d) still
      by_cases inserted : object.fInserted = true
      · simp only [inserted, if_true]
        refine ⟨?_, ?_, ?_, ?_⟩
        · intro e there
          refine perm'.mem_iff.mpr ?_
          by_cases same : e = d
          · exact same ▸ List.mem_cons_self
          · exact List.mem_cons_of_mem _ ((List.mem_erase_of_ne same).mpr there)
        · intro e there
          rcases List.mem_cons.mp (perm'.mem_iff.mp there) with same | there
          · exact Or.inr same
          · exact Or.inl (List.mem_of_mem_erase there)
        · exact (filter_insertAfter own _).trans (filter_erase own _)
        · intro _ nodup
          refine perm'.nodup_iff.mpr (List.nodup_cons.mpr ⟨?_, nodup.erase d⟩)
          exact nodup.not_mem_erase
      · simp only [inserted]
        refine ⟨?_, ?_, filter_insertAfter own _, ?_⟩
        · exact fun e there => perm.mem_iff.mpr (List.mem_cons_of_mem _ there)
        · intro e there
          rcases List.mem_cons.mp (perm.mem_iff.mp there) with same | there
          · exact Or.inr same
          · exact Or.inl there
        · intro placed nodup
          exact perm.nodup_iff.mpr (List.nodup_cons.mpr
            ⟨placed d object here (by simpa using inserted), nodup⟩)
    · refine ⟨fun e => List.mem_cons_of_mem _, ?_, by simp [own], ?_⟩
      · exact fun e there => (List.mem_cons.mp there).symm
      · exact fun placed nodup => List.nodup_cons.mpr ⟨placed d object here new, nodup⟩
  obtain ⟨members, back, front, nodup⟩ := shape
  refine ⟨rfl, ?_, members, ?_, front, ?_, nodup⟩
  · intro e
    by_cases same : e = d
    · subst same
      exact Or.inr ⟨own, object, here, Loader.set_object_self ..⟩
    · exact Or.inl (Loader.set_object_of_ne _ same _)
  · intro e inside
    rcases back e inside with inside | rfl
    · exact Or.inl inside
    · exact Or.inr ⟨own, object, here⟩
  · intro placed e o there notInserted inside
    by_cases same : e = d
    · subst same
      rw [Loader.set_object_self] at there
      cases there
      cases notInserted
    · rw [Loader.set_object_of_ne _ same] at there
      exact placed e o there notInserted ((back e inside).resolve_right same)

/-- Members of `P` import none but other members. -/
def Closed (P : Dll → Prop) (s : Loader) : Prop := ∀ u, P u → ∀ v ∈ s.deps u, P v ∧ v ≠ u

theorem foldlM_moves {f : Loader → Dll → Except Fault Loader} {queue : List Dll}
    (each : ∀ v ∈ queue, ∀ s t, Closed P s → f s v = .ok t → Moves P s t) (closed : Closed P s)
    (called : queue.foldlM f s = .ok t) : Moves P s t := by
  induction queue generalizing s with
  | nil =>
    cases called
    exact Moves.refl _
  | cons v rest ih =>
    rw [List.foldlM_cons, bind_ok] at called
    obtain ⟨u, child, called⟩ := called
    have moved := each v List.mem_cons_self s u closed child
    have closed' : Closed P u := by
      unfold Closed
      rw [moved.deps]
      exact closed
    exact moved.trans (ih (fun w inside => each w (List.mem_cons_of_mem _ inside)) closed' called)

theorem of_get {d : Dll} {object : Win32DllBase} (got : s.get d = .ok object) :
    s.object d = some object := by
  unfold Loader.get at got
  split at got
  · next here =>
    cases got
    exact here
  · cases got

theorem setUnloadOrder_moves (fuel : ℕ) {parent : Option Dll} {d : Dll} (closed : Closed P s)
    (own : P d) (apart : parent ≠ some d) (called : setUnloadOrder fuel parent d s = .ok t) :
    Moves P s t := by
  induction fuel generalizing parent d s t with
  | zero => cases called
  | succ fuel ih =>
    unfold setUnloadOrder at called
    rw [bind_ok] at called
    obtain ⟨object, got, called⟩ := called
    have here := of_get got
    rw [bind_ok] at called
    obtain ⟨found, placed, called⟩ := called
    rcases found with _ | ⟨parentdll, list⟩
    · cases called
      exact Moves.refl _
    have first := placed_moves here own apart placed
    have closed' : Closed P ({ s with head := list }.set d { object with fInserted := true }) := by
      unfold Closed
      rw [first.deps]
      exact closed
    refine first.trans (foldlM_moves ?_ closed' called)
    intro v inside u w closed child
    by_cases same : some v = parentdll
    · rw [if_pos same] at child
      cases child
      exact Moves.refl u
    · rw [if_neg same] at child
      obtain ⟨own', other⟩ := closed' d own v (by
        rw [deps_eq (Loader.set_object_self ..)]
        exact inside)
      exact ih closed own' (fun same => other (Option.some.inj same).symm) child

end Moves

/-! ## What the calls of a load change -/

theorem addRef_ok {d : Dll} {s t : Loader} (called : addRef d s = .ok t) :
    ∃ o, s.object d = some o ∧ t = s.set d { o with referenced := o.referenced + 1 } := by
  unfold addRef at called
  rw [bind_ok] at called
  obtain ⟨o, got, called⟩ := called
  cases called
  exact ⟨o, of_get got, rfl⟩

theorem addDependency_ok {p d : Dll} {s t : Loader} (called : addDependency p d s = .ok t) :
    ∃ o, s.object p = some o ∧ t = s.set p { o with loadedDlls := d :: o.loadedDlls } := by
  unfold addDependency at called
  rw [bind_ok] at called
  obtain ⟨o, got, called⟩ := called
  cases called
  exact ⟨o, of_get got, rfl⟩

theorem attach_ok {d : Dll} {s t : Loader} (called : DllList.attachProcess d s = .ok t) :
    ∃ o, s.object d = some o ∧
      (t = s ∨ t = s.set d { o with fAttachedToProcess := true }) := by
  unfold DllList.attachProcess at called
  rw [bind_ok] at called
  obtain ⟨o, got, called⟩ := called
  refine ⟨o, of_get got, ?_⟩
  split at called <;> cases called
  · exact Or.inl rfl
  · exact Or.inr rfl

theorem detachProcess_ok {d : Dll} {s t : Loader} (called : detachProcess d s = .ok t) :
    t.head = s.head ∧ t.created = s.created ∧ ∀ e, e ≠ d → t.object e = s.object e := by
  unfold detachProcess at called
  rw [bind_ok] at called
  obtain ⟨o, got, called⟩ := called
  cases called
  split
  · exact ⟨rfl, rfl, fun e other => Loader.set_object_of_ne _ other _⟩
  · exact ⟨rfl, rfl, fun e other => Loader.set_object_of_ne _ other _⟩

theorem delete_ok {d : Dll} {s t : Loader} (called : DllList.delete d s = .ok t) :
    t.head = s.head.erase d ∧ t.created = s.created ∧ t.object d = none ∧
      ∀ e, e ≠ d → t.object e = s.object e := by
  unfold DllList.delete at called
  rw [bind_ok] at called
  obtain ⟨o, got, called⟩ := called
  have unlinked {u : Loader} (head : u.head = s.head) (created : u.created = s.created)
      (object : ∀ e, e ≠ d → u.object e = s.object e) (called : (do
        let _ ← walk u d u.head
        pure { u with
          head := u.head.erase d
          object := Function.update u.object d none
          deleted := d :: u.deleted }) = Except.ok t) :
      t.head = s.head.erase d ∧ t.created = s.created ∧ t.object d = none ∧
        ∀ e, e ≠ d → t.object e = s.object e := by
    rw [bind_ok] at called
    obtain ⟨_, _, called⟩ := called
    cases called
    exact ⟨by rw [head], created, Function.update_self ..,
      fun e other => (Function.update_of_ne other ..).trans (object e other)⟩
  simp only at called
  split at called
  · rw [bind_ok] at called
    obtain ⟨u, detached, called⟩ := called
    obtain ⟨head, created, object⟩ := detachProcess_ok detached
    exact unlinked head created object called
  · exact unlinked rfl rfl (fun _ _ => rfl) called

/-! ## What is kept -/

/-- No object is there before it is created, and none imports itself. -/
structure Sound (s : Loader) : Prop where
  fresh : ∀ e, s.created ≤ e → s.object e = none
  below : ∀ e ∈ s.head, e < s.created
  own : ∀ e, e ∉ s.deps e

theorem Sound.lt {s : Loader} (sound : Sound s) {d : Dll} {o : Win32DllBase}
    (here : s.object d = some o) : d < s.created := by
  by_contra ge
  rw [sound.fresh d (Nat.le_of_not_lt ge)] at here
  cases here

/-- The objects below `n` stay where they are in the list or not, and lose no reference. -/
structure Grows (n : ℕ) (s t : Loader) : Prop where
  created : s.created ≤ t.created
  kept : ∀ e < n, ∀ o, s.object e = some o → ∃ o', t.object e = some o' ∧
    o.referenced ≤ o'.referenced
  members : ∀ e < n, e ∈ s.head → e ∈ t.head

theorem Grows.refl (n : ℕ) (s : Loader) : Grows n s s :=
  ⟨Nat.le_refl _, fun _ _ o here => ⟨o, here, le_refl _⟩, fun _ _ => id⟩

theorem Grows.trans {n : ℕ} {s t u : Loader} (first : Grows n s t) (second : Grows n t u) :
    Grows n s u where
  created := first.created.trans second.created
  kept := by
    intro e below o here
    obtain ⟨o', here', le⟩ := first.kept e below o here
    obtain ⟨o'', here'', le'⟩ := second.kept e below o' here'
    exact ⟨o'', here'', le.trans le'⟩
  members := fun e below inside => second.members e below (first.members e below inside)

theorem Grows.mono {n m : ℕ} {s t : Loader} (grows : Grows n s t) (le : m ≤ n) : Grows m s t :=
  ⟨grows.created, fun e below => grows.kept e (Nat.lt_of_lt_of_le below le),
    fun e below => grows.members e (Nat.lt_of_lt_of_le below le)⟩

theorem set_grows {s : Loader} {d : Dll} {o p : Win32DllBase} (here : s.object d = some o)
    (more : o.referenced ≤ p.referenced) (n : ℕ) : Grows n s (s.set d p) where
  created := Nat.le_refl _
  kept := by
    intro e below q there
    by_cases same : e = d
    · subst same
      rw [here] at there
      cases there
      exact ⟨p, Loader.set_object_self .., more⟩
    · exact ⟨q, (Loader.set_object_of_ne _ same _).trans there, le_refl _⟩
  members := fun _ _ => id

theorem deps_set (s : Loader) (d e : Dll) (o : Win32DllBase) :
    (s.set d o).deps e = if e = d then o.loadedDlls else s.deps e := by
  unfold Loader.deps
  by_cases same : e = d
  · subst same
    rw [Loader.set_object_self, if_pos rfl]
  · rw [Loader.set_object_of_ne _ same, if_neg same]

theorem set_sound {s : Loader} (sound : Sound s) {d : Dll} {o p : Win32DllBase}
    (here : s.object d = some o) (own : d ∉ p.loadedDlls) : Sound (s.set d p) where
  fresh := by
    intro e ge
    have other : e ≠ d := (Nat.lt_of_lt_of_le (sound.lt here) ge).ne'
    exact (Loader.set_object_of_ne _ other _).trans (sound.fresh e ge)
  below := sound.below
  own := by
    intro e inside
    rw [deps_set] at inside
    split at inside
    · next same => exact own (same ▸ inside)
    · exact sound.own e inside

theorem set_sound_same {s : Loader} (sound : Sound s) {d : Dll} {o o' : Win32DllBase}
    (here : s.object d = some o) (same : o'.loadedDlls = o.loadedDlls) : Sound (s.set d o') := by
  refine set_sound sound here ?_
  rw [same, ← deps_eq here]
  exact sound.own d

theorem moves_grows {P : Dll → Prop} [DecidablePred P] {s t : Loader} (moves : Moves P s t)
    (n : ℕ) : Grows n s t where
  created := moves.created.ge
  kept := by
    intro e _ o here
    rcases moves.object e with same | ⟨_, o', here', after⟩
    · exact ⟨o, same.trans here, le_refl _⟩
    · rw [here] at here'
      cases here'
      exact ⟨_, after, le_refl _⟩
  members := fun e _ => moves.members e

theorem moves_sound {P : Dll → Prop} [DecidablePred P] {s t : Loader} (moves : Moves P s t)
    (sound : Sound s) : Sound t where
  fresh := by
    intro e ge
    rw [moves.created] at ge
    rcases moves.object e with same | ⟨_, o, here, _⟩
    · exact same.trans (sound.fresh e ge)
    · rw [sound.fresh e ge] at here
      cases here
  below := by
    intro e inside
    rw [moves.created]
    rcases moves.back e inside with inside | ⟨_, o, here⟩
    · exact sound.below e inside
    · exact sound.lt here
  own := by
    rw [moves.deps]
    exact sound.own

theorem Sound.closed {s : Loader} (sound : Sound s) : Closed (fun _ => True) s :=
  fun u _ _ inside => ⟨trivial, fun same => sound.own u (same ▸ inside)⟩

theorem Sound.moves {s t : Loader} (sound : Sound s) {fuel : ℕ} {parent : Option Dll} {d : Dll}
    (apart : parent ≠ some d) (called : setUnloadOrder fuel parent d s = .ok t) :
    Moves (fun _ => True) s t :=
  setUnloadOrder_moves fuel sound.closed trivial apart called

theorem bindImport_ok {fuel : ℕ} {p d : Dll} {s t : Loader}
    (called : bindImport fuel p d s = .ok t) : ∃ o, s.object p = some o ∧
      setUnloadOrder fuel (some p) d (s.set p { o with loadedDlls := d :: o.loadedDlls }) =
        .ok t := by
  unfold bindImport at called
  rw [bind_ok] at called
  obtain ⟨u, added, called⟩ := called
  obtain ⟨o, here, rfl⟩ := addDependency_ok added
  exact ⟨o, here, called⟩

theorem bindImport_kept {fuel : ℕ} {p d : Dll} {s t : Loader} (sound : Sound s) (apart : p ≠ d)
    (called : bindImport fuel p d s = .ok t) : Sound t ∧ ∀ n, Grows n s t := by
  obtain ⟨o, here, called⟩ := bindImport_ok called
  have own : p ∉ d :: o.loadedDlls := by
    rw [List.mem_cons, not_or, ← deps_eq here]
    exact ⟨apart, sound.own p⟩
  have sound' := set_sound sound here (p := { o with loadedDlls := d :: o.loadedDlls }) own
  have moves := sound'.moves (fun same => apart (Option.some.inj same)) called
  exact ⟨moves_sound moves sound', fun n =>
    (set_grows (p := { o with loadedDlls := d :: o.loadedDlls }) here (le_refl _) n).trans
      (moves_grows moves n)⟩

end Odin32.LoadLibrary
