import Odin32.Overlapped
import Mathlib.Data.List.Perm.Subperm

/-! # The lists of requests

What the sections under `critsect` do to a list that is linked as it should be: their walks
end, meet no deleted request, and only links change. -/

set_option autoImplicit false

namespace Odin32.Overlapped

open LinkedList

abbrev Heap := Ref → Option AsyncIoRequest

/-- The requests are the same but for their links. -/
def SameData (heap heap' : Heap) : Prop :=
  ∀ a, (heap' a).map (fun r => { r with next := none }) =
    (heap a).map fun r => { r with next := none }

theorem SameData.refl (heap : Heap) : SameData heap heap := fun _ => rfl

theorem SameData.none_iff {heap heap' : Heap} (same : SameData heap heap') (a : Ref) :
    heap' a = none ↔ heap a = none := by
  have eq := same a
  cases here : heap a <;> cases there : heap' a <;> simp_all

theorem SameData.some {heap heap' : Heap} (same : SameData heap heap') {a : Ref}
    {r : AsyncIoRequest} (live : heap a = some r) :
    ∃ n, heap' a = some { r with next := n } := by
  have eq := same a
  rw [live, Option.map_some] at eq
  obtain ⟨r', there, eq⟩ := Option.map_eq_some_iff.mp eq
  refine ⟨r'.next, there.trans (congrArg Option.some ?_)⟩
  calc r' = { ({ r' with next := none } : AsyncIoRequest) with next := r'.next } := rfl
    _ = { r with next := r'.next } := by rw [eq]

theorem sameData_update {heap : Heap} {a : Ref} {r : AsyncIoRequest} (live : heap a = some r)
    (n : Option Ref) : SameData heap (Function.update heap a (some { r with next := n })) := by
  intro b
  by_cases here : b = a
  · subst here
    rw [Function.update_self, live]
    rfl
  · rw [Function.update_of_ne here]

section Sections

variable {s : State} {cells : List Ref}

theorem deref_live {a : Ref} {r : AsyncIoRequest} (live : s.heap a = some r) :
    s.deref a = .ok r := by
  rw [State.deref, live]

theorem write_live {a : Ref} {r : AsyncIoRequest} (live : s.heap a = some r)
    (f : AsyncIoRequest → AsyncIoRequest) :
    s.write a f = .ok { s with heap := Function.update s.heap a (some (f r)) } := by
  rw [State.write, deref_live live]
  rfl

theorem delete_live {a : Ref} {r : AsyncIoRequest} (live : s.heap a = some r) :
    s.delete a = .ok { s with
      heap := Function.update s.heap a none, deletions := s.deletions ++ [a] } := by
  rw [State.delete, deref_live live]
  rfl

theorem length_le_allocated (nodup : cells.Nodup) (bound : ∀ a ∈ cells, a < s.allocated) :
    cells.length ≤ s.allocated := by
  have sub : List.Subperm cells (List.range s.allocated) :=
    List.subperm_of_subset nodup fun a mem => List.mem_range.mpr (bound a mem)
  have le := sub.length_le
  rwa [List.length_range] at le

theorem walk_chain {i : Index} {first : Ref} {rest : List Ref}
    (chain : Chain AsyncIoRequest.next s.heap (s.pending i) (first :: rest))
    (nodup : (first :: rest).Nodup) (bound : ∀ a ∈ first :: rest, a < s.allocated)
    (stop : Ref → AsyncIoRequest → Bool) :
    ∃ l₁ p l₂, first :: rest = l₁ ++ p :: l₂ ∧ s.walk stop first = .ok (p, l₂.head?) ∧
      (∀ a r, a ∈ (l₁ ++ [p]).tail → s.heap a = some r → stop a r = false) ∧
      ∀ a r, l₂.head? = some a → s.heap a = some r → stop a r = true := by
  have enough : rest.length < s.allocated := length_le_allocated nodup bound
  have fromFirst : Chain AsyncIoRequest.next s.heap (some first) (first :: rest) :=
    ⟨rfl, chain.2⟩
  exact fromFirst.seek _ enough

/-- What a section that takes request `a` off list `i` leaves. -/
structure Unlinked (s s' : State) (i : Index) (a : Ref) (l₁ l₂ : List Ref) : Prop where
  same : s' = { s with heap := s'.heap, pending := s'.pending }
  elsewhere : ∀ j ≠ i, s'.pending j = s.pending j
  data : SameData s.heap s'.heap
  chain : Chain AsyncIoRequest.next s'.heap (s'.pending i) (l₁ ++ l₂)
  others : ∀ b ∉ l₁, s'.heap b = s.heap b

theorem unlinked_first {i : Index} {a : Ref} {r : AsyncIoRequest} {l₂ : List Ref}
    (chain : Chain AsyncIoRequest.next s.heap (s.pending i) (a :: l₂))
    (live : s.heap a = some r) : Unlinked s (s.setPending i r.next) i a [] l₂ := by
  refine ⟨rfl, fun j ne => Function.update_of_ne ne .., SameData.refl _, ?_, fun _ _ => rfl⟩
  have head : (s.setPending i r.next).pending i = r.next := Function.update_self ..
  rw [head]
  exact chain.pop live

theorem unlinked_later {i : Index} {p a : Ref} {rp r : AsyncIoRequest} {l₁ l₂ : List Ref}
    (chain : Chain AsyncIoRequest.next s.heap (s.pending i) (l₁ ++ p :: a :: l₂))
    (nodup : (l₁ ++ p :: a :: l₂).Nodup) (liveBefore : s.heap p = some rp)
    (live : s.heap a = some r) :
    Unlinked s { s with heap := Function.update s.heap p (some { rp with next := r.next }) }
      i a (l₁ ++ [p]) l₂ := by
  have off : p ∉ l₁ := by
    intro mem
    exact List.disjoint_of_nodup_append nodup mem (List.mem_cons_self ..)
  have off' : p ∉ l₂ := by
    intro mem
    have apart := (List.nodup_cons.mp (List.nodup_append.mp nodup).2.1).1
    exact apart (List.mem_cons_of_mem a mem)
  refine ⟨rfl, fun _ _ => rfl, sameData_update liveBefore _, ?_, ?_⟩
  · have tail : Chain AsyncIoRequest.next s.heap r.next l₂ := by
      have fromA : Chain AsyncIoRequest.next s.heap (some a) (a :: l₂) := by
        have split : l₁ ++ p :: a :: l₂ = (l₁ ++ [p]) ++ a :: l₂ := by simp
        rw [split] at chain
        exact chain.drop
      exact fromA.pop live
    rw [List.append_assoc]
    exact chain.relink off off' tail
  · intro b out
    apply Function.update_of_ne
    rintro rfl
    exact out (List.mem_append_right _ (List.mem_cons_self ..))

theorem findAndRemoveRequest_spec {i : Index} (hHandle : Handle)
    (chain : Chain AsyncIoRequest.next s.heap (s.pending i) cells) (nodup : cells.Nodup)
    (bound : ∀ a ∈ cells, a < s.allocated) :
    (s.findAndRemoveRequest i hHandle = .ok (s, none) ∧
      ∀ a ∈ cells, ∀ r, s.heap a = some r → r.hHandle ≠ hHandle) ∨
    ∃ s' a l₁ l₂, s.findAndRemoveRequest i hHandle = .ok (s', some a) ∧
      cells = l₁ ++ a :: l₂ ∧ Unlinked s s' i a l₁ l₂ ∧
      ∃ r, s.heap a = some r ∧ r.hHandle = hHandle := by
  have head := chain.head_eq
  unfold State.findAndRemoveRequest
  cases cells with
  | nil =>
    left
    rw [show s.pending i = none from head]
    refine ⟨rfl, fun a mem => ?_⟩
    cases mem
  | cons first rest =>
    obtain ⟨r, live⟩ := chain.live (List.mem_cons_self (a := first) (l := rest))
    rw [show s.pending i = some first from head]
    simp only [deref_live live]
    by_cases handle : r.hHandle = hHandle
    · right
      refine ⟨s.setPending i r.next, first, [], rest, ?_, rfl, unlinked_first chain live,
        r, live, handle⟩
      simp [handle, bind, Except.bind, pure, Except.pure]
    · obtain ⟨l₁, p, l₂, split, walked, before, after⟩ :=
        walk_chain chain nodup bound fun _ r => r.hHandle == hHandle
      simp only [walked]
      cases l₂ with
      | nil =>
        left
        refine ⟨by simp [handle, bind, Except.bind, pure, Except.pure], ?_⟩
        intro a mem ra liveA
        rw [split] at mem
        cases l₁ with
        | nil =>
          obtain rfl : first = p := (List.cons.inj split).1
          obtain rfl : a = first := by simpa using mem
          cases live.symm.trans liveA
          exact handle
        | cons b l₁ =>
          obtain rfl : first = b := (List.cons.inj split).1
          rcases List.mem_cons.mp mem with rfl | later
          · cases live.symm.trans liveA
            exact handle
          · have passed := before a ra later liveA
            simpa using passed
      | cons a l₂ =>
        right
        rw [split] at chain nodup
        obtain ⟨rp, liveP⟩ := chain.live (List.mem_append_right l₁ (List.mem_cons_self ..))
        obtain ⟨ra, liveA⟩ := chain.live
          (List.mem_append_right l₁ (List.mem_cons_of_mem p (List.mem_cons_self ..)))
        have hit := after a ra rfl liveA
        refine ⟨_, a, l₁ ++ [p], l₂, ?_, by rw [split]; simp,
          unlinked_later chain nodup liveP liveA, ra, liveA, by simpa using hit⟩
        simp [handle, bind, Except.bind, pure, Except.pure, deref_live liveA, State.setNext,
          write_live liveP]

theorem removeRequest_spec {i : Index} (lpRequest : Ref)
    (chain : Chain AsyncIoRequest.next s.heap (s.pending i) cells) (nodup : cells.Nodup)
    (bound : ∀ a ∈ cells, a < s.allocated) :
    (s.removeRequest i lpRequest = .ok s ∧ lpRequest ∉ cells) ∨
    ∃ s' l₁ l₂, s.removeRequest i lpRequest = .ok s' ∧ cells = l₁ ++ lpRequest :: l₂ ∧
      Unlinked s s' i lpRequest l₁ l₂ := by
  have head := chain.head_eq
  unfold State.removeRequest
  cases cells with
  | nil =>
    left
    rw [show s.pending i = none from head]
    exact ⟨rfl, List.not_mem_nil⟩
  | cons first rest =>
    obtain ⟨r, live⟩ := chain.live (List.mem_cons_self (a := first) (l := rest))
    rw [show s.pending i = some first from head]
    by_cases here : first = lpRequest
    · subst here
      right
      refine ⟨s.setPending i r.next, [], rest, ?_, rfl, unlinked_first chain live⟩
      simp [deref_live live, bind, Except.bind, pure, Except.pure]
    · obtain ⟨l₁, p, l₂, split, walked, before, after⟩ :=
        walk_chain chain nodup bound fun a _ => a == lpRequest
      simp only [walked, if_neg here]
      cases l₂ with
      | nil =>
        left
        refine ⟨rfl, ?_⟩
        intro mem
        rcases List.mem_cons.mp mem with rfl | later
        · exact here rfl
        · have mem' : lpRequest ∈ (l₁ ++ [p]).tail := by
            rw [← split]
            exact later
          obtain ⟨ra, liveA⟩ := chain.live mem
          have passed := before lpRequest ra mem' liveA
          simp at passed
      | cons a l₂ =>
        right
        have mem : ∀ b, b ∈ l₁ ++ p :: a :: l₂ → ∃ rb, s.heap b = some rb := by
          intro b inside
          rw [← split] at inside
          exact chain.live inside
        obtain ⟨rp, liveP⟩ := mem p (by simp)
        obtain ⟨ra, liveA⟩ := mem a (by simp)
        obtain rfl : a = lpRequest := by simpa using after a ra rfl liveA
        rw [split] at chain nodup
        refine ⟨_, l₁ ++ [p], l₂, ?_, by rw [split]; simp,
          unlinked_later chain nodup liveP liveA⟩
        simp [bind, Except.bind, deref_live liveA, State.setNext, write_live liveP]

/-- What `addRequest` leaves. -/
structure Linked (s s' : State) (i : Index) (a : Ref) (cells : List Ref) : Prop where
  same : s' = { s with heap := s'.heap, pending := s'.pending }
  elsewhere : ∀ j ≠ i, s'.pending j = s.pending j
  data : SameData s.heap s'.heap
  chain : Chain AsyncIoRequest.next s'.heap (s'.pending i) (cells ++ [a])
  others : ∀ b ∉ cells, s'.heap b = s.heap b

theorem addRequest_spec {i : Index} {a : Ref} {r : AsyncIoRequest}
    (chain : Chain AsyncIoRequest.next s.heap (s.pending i) cells) (nodup : cells.Nodup)
    (bound : ∀ b ∈ cells, b < s.allocated) (live : s.heap a = some r) (last : r.next = none)
    (off : a ∉ cells) : ∃ s', s.addRequest i a = .ok s' ∧ Linked s s' i a cells := by
  have head := chain.head_eq
  unfold State.addRequest
  cases cells with
  | nil =>
    rw [show s.pending i = none from head]
    refine ⟨_, rfl, rfl, fun j ne => Function.update_of_ne ne .., SameData.refl _, ?_,
      fun _ _ => rfl⟩
    have head' : (s.setPending i (some a)).pending i = some a := Function.update_self ..
    rw [head']
    exact ⟨rfl, r, live, last⟩
  | cons first rest =>
    rw [show s.pending i = some first from head]
    obtain ⟨l₁, p, l₂, split, walked, before, after⟩ :=
      walk_chain chain nodup bound fun _ _ => false
    cases l₂ with
    | cons b l₂ =>
      have mem : b ∈ first :: rest := by
        rw [split]
        simp
      obtain ⟨rb, liveB⟩ := chain.live mem
      have stopped := after b rb rfl liveB
      cases stopped
    | nil =>
      simp only [walked]
      rw [split] at chain nodup off
      obtain ⟨rp, liveP⟩ := chain.live (List.mem_append_right l₁ (List.mem_cons_self ..))
      have apart : p ≠ a := by
        rintro rfl
        exact off (by simp)
      have offP : p ∉ l₁ := by
        intro mem
        exact List.disjoint_of_nodup_append nodup mem (List.mem_cons_self ..)
      refine ⟨{ s with heap := Function.update s.heap p (some { rp with next := some a }) },
        ?_, rfl, fun _ _ => rfl, sameData_update liveP _, ?_, ?_⟩
      · simp [bind, Except.bind, State.setNext, write_live liveP]
      · rw [split, List.append_assoc]
        apply chain.relink offP
        · simpa using apart
        · exact ⟨rfl, r, live, last⟩
      · intro b out
        apply Function.update_of_ne
        rintro rfl
        exact out (by rw [split]; simp)

end Sections

end Odin32.Overlapped
