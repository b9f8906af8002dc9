import Odin32.LinearList
import Mathlib.Data.List.Basic
import Mathlib.Tactic.Ring

/-! # Runs of the linear list

Every call keeps the list right except three: an entry before another one than the first
(the link of the entry in front is missing), an entry after another one than the last (the
link back of the entry behind is missing), and `clear` of a list that is not empty (the
count stays). -/

set_option autoImplicit false

namespace Odin32.LinearList

open LinkedList

variable {ω : Type} {s s' : CLinearList ω} {l l₁ l₂ : Entries ω} {heap heap' : Heap ω}

/-! ## The two setters -/

theorem setNext_spec {a : Addr} {e : LinearListEntry ω} (here : heap a = some e)
    (link : Option Addr) : ∃ heap', setNext heap a link = some heap' ∧
      (∀ b, (heap' b).map LinearListEntry.pNext =
        if a = b then some link else (heap b).map LinearListEntry.pNext) ∧
      (∀ b, (heap' b).map LinearListEntry.pPrev = (heap b).map LinearListEntry.pPrev) ∧
      ∀ b, (heap' b).map LinearListEntry.pObject = (heap b).map LinearListEntry.pObject := by
  refine ⟨_, by rw [setNext, here]; rfl, ?_, ?_, ?_⟩ <;>
  · intro b
    by_cases eq : a = b
    · subst eq
      simp [here]
    · simp [Function.update_of_ne (Ne.symm eq), eq]

theorem setPrev_spec {a : Addr} {e : LinearListEntry ω} (here : heap a = some e)
    (link : Option Addr) : ∃ heap', setPrev heap a link = some heap' ∧
      (∀ b, (heap' b).map LinearListEntry.pNext = (heap b).map LinearListEntry.pNext) ∧
      (∀ b, (heap' b).map LinearListEntry.pPrev =
        if a = b then some link else (heap b).map LinearListEntry.pPrev) ∧
      ∀ b, (heap' b).map LinearListEntry.pObject = (heap b).map LinearListEntry.pObject := by
  refine ⟨_, by rw [setPrev, here]; rfl, ?_, ?_, ?_⟩ <;>
  · intro b
    by_cases eq : a = b
    · subst eq
      simp [here]
    · simp [Function.update_of_ne (Ne.symm eq), eq]

theorem live_of_map {γ : Type} {a : Addr} {f : LinearListEntry ω → γ}
    (same : (heap' a).map f = (heap a).map f) {e : LinearListEntry ω} (here : heap a = some e) :
    ∃ e', heap' a = some e' := by
  rw [here, Option.map_some] at same
  obtain ⟨e', there, -⟩ := Option.map_eq_some_iff.mp same
  exact ⟨e', there⟩

theorem setNextOf_spec {a : Option Addr} (live : ∀ b, a = some b → ∃ e, heap b = some e)
    (link : Option Addr) : ∃ heap', CLinearList.setNextOf heap a link = some heap' ∧
      (∀ b, (heap' b).map LinearListEntry.pNext =
        if a = some b then some link else (heap b).map LinearListEntry.pNext) ∧
      (∀ b, (heap' b).map LinearListEntry.pPrev = (heap b).map LinearListEntry.pPrev) ∧
      ∀ b, (heap' b).map LinearListEntry.pObject = (heap b).map LinearListEntry.pObject := by
  cases a with
  | none => exact ⟨heap, rfl, fun b => rfl, fun b => rfl, fun b => rfl⟩
  | some a =>
    obtain ⟨e, here⟩ := live a rfl
    obtain ⟨heap', set, nexts, rest⟩ := setNext_spec here link
    refine ⟨heap', set, fun b => ?_, rest⟩
    simp only [nexts b, Option.some.injEq]

theorem setPrevOf_spec {a : Option Addr} (live : ∀ b, a = some b → ∃ e, heap b = some e)
    (link : Option Addr) : ∃ heap', CLinearList.setPrevOf heap a link = some heap' ∧
      (∀ b, (heap' b).map LinearListEntry.pNext = (heap b).map LinearListEntry.pNext) ∧
      (∀ b, (heap' b).map LinearListEntry.pPrev =
        if a = some b then some link else (heap b).map LinearListEntry.pPrev) ∧
      ∀ b, (heap' b).map LinearListEntry.pObject = (heap b).map LinearListEntry.pObject := by
  cases a with
  | none => exact ⟨heap, rfl, fun b => rfl, fun b => rfl, fun b => rfl⟩
  | some a =>
    obtain ⟨e, here⟩ := live a rfl
    obtain ⟨heap', set, nexts, prevs, objects⟩ := setPrev_spec here link
    refine ⟨heap', set, nexts, fun b => ?_, objects⟩
    simp only [prevs b, Option.some.injEq]

/-! ## Entries of a represented list -/

theorem Represents.nodup (repr : Represents s l) : (l.map Prod.fst).Nodup :=
  repr.forward.nodup

/-- What an entry in the middle is linked to. -/
theorem Represents.entry {x : Addr × ω} (repr : Represents s (l₁ ++ x :: l₂)) :
    ∃ e, s.heap x.1 = some e ∧ e.pObject = x.2 ∧
      e.pNext = (l₂.map Prod.fst).head? ∧ e.pPrev = (l₁.map Prod.fst).getLast? := by
  have forward := repr.forward
  have backward := repr.backward
  simp only [List.map_append, List.map_cons, List.reverse_append, List.reverse_cons,
    List.append_assoc, List.singleton_append] at forward backward
  obtain ⟨e, here⟩ := forward.live (a := x.1) (by simp)
  have object := repr.objects x (by simp)
  rw [here] at object
  refine ⟨e, here, Option.some.inj object, (forward.drop.pop here).head_eq, ?_⟩
  rw [(backward.drop.pop here).head_eq, List.head?_reverse]

theorem Represents.live {x : Addr × ω} (repr : Represents s l) (mem : x ∈ l) :
    ∃ e, s.heap x.1 = some e :=
  repr.forward.live (List.mem_map_of_mem mem)

theorem Represents.first (repr : Represents s l) : s.pFirst = (l.map Prod.fst).head? :=
  repr.forward.head_eq

theorem Represents.last (repr : Represents s l) : s.pLast = (l.map Prod.fst).getLast? := by
  rw [repr.backward.head_eq, List.head?_reverse]

/-- A fresh entry is none of the list's. -/
theorem Represents.fresh (repr : Represents s l) {new : Addr} (free : s.heap new = none) :
    new ∉ l.map Prod.fst := by
  intro mem
  obtain ⟨e, here⟩ := repr.forward.live mem
  exact absurd (here.symm.trans free) (by simp)

/-! ## Removing -/

theorem removeElement_spec {x : Addr × ω} (repr : Represents s (l₁ ++ x :: l₂)) :
    ∃ s', s.removeElement x.1 = some s' ∧ Represents s' (l₁ ++ l₂) ∧
      s'.allocated = s.allocated := by
  obtain ⟨e, here, -, next, prev⟩ := repr.entry
  have nodup := repr.nodup
  rw [List.map_append, List.map_cons] at nodup
  have apart : ∀ b ∈ l₁.map Prod.fst ++ l₂.map Prod.fst, b ≠ x.1 := by
    intro b mem eq
    have off := (List.nodup_middle.mp nodup)
    exact (List.nodup_cons.mp off).1 (eq ▸ mem)
  obtain ⟨heap₁, set₁, nexts₁, prevs₁, objects₁⟩ := setNextOf_spec
    (a := e.pPrev) (fun b at_b => by
      rw [prev] at at_b
      obtain ⟨y, mem, rfl⟩ := List.mem_map.mp (List.mem_of_getLast? at_b)
      exact repr.live (List.mem_append_left _ mem)) e.pNext
  obtain ⟨heap₂, set₂, nexts₂, prevs₂, objects₂⟩ := setPrevOf_spec
    (a := e.pNext) (fun b at_b => by
      rw [next] at at_b
      obtain ⟨y, mem, rfl⟩ := List.mem_map.mp (List.mem_of_head? at_b)
      obtain ⟨e', there⟩ := repr.live (List.mem_append_right l₁ (List.mem_cons_of_mem x mem))
      exact live_of_map (objects₁ y.1) there) e.pPrev
  have removed : s.removeElement x.1 = some { s with
      pFirst := if s.pFirst = some x.1 then e.pNext else s.pFirst
      pLast := if s.pLast = some x.1 then e.pPrev else s.pLast
      heap := Function.update heap₂ x.1 none
      iSize := s.iSize - 1 } := by
    simp only [CLinearList.removeElement, here, set₁, set₂, Option.bind_eq_bind, Option.bind_some]
    rfl
  have same : ∀ b ∈ l₁.map Prod.fst ++ l₂.map Prod.fst,
      Function.update heap₂ x.1 none b = heap₂ b :=
    fun b mem => Function.update_of_ne (apart b mem) ..
  refine ⟨_, removed, ⟨?_, ?_, ?_, ?_⟩, rfl⟩
  · rw [List.map_append]
    have forward := repr.forward
    rw [List.map_append, List.map_cons] at forward
    refine forward.remove here fun b mem => ?_
    simp only [same b mem, nexts₂, nexts₁, prev]
  · have backward := repr.backward
    simp only [List.map_append, List.map_cons, List.reverse_append, List.reverse_cons,
      List.append_assoc, List.singleton_append] at backward ⊢
    refine backward.remove here fun b mem => ?_
    have mem' : b ∈ l₁.map Prod.fst ++ l₂.map Prod.fst := by
      rw [← List.reverse_append] at mem
      exact List.mem_reverse.mp mem
    simp only [same b mem', prevs₂, prevs₁, next, List.getLast?_reverse]
  · intro y mem
    have mem' : y.1 ∈ l₁.map Prod.fst ++ l₂.map Prod.fst := by
      rw [← List.map_append]
      exact List.mem_map_of_mem mem
    simp only [same y.1 mem', objects₂, objects₁]
    apply repr.objects y
    rcases List.mem_append.mp mem with left | right
    · exact List.mem_append_left _ left
    · exact List.mem_append_right l₁ (List.mem_cons_of_mem x right)
  · have size := repr.size
    simp only [List.length_append, List.length_cons, Nat.cast_add, Nat.cast_one] at size ⊢
    rw [size]
    ring

theorem findForward_spec [DecidableEq ω] (pObject : ω) {fuel : ℕ} {head : Option Addr}
    (chain : Chain LinearListEntry.pNext heap head (l.map Prod.fst))
    (objects : ∀ x ∈ l, (heap x.1).map LinearListEntry.pObject = some x.2)
    (enough : l.length ≤ fuel) :
    CLinearList.findForward heap pObject fuel head =
      some ((l.find? fun x => decide (x.2 = pObject)).map Prod.fst) := by
  induction l generalizing head fuel with
  | nil =>
    obtain rfl : head = none := chain
    cases fuel <;> rfl
  | cons x l ih =>
    obtain ⟨rfl, e, here, tail⟩ := chain
    obtain ⟨fuel, rfl⟩ : ∃ k, fuel = k + 1 :=
      Nat.exists_eq_succ_of_ne_zero (Nat.ne_of_gt (Nat.lt_of_lt_of_le (Nat.succ_pos _) enough))
    have object := objects x (List.mem_cons_self ..)
    rw [here] at object
    have object' : e.pObject = x.2 := Option.some.inj object
    have rest := ih tail (fun y mem => objects y (List.mem_cons_of_mem x mem))
      (Nat.le_of_succ_le_succ enough)
    simp only [CLinearList.findForward, here, Option.bind_eq_bind, Option.bind_some, object']
    by_cases eq : x.2 = pObject
    · rw [if_pos eq, List.find?_cons_of_pos (by simpa using eq)]
      rfl
    · rw [if_neg eq, List.find?_cons_of_neg (by simpa using eq)]
      exact rest

theorem removeObject_spec [DecidableEq ω] (repr : Represents s l)
    (enough : l.length ≤ s.allocated) (pObject : ω) :
    ∃ s', s.removeObject pObject = some s' ∧
      Represents s' (l.eraseP fun x => decide (x.2 = pObject)) ∧ s'.allocated = s.allocated := by
  have found := findForward_spec pObject repr.forward repr.objects enough
  by_cases present : ∃ x ∈ l, decide (x.2 = pObject) = true
  · obtain ⟨x, mem, is⟩ := present
    obtain ⟨y, l₁, l₂, before, isIt, split, erased⟩ := 
      List.exists_of_eraseP (p := fun x => decide (x.2 = pObject)) mem is
    rw [erased]
    subst split
    obtain ⟨s', removed, repr', same⟩ := removeElement_spec repr
    refine ⟨s', ?_, repr', same⟩
    have first : (l₁ ++ y :: l₂).find? (fun x => decide (x.2 = pObject)) = some y := by
      rw [List.find?_append, List.find?_eq_none.mpr before, 
        List.find?_cons_of_pos (p := fun x : Addr × ω => decide (x.2 = pObject)) isIt]
      rfl
    rw [first] at found
    simp only [CLinearList.removeObject, found, Option.bind_eq_bind, Option.bind_some,
      Option.map_some, removed]
  · have absent : ∀ x ∈ l, ¬ decide (x.2 = pObject) = true :=
      fun x mem is => present ⟨x, mem, is⟩
    rw [List.eraseP_of_forall_not absent]
    rw [List.find?_eq_none.mpr absent] at found
    refine ⟨s, ?_, repr, rfl⟩
    simp only [CLinearList.removeObject, found, Option.bind_eq_bind, Option.bind_some]
    rfl

/-! ## Inserting -/

theorem addBefore_heap {p new : Addr} {e : LinearListEntry ω} (here : s.heap p = some e)
    (free : s.heap new = none) (pObject : ω) :
    ∃ heap', s.addBefore p pObject (some new) = some { s with
        heap := heap'
        pFirst := if s.pFirst = some p then some new else s.pFirst
        iSize := s.iSize + 1
        allocated := s.allocated + 1 } ∧
      heap' new = some ⟨some p, e.pPrev, pObject⟩ ∧
      (∀ b, b ≠ new → (heap' b).map LinearListEntry.pNext =
        (s.heap b).map LinearListEntry.pNext) ∧
      (∀ b, b ≠ new → (heap' b).map LinearListEntry.pPrev =
        if p = b then some (some new) else (s.heap b).map LinearListEntry.pPrev) ∧
      ∀ b, b ≠ new → (heap' b).map LinearListEntry.pObject =
        (s.heap b).map LinearListEntry.pObject := by
  have ne : p ≠ new := by
    rintro rfl
    exact absurd (here.symm.trans free) (by simp)
  refine ⟨Function.update (Function.update s.heap new (some ⟨some p, e.pPrev, pObject⟩)) p
    (some { e with pPrev := some new }), ?_, ?_, ?_, ?_, ?_⟩
  · simp only [CLinearList.addBefore, here, setPrev, Function.update_of_ne ne]
    rfl
  · rw [Function.update_of_ne ne.symm, Function.update_self]
  all_goals
    intro b apart
    by_cases eq : p = b
    · subst eq
      simp [here]
    · simp [Function.update_of_ne (Ne.symm eq), Function.update_of_ne apart, eq]

theorem addAfter_heap {p new : Addr} {e : LinearListEntry ω} (here : s.heap p = some e)
    (free : s.heap new = none) (pObject : ω) :
    ∃ heap', s.addAfter p pObject (some new) = some { s with
        heap := heap'
        pLast := if s.pLast = some p then some new else s.pLast
        iSize := s.iSize + 1
        allocated := s.allocated + 1 } ∧
      heap' new = some ⟨e.pNext, some p, pObject⟩ ∧
      (∀ b, b ≠ new → (heap' b).map LinearListEntry.pNext =
        if p = b then some (some new) else (s.heap b).map LinearListEntry.pNext) ∧
      (∀ b, b ≠ new → (heap' b).map LinearListEntry.pPrev =
        (s.heap b).map LinearListEntry.pPrev) ∧
      ∀ b, b ≠ new → (heap' b).map LinearListEntry.pObject =
        (s.heap b).map LinearListEntry.pObject := by
  have ne : p ≠ new := by
    rintro rfl
    exact absurd (here.symm.trans free) (by simp)
  refine ⟨Function.update (Function.update s.heap new (some ⟨e.pNext, some p, pObject⟩)) p
    (some { e with pNext := some new }), ?_, ?_, ?_, ?_, ?_⟩
  · simp only [CLinearList.addAfter, here, setNext, Function.update_of_ne ne]
    rfl
  · rw [Function.update_of_ne ne.symm, Function.update_self]
  all_goals
    intro b apart
    by_cases eq : p = b
    · subst eq
      simp [here]
    · simp [Function.update_of_ne (Ne.symm eq), Function.update_of_ne apart, eq]

theorem add0_spec (s : CLinearList ω) (new : Addr) (pObject : ω) :
    ∃ s', s.add0 pObject (some new) = some s' ∧ Represents s' [(new, pObject)] ∧
      s'.allocated = s.allocated + 1 := by
  have repr' : Represents (⟨1, some new, some new,
      Function.update s.heap new (some ⟨none, none, pObject⟩), s.allocated + 1⟩)
      [(new, pObject)] := by
    refine ⟨⟨rfl, _, Function.update_self .., rfl⟩, ⟨rfl, _, Function.update_self .., rfl⟩, ?_, rfl⟩
    intro x mem
    obtain rfl := List.mem_singleton.mp mem
    simp
  exact ⟨_, rfl, repr', rfl⟩

theorem addBefore_spec {x : Addr × ω} (repr : Represents s (x :: l)) {new : Addr}
    (free : s.heap new = none) (pObject : ω) :
    ∃ s', s.addBefore x.1 pObject (some new) = some s' ∧
      Represents s' ((new, pObject) :: x :: l) ∧ s'.allocated = s.allocated + 1 := by
  have repr₀ : Represents s ([] ++ x :: l) := repr
  obtain ⟨e, here, -, -, prev⟩ := repr₀.entry
  obtain ⟨heap', added, atNew, nexts, prevs, objects⟩ := addBefore_heap here free pObject
  have off := repr.fresh free
  have apart : ∀ b ∈ (x :: l).map Prod.fst, b ≠ new := fun b mem eq => off (eq ▸ mem)
  refine ⟨_, added, ⟨?_, ?_, ?_, ?_⟩, rfl⟩
  · have first : s.pFirst = some x.1 := repr.first
    simp only [first, if_true]
    refine Chain.insert [] _ repr.forward ?_ fun b mem => ?_
    · simp [atNew]
    · simp [nexts b (apart b mem)]
  · have backward := repr.backward
    simp only [List.map_cons, List.reverse_cons] at backward ⊢
    have inserted := Chain.insert ((l.map Prod.fst).reverse ++ [x.1]) [] (a := new)
      (by simpa using backward) (show (heap' new).map _ = _ by simp [atNew, prev]) (fun b mem => by
        have mem' : b ∈ (x :: l).map Prod.fst := by
          rw [List.append_nil, ← List.reverse_cons] at mem
          exact List.mem_reverse.mp mem
        rw [prevs b (apart b mem'), List.getLast?_concat]
        simp only [Option.some.injEq])
    simpa using inserted
  · intro y mem
    rcases List.mem_cons.mp mem with rfl | mem
    · simp [atNew]
    · simp only [objects y.1 (apart y.1 (List.mem_map_of_mem mem)), repr.objects y mem]
  · have size := repr.size
    simp only [List.length_cons, Nat.cast_add, Nat.cast_one] at size ⊢
    rw [size]

theorem addAfter_spec {x : Addr × ω} (repr : Represents s (l ++ [x])) {new : Addr}
    (free : s.heap new = none) (pObject : ω) :
    ∃ s', s.addAfter x.1 pObject (some new) = some s' ∧
      Represents s' (l ++ [x, (new, pObject)]) ∧ s'.allocated = s.allocated + 1 := by
  have repr₀ : Represents s (l ++ x :: []) := repr
  obtain ⟨e, here, -, next, -⟩ := repr₀.entry
  obtain ⟨heap', added, atNew, nexts, prevs, objects⟩ := addAfter_heap here free pObject
  have off := repr.fresh free
  have apart : ∀ b ∈ (l ++ [x]).map Prod.fst, b ≠ new := fun b mem eq => off (eq ▸ mem)
  refine ⟨_, added, ⟨?_, ?_, ?_, ?_⟩, rfl⟩
  · have forward := repr.forward
    have inserted := Chain.insert ((l ++ [x]).map Prod.fst) [] (a := new)
      (by simpa using forward) (show (heap' new).map _ = _ by simp [atNew, next]) (fun b mem => by
        rw [List.append_nil] at mem
        rw [nexts b (apart b mem), List.map_append, List.map_singleton, List.getLast?_concat]
        simp only [Option.some.injEq])
    simpa using inserted
  · have last : s.pLast = some x.1 := by rw [repr.last]; simp
    have backward := repr.backward
    simp only [last, if_true]
    have inserted := Chain.insert [] _ (a := new) backward
      (show (heap' new).map _ = _ by simp [atNew]) (fun b mem => by
        simp [prevs b (apart b (List.mem_reverse.mp mem))])
    simpa using inserted
  · intro y mem
    have mem' : y ∈ (l ++ [x]) ++ [(new, pObject)] := by simpa using mem
    rcases List.mem_append.mp mem' with mem | isNew
    · simp only [objects y.1 (apart y.1 (List.mem_map_of_mem mem)), repr.objects y mem]
    · obtain rfl := List.mem_singleton.mp isNew
      simp [atNew]
  · have size := repr.size
    simp only [List.length_append, List.length_cons, List.length_nil, Nat.cast_add,
      Nat.cast_one] at size ⊢
    rw [size]
    ring

/-! ## Where a link is left out -/

theorem insertBefore_split {x : Addr × ω} (off : x.1 ∉ l₁.map Prod.fst) (y : Addr × ω) :
    insertBefore x.1 y (l₁ ++ x :: l₂) = l₁ ++ y :: x :: l₂ := by
  induction l₁ with
  | nil => simp [insertBefore]
  | cons z l₁ ih =>
    rw [List.map_cons, List.mem_cons, not_or] at off
    rw [List.cons_append, insertBefore, if_neg (Ne.symm off.1), ih off.2]
    rfl

theorem insertAfter_split {x : Addr × ω} (off : x.1 ∉ l₁.map Prod.fst) (y : Addr × ω) :
    insertAfter x.1 y (l₁ ++ x :: l₂) = l₁ ++ x :: y :: l₂ := by
  induction l₁ with
  | nil => simp [insertAfter]
  | cons z l₁ ih =>
    rw [List.map_cons, List.mem_cons, not_or] at off
    rw [List.cons_append, insertAfter, if_neg (Ne.symm off.1), ih off.2]
    rfl

/-- An entry of the list with what stands before and behind it. -/
theorem Represents.split (repr : Represents s l) {p : Addr} (mem : p ∈ l.map Prod.fst) :
    ∃ l₁ x l₂, l = l₁ ++ x :: l₂ ∧ x.1 = p ∧ x.1 ∉ l₁.map Prod.fst := by
  obtain ⟨x, at_x, rfl⟩ := List.mem_map.mp mem
  obtain ⟨l₁, l₂, rfl⟩ := List.append_of_mem at_x
  refine ⟨l₁, x, l₂, rfl, rfl, ?_⟩
  have nodup := repr.nodup
  rw [List.map_append, List.map_cons] at nodup
  exact fun before => (List.nodup_append.mp nodup).2.2 x.1 before x.1 (List.mem_cons_self ..) rfl

/-- The walk from the front does not see the new entry. -/
theorem addBefore_breaks {x : Addr × ω} (repr : Represents s (l₁ ++ x :: l₂)) (cons : l₁ ≠ [])
    {new : Addr} (free : s.heap new = none) {pObject : ω}
    (added : s.addBefore x.1 pObject (some new) = some s') :
    ¬ Represents s' (l₁ ++ (new, pObject) :: x :: l₂) := by
  intro repr'
  obtain ⟨e, here, -⟩ := repr.entry
  obtain ⟨heap', added', -, nexts, -⟩ := addBefore_heap here free pObject
  obtain rfl := Option.some.inj (added.symm.trans added')
  have forward := repr.forward
  have forward' := repr'.forward
  have apart : ∀ b ∈ (l₁ ++ x :: l₂).map Prod.fst, b ≠ new :=
    fun b mem eq => repr.fresh free (eq ▸ mem)
  have old := forward.congr fun b mem => nexts b (apart b mem)
  have headNe : s.pFirst ≠ some x.1 := by
    rw [List.map_append, List.map_cons] at forward
    exact forward.head_ne (fun eq => cons (List.map_eq_nil_iff.mp eq))
  simp only [if_neg headNe] at forward'
  have lengths := congrArg List.length (old.unique forward')
  simp only [List.length_map, List.length_append, List.length_cons] at lengths
  omega

/-- The walk from the end does not see the new entry. -/
theorem addAfter_breaks {x : Addr × ω} (repr : Represents s (l₁ ++ x :: l₂)) (cons : l₂ ≠ [])
    {new : Addr} (free : s.heap new = none) {pObject : ω}
    (added : s.addAfter x.1 pObject (some new) = some s') :
    ¬ Represents s' (l₁ ++ x :: (new, pObject) :: l₂) := by
  intro repr'
  obtain ⟨e, here, -⟩ := repr.entry
  obtain ⟨heap', added', -, -, prevs, -⟩ := addAfter_heap here free pObject
  obtain rfl := Option.some.inj (added.symm.trans added')
  have backward := repr.backward
  have backward' := repr'.backward
  have apart : ∀ b ∈ (l₁ ++ x :: l₂).map Prod.fst, b ≠ new :=
    fun b mem eq => repr.fresh free (eq ▸ mem)
  have old := backward.congr fun b mem => prevs b (apart b (List.mem_reverse.mp mem))
  have headNe : s.pLast ≠ some x.1 := by
    simp only [List.map_append, List.map_cons, List.reverse_append, List.reverse_cons,
      List.append_assoc, List.singleton_append] at backward
    exact backward.head_ne (fun eq => cons (by simpa using eq))
  simp only [if_neg headNe] at backward'
  have lengths := congrArg List.length (old.unique backward')
  simp only [List.length_reverse, List.length_map, List.length_append, List.length_cons] at lengths
  omega

/-! ## Runs -/

/-- `malloc` gives memory no entry lives in. -/
def Fresh (s : CLinearList ω) (mem : Option Addr) : Prop := ∀ a, mem = some a → s.heap a = none

/-- What a caller may ask: the entries are current ones. -/
def Offered (s : CLinearList ω) (l : Entries ω) : Op ω → Prop
  | .addFirst _ mem | .addLast _ mem => Fresh s mem
  | .addBefore pLLE _ mem | .addAfter pLLE _ mem => pLLE ∈ l.map Prod.fst ∧ Fresh s mem
  | .removeElement pLLE => pLLE ∈ l.map Prod.fst
  | .removeObject _ | .clear => True

/-- An entry before another one becomes the first, after another one the last, and only an
empty list is cleared. -/
def StepFits (s : CLinearList ω) : Op ω → Prop
  | .addBefore pLLE _ (some _) => s.pFirst = some pLLE
  | .addAfter pLLE _ (some _) => s.pLast = some pLLE
  | .clear => s.pFirst = none
  | _ => True

theorem addFirst_spec (repr : Represents s l) {new : Addr} (free : s.heap new = none)
    (pObject : ω) : ∃ s', s.addFirst pObject (some new) = some s' ∧
      Represents s' ((new, pObject) :: l) ∧ s'.allocated = s.allocated + 1 := by
  have first := repr.first
  cases l with
  | nil =>
    rw [CLinearList.addFirst, show s.pFirst = none from first]
    exact add0_spec s new pObject
  | cons x l =>
    rw [CLinearList.addFirst, show s.pFirst = some x.1 from first]
    exact addBefore_spec repr free pObject

theorem addLast_spec (repr : Represents s l) {new : Addr} (free : s.heap new = none)
    (pObject : ω) : ∃ s', s.addLast pObject (some new) = some s' ∧
      Represents s' (l ++ [(new, pObject)]) ∧ s'.allocated = s.allocated + 1 := by
  have last := repr.last
  rcases List.eq_nil_or_concat l with rfl | ⟨l, x, rfl⟩
  · rw [CLinearList.addLast, show s.pLast = none from last]
    exact add0_spec s new pObject
  · rw [List.concat_eq_append] at repr last ⊢
    rw [List.map_append, List.map_singleton, List.getLast?_concat] at last
    rw [CLinearList.addLast, last, List.append_assoc]
    exact addAfter_spec repr free pObject

/-- The list is right, and `malloc` was asked for all its entries. -/
def Holds (s : CLinearList ω) (l : Entries ω) : Prop :=
  Represents s l ∧ l.length ≤ s.allocated

section Call

variable [DecidableEq ω] {op : Op ω}

theorem step_holds (holds : Holds s l) (offered : Offered s l op) (fits : StepFits s op) :
    ∃ s', step s op = some s' ∧ Holds s' (expected l op) := by
  obtain ⟨repr, enough⟩ := holds
  cases op with
  | addFirst pObject mem =>
    cases mem with
    | none =>
      refine ⟨s, ?_, repr, enough⟩
      simp only [step, CLinearList.addFirst]
      cases s.pFirst <;> rfl
    | some new =>
      obtain ⟨s', added, repr', more⟩ := addFirst_spec repr (offered new rfl) pObject
      exact ⟨s', added, repr', by rw [more]; simpa [expected] using enough⟩
  | addLast pObject mem =>
    cases mem with
    | none =>
      refine ⟨s, ?_, repr, enough⟩
      simp only [step, CLinearList.addLast]
      cases s.pLast <;> rfl
    | some new =>
      obtain ⟨s', added, repr', more⟩ := addLast_spec repr (offered new rfl) pObject
      exact ⟨s', added, repr', by rw [more]; simpa [expected] using enough⟩
  | addBefore pLLE pObject mem =>
    cases mem with
    | none => exact ⟨s, rfl, repr, enough⟩
    | some new =>
      have first : some pLLE = (l.map Prod.fst).head? := Eq.trans (Eq.symm fits) repr.first
      cases l with
      | nil => cases first
      | cons x l =>
        obtain rfl : pLLE = x.1 := by simpa using first
        obtain ⟨s', added, repr', more⟩ := addBefore_spec repr (offered.2 new rfl) pObject
        refine ⟨s', added, ?_⟩
        have at_front : expected (x :: l) (.addBefore x.1 pObject (some new)) =
            (new, pObject) :: x :: l := by simp [expected, insertBefore]
        rw [at_front]
        exact ⟨repr', by rw [more]; simpa using enough⟩
  | addAfter pLLE pObject mem =>
    cases mem with
    | none => exact ⟨s, rfl, repr, enough⟩
    | some new =>
      have last : some pLLE = (l.map Prod.fst).getLast? := Eq.trans (Eq.symm fits) repr.last
      rcases List.eq_nil_or_concat l with rfl | ⟨l, x, rfl⟩
      · cases last
      · rw [List.concat_eq_append] at *
        obtain rfl : pLLE = x.1 := by simpa using last
        obtain ⟨s', added, repr', more⟩ := addAfter_spec repr (offered.2 new rfl) pObject
        refine ⟨s', added, ?_⟩
        have off : x.1 ∉ l.map Prod.fst := by
          have nodup := repr.nodup
          rw [List.map_append, List.map_singleton] at nodup
          exact fun mem => (List.nodup_append.mp nodup).2.2 x.1 mem x.1 (List.mem_cons_self ..) rfl
        have at_end : expected (l ++ [x]) (.addAfter x.1 pObject (some new)) =
            l ++ [x, (new, pObject)] := insertAfter_split off _
        rw [at_end]
        exact ⟨repr', by rw [more]; simpa using enough⟩
  | removeElement pLLE =>
    obtain ⟨l₁, x, l₂, rfl, rfl, off⟩ := repr.split offered
    obtain ⟨s', removed, repr', same⟩ := removeElement_spec repr
    refine ⟨s', removed, ?_⟩
    have erased : expected (l₁ ++ x :: l₂) (.removeElement x.1) = l₁ ++ l₂ := by
      have before : ∀ y ∈ l₁, ¬ decide (y.1 = x.1) = true := by
        intro y mem eq
        exact off (of_decide_eq_true eq ▸ List.mem_map_of_mem mem)
      rw [expected, List.eraseP_append_right _ before, List.eraseP_cons_of_pos (by simp)]
    rw [erased]
    refine ⟨repr', ?_⟩
    rw [same]
    simp only [List.length_append, List.length_cons] at enough ⊢
    omega
  | removeObject pObject =>
    obtain ⟨s', removed, repr', same⟩ := removeObject_spec repr enough pObject
    refine ⟨s', removed, repr', ?_⟩
    rw [same]
    exact Nat.le_trans (List.eraseP_sublist.length_le) enough
  | clear =>
    have empty : l = [] := by
      have first := repr.first
      rw [show s.pFirst = none from fits] at first
      exact List.map_eq_nil_iff.mp (List.head?_eq_none_iff.mp first.symm)
    subst empty
    have last : s.pLast = none := repr.last
    have cleared : step s .clear = some s := by
      obtain ⟨iSize, pFirst, pLast, heap, allocated⟩ := s
      obtain rfl : pFirst = none := fits
      obtain rfl : pLast = none := last
      cases allocated <;> rfl
    exact ⟨s, cleared, repr, enough⟩

/-- A call that does not fit leaves a list that does not agree with its entries. -/
theorem step_breaks (repr : Represents s l) (offered : Offered s l op) (fits : ¬ StepFits s op)
    (stepped : step s op = some s') : ¬ Represents s' (expected l op) := by
  cases op with
  | addBefore pLLE pObject mem =>
    cases mem with
    | none => exact absurd trivial fits
    | some new =>
      obtain ⟨l₁, x, l₂, rfl, rfl, off⟩ := repr.split offered.1
      have cons : l₁ ≠ [] := by
        rintro rfl
        exact fits repr.first
      rw [expected, insertBefore_split off]
      exact addBefore_breaks repr cons (offered.2 new rfl) stepped
  | addAfter pLLE pObject mem =>
    cases mem with
    | none => exact absurd trivial fits
    | some new =>
      obtain ⟨l₁, x, l₂, rfl, rfl, off⟩ := repr.split offered.1
      have cons : l₂ ≠ [] := by
        rintro rfl
        have last : s.pLast = some x.1 := by rw [repr.last]; simp
        exact fits last
      rw [expected, insertAfter_split off]
      exact addAfter_breaks repr cons (offered.2 new rfl) stepped
  | clear =>
    intro repr'
    have kept : s'.iSize = s.iSize := by
      obtain ⟨heap, -, done⟩ := Option.bind_eq_some_iff.mp stepped
      rw [← Option.some.inj done]
    have size := repr.size
    rw [← kept, repr'.size] at size
    have empty : l = [] := List.eq_nil_of_length_eq_zero (by simpa [expected] using size.symm)
    subst empty
    exact fits repr.first
  | addFirst _ _ => exact absurd trivial fits
  | addLast _ _ => exact absurd trivial fits
  | removeElement _ => exact absurd trivial fits
  | removeObject _ => exact absurd trivial fits

/-- The callers pass current entries at every call of a run. -/
def RunOffered : CLinearList ω → Entries ω → List (Op ω) → Prop
  | _, _, [] => True
  | s, l, op :: ops =>
    Offered s l op ∧ ∀ s', step s op = some s' → RunOffered s' (expected l op) ops

/-- The list is right before the run and after each of its calls. -/
def RunRepresents : CLinearList ω → Entries ω → List (Op ω) → Prop
  | s, l, [] => Represents s l
  | s, l, op :: ops =>
    Represents s l ∧ ∃ s', step s op = some s' ∧ RunRepresents s' (expected l op) ops

def RunFits : CLinearList ω → List (Op ω) → Prop
  | _, [] => True
  | s, op :: ops => StepFits s op ∧ ∀ s', step s op = some s' → RunFits s' ops

omit [DecidableEq ω] in
theorem holds_new : Holds (CLinearList.new : CLinearList ω) [] := by
  refine ⟨⟨rfl, rfl, ?_, rfl⟩, Nat.le_refl 0⟩
  intro x mem
  cases mem

theorem RunRepresents.represents {ops : List (Op ω)} (run : RunRepresents s l ops) :
    Represents s l := by
  cases ops with
  | nil => exact run
  | cons op ops => exact run.1

theorem runRepresents_iff_of_holds {ops : List (Op ω)} (holds : Holds s l)
    (offered : RunOffered s l ops) : RunRepresents s l ops ↔ RunFits s ops := by
  induction ops generalizing s l with
  | nil => exact ⟨fun _ => trivial, fun _ => holds.1⟩
  | cons op ops ih =>
    obtain ⟨here, later⟩ := offered
    constructor
    · rintro ⟨-, s', stepped, rest⟩
      have fits : StepFits s op := by
        by_contra unfit
        exact step_breaks holds.1 here unfit stepped rest.represents
      refine ⟨fits, fun s'' stepped' => ?_⟩
      obtain rfl : s' = s'' := Option.some.inj (stepped.symm.trans stepped')
      obtain ⟨t, stepped'', holds'⟩ := step_holds holds here fits
      obtain rfl : s' = t := Option.some.inj (stepped.symm.trans stepped'')
      exact (ih holds' (later s' stepped)).mp rest
    · rintro ⟨fits, rest⟩
      obtain ⟨s', stepped, holds'⟩ := step_holds holds here fits
      exact ⟨holds.1, s', stepped, (ih holds' (later s' stepped)).mpr (rest s' stepped)⟩

end Call

/-- A list is right after every call of a run exactly when every call of it fits. -/
theorem runRepresents_iff [DecidableEq ω] (ops : List (Op ω))
    (offered : RunOffered CLinearList.new [] ops) :
    RunRepresents CLinearList.new [] ops ↔ RunFits CLinearList.new ops :=
  runRepresents_iff_of_holds holds_new offered

/-- Two entries at the ends, the first of them removed by its object. -/
def endsOnly : List (Op ℕ) :=
  [.addLast 7 (some 1), .addFirst 8 (some 2), .removeObject 8]

theorem endsOnly_offered : RunOffered CLinearList.new [] endsOnly := by
  refine ⟨?_, ?_⟩
  · rintro a ⟨⟩
    rfl
  · rintro s₁ ⟨⟩
    refine ⟨?_, ?_⟩
    · rintro a ⟨⟩
      rfl
    · rintro s₂ ⟨⟩
      exact ⟨trivial, fun _ _ => trivial⟩

theorem runRepresents_iff_endsOnly : RunRepresents CLinearList.new [] endsOnly ↔
    RunFits CLinearList.new endsOnly :=
  runRepresents_iff endsOnly endsOnly_offered

/-- A third entry between two others is not met on the way back. -/
def between : List (Op ℕ) :=
  [.addLast 7 (some 1), .addLast 8 (some 2), .addAfter 1 9 (some 3)]

theorem between_offered : RunOffered CLinearList.new [] between := by
  refine ⟨?_, ?_⟩
  · rintro a ⟨⟩
    rfl
  · rintro s₁ ⟨⟩
    refine ⟨?_, ?_⟩
    · rintro a ⟨⟩
      rfl
    · rintro s₂ ⟨⟩
      refine ⟨⟨List.mem_cons_self .., ?_⟩, fun _ _ => trivial⟩
      rintro a ⟨⟩
      rfl

theorem between_not_represents : ¬ ∀ ops : List (Op ℕ), RunOffered CLinearList.new [] ops →
    RunRepresents CLinearList.new [] ops := by
  intro all
  obtain ⟨-, s₁, stepped₁, -, s₂, stepped₂, -, s₃, stepped₃, repr⟩ :=
    all between between_offered
  cases stepped₁
  cases stepped₂
  cases stepped₃
  obtain ⟨-, e, here, back⟩ := repr.backward
  cases here
  exact absurd back.1 (by decide)

end Odin32.LinearList
