import Mathlib.Data.List.Basic
import Mathlib.Data.List.Nodup
import Mathlib.Data.List.Perm.Basic
import Mathlib.Data.List.Chain

/-! # Lists that keep an order

What stands before what in a list without repetitions, how this changes when one member is
moved down behind another, and the cycles of a relation. -/

set_option autoImplicit false

namespace Odin32.OrderedList

variable {α : Type}

/-- `u` stands somewhere before `v`. -/
def Before (l : List α) (u v : α) : Prop := List.Sublist [u, v] l

theorem Before.left_mem {l : List α} {u v : α} (before : Before l u v) : u ∈ l :=
  List.Sublist.subset before List.mem_cons_self

theorem Before.right_mem {l : List α} {u v : α} (before : Before l u v) : v ∈ l :=
  List.Sublist.subset before (List.mem_cons_of_mem _ List.mem_cons_self)

theorem before_cons {a : α} {l : List α} {u v : α} :
    Before (a :: l) u v ↔ u = a ∧ v ∈ l ∨ Before l u v := by
  unfold Before
  constructor
  · intro before
    cases before with
    | cons _ tail => exact Or.inr tail
    | cons_cons _ tail => exact Or.inl ⟨rfl, List.singleton_sublist.mp tail⟩
  · rintro (⟨rfl, inside⟩ | tail)
    · exact (List.singleton_sublist.mpr inside).cons_cons _
    · exact tail.cons _

theorem Before.ne {l : List α} (nodup : l.Nodup) {u v : α} (before : Before l u v) : u ≠ v := by
  have pair := List.Sublist.nodup before nodup
  rintro rfl
  simp at pair

theorem before_total {l : List α} {u v : α} (inside : u ∈ l) (inside' : v ∈ l) (other : u ≠ v) :
    Before l u v ∨ Before l v u := by
  induction l with
  | nil => cases inside
  | cons a l ih =>
    rw [before_cons, before_cons]
    rcases List.mem_cons.mp inside with rfl | tail <;>
      rcases List.mem_cons.mp inside' with rfl | tail'
    · exact absurd rfl other
    · exact Or.inl (Or.inl ⟨rfl, tail'⟩)
    · exact Or.inr (Or.inl ⟨rfl, tail⟩)
    · exact (ih tail tail').imp Or.inr Or.inr

theorem Before.trans {l : List α} (nodup : l.Nodup) {u v w : α} (before : Before l u v)
    (before' : Before l v w) : Before l u w := by
  induction l with
  | nil => cases before
  | cons a l ih =>
    obtain ⟨outside, tail⟩ := List.nodup_cons.mp nodup
    rw [before_cons] at before before' ⊢
    rcases before with ⟨rfl, inside⟩ | before
    · rcases before' with ⟨rfl, inside'⟩ | before'
      · exact absurd inside outside
      · exact Or.inl ⟨rfl, before'.right_mem⟩
    · rcases before' with ⟨rfl, inside'⟩ | before'
      · exact absurd before.right_mem outside
      · exact Or.inr (ih tail before before')

/-- What stands before a member is in front of it. -/
theorem Before.mem_front {front rest : List α} {u v : α} (nodup : (front ++ v :: rest).Nodup)
    (before : Before (front ++ v :: rest) u v) : u ∈ front := by
  induction front with
  | nil =>
    have outside := (List.nodup_cons.mp nodup).1
    rcases before_cons.mp before with ⟨_, inside⟩ | before
    · exact absurd inside outside
    · exact absurd before.right_mem outside
  | cons a front ih =>
    obtain ⟨_, tail⟩ := List.nodup_cons.mp nodup
    rcases before_cons.mp before with ⟨rfl, _⟩ | before
    · exact List.mem_cons_self
    · exact List.mem_cons_of_mem _ (ih tail before)

variable [DecidableEq α]

theorem Before.erase {l : List α} {u v d : α} (before : Before l u v) (left : u ≠ d)
    (right : v ≠ d) : Before (l.erase d) u v := by
  have pair : [u, v].erase d = [u, v] :=
    List.erase_of_not_mem (by simp [Ne.symm left, Ne.symm right])
  have sub := List.Sublist.erase d before
  rwa [pair] at sub

/-! ## Moving a member down -/

def insertAfter (p d : α) : List α → List α
  | [] => []
  | a :: l => if a = p then a :: d :: l else a :: insertAfter p d l

/-- The member `d` is taken out and put right behind `p`. -/
def moveAfter (p d : α) (l : List α) : List α := insertAfter p d (l.erase d)

theorem insertAfter_perm {p d : α} {l : List α} (inside : p ∈ l) :
    (insertAfter p d l).Perm (d :: l) := by
  induction l with
  | nil => cases inside
  | cons a l ih =>
    unfold insertAfter
    split
    · exact List.Perm.swap d a l
    · next other =>
      have tail := (List.mem_cons.mp inside).resolve_left (Ne.symm other)
      exact ((ih tail).cons a).trans (List.Perm.swap d a l)

theorem moveAfter_perm {p d : α} {l : List α} (inside : p ∈ l) (inside' : d ∈ l)
    (other : p ≠ d) : (moveAfter p d l).Perm l := by
  have kept : p ∈ l.erase d := (List.mem_erase_of_ne other).mpr inside
  exact (insertAfter_perm kept).trans (List.perm_cons_erase inside').symm

theorem sublist_insertAfter (p d : α) (l : List α) : l.Sublist (insertAfter p d l) := by
  induction l with
  | nil => exact List.Sublist.slnil
  | cons a l ih =>
    unfold insertAfter
    split
    · exact (List.sublist_cons_self d l).cons_cons a
    · exact ih.cons_cons a

theorem before_insertAfter_self {p d : α} {l : List α} (inside : p ∈ l) :
    Before (insertAfter p d l) p d := by
  induction l with
  | nil => cases inside
  | cons a l ih =>
    unfold insertAfter
    split
    · next same =>
      exact before_cons.mpr (Or.inl ⟨same.symm, List.mem_cons_self⟩)
    · next other =>
      exact before_cons.mpr (Or.inr (ih ((List.mem_cons.mp inside).resolve_left (Ne.symm other))))

/-- What stands before `p` stands before what is put behind `p`. -/
theorem Before.insertAfter {l : List α} (nodup : l.Nodup) {u p : α} (d : α)
    (before : Before l u p) : Before (OrderedList.insertAfter p d l) u d := by
  induction l with
  | nil => cases before
  | cons a l ih =>
    obtain ⟨outside, tail⟩ := List.nodup_cons.mp nodup
    unfold OrderedList.insertAfter
    rcases before_cons.mp before with ⟨rfl, inside⟩ | before
    · have other : u ≠ p := fun same => outside (same ▸ inside)
      rw [if_neg other]
      exact before_cons.mpr (Or.inl ⟨rfl, (before_insertAfter_self inside).right_mem⟩)
    · have other : a ≠ p := fun same => outside (same ▸ before.right_mem)
      rw [if_neg other]
      exact before_cons.mpr (Or.inr (ih tail before))

/-- Moving `d` down disturbs only what `d` itself stands before. -/
theorem Before.moveAfter {l : List α} (nodup : l.Nodup) {u v p d : α} (before : Before l u v)
    (other : u ≠ d) (behind : Before l d p) : Before (OrderedList.moveAfter p d l) u v := by
  by_cases same : v = d
  · subst same
    have passed := (before.trans nodup behind).erase other (behind.ne nodup).symm
    exact passed.insertAfter (nodup.erase v) v
  · exact List.Sublist.trans (before.erase other same) (sublist_insertAfter p d _)

theorem before_moveAfter_self {p d : α} {l : List α} (inside : p ∈ l) (other : p ≠ d) :
    Before (moveAfter p d l) p d :=
  before_insertAfter_self ((List.mem_erase_of_ne other).mpr inside)

/-! ## Cycles -/

section Cycles

omit [DecidableEq α]

/-- The members of a list are different, each is a successor of the next one, and the last
one of the first. -/
def IsCycle (r : α → α → Prop) : List α → Prop
  | [] => False
  | a :: l => (a :: l).Nodup ∧ List.IsChain (fun v u => r u v) (a :: l ++ [a])

theorem IsCycle.mono {r s : α → α → Prop} (sub : ∀ u v, r u v → s u v) {l : List α}
    (cycle : IsCycle r l) : IsCycle s l := by
  cases l with
  | nil => exact cycle
  | cons a l => exact ⟨cycle.1, cycle.2.imp fun _ _ => sub _ _⟩

/-- A relation that goes down some rank has no cycles. -/
theorem not_isCycle {r : α → α → Prop} (rank : α → ℕ) (down : ∀ u v, r u v → rank v < rank u)
    (l : List α) : ¬ IsCycle r l := by
  cases l with
  | nil => exact id
  | cons a l =>
    rintro ⟨_, chain⟩
    have up : List.IsChain (fun v u => rank v < rank u) (a :: l ++ [a]) :=
      chain.imp fun v u => down u v
    have : Trans (fun v u => rank v < rank u) (fun v u => rank v < rank u)
        (fun v u => rank v < rank u) := ⟨Nat.lt_trans⟩
    have pairs := up.pairwise
    rw [List.cons_append, List.pairwise_cons] at pairs
    exact Nat.lt_irrefl _ (pairs.1 a (by simp))

/-- A step from the end of a path back to one of its members closes a cycle. The path is
read backwards. -/
theorem isCycle_of_path {r : α → α → Prop} {d c : α} {rest : List α} (nodup : (d :: rest).Nodup)
    (path : List.IsChain (fun v u => r u v) (d :: rest)) (edge : r d c) (inside : c ∈ d :: rest) :
    ∃ l₁ l₂, d :: rest = l₁ ++ c :: l₂ ∧ IsCycle r (c :: l₁) := by
  obtain ⟨l₁, l₂, split_⟩ := List.append_of_mem inside
  refine ⟨l₁, l₂, split_, ?_, ?_⟩
  · rw [split_] at nodup
    have first : (c :: l₁).Perm (l₁ ++ [c]) := (List.perm_append_singleton c l₁).symm
    rw [first.nodup_iff]
    exact nodup.sublist (by simp)
  · cases l₁ with
    | nil =>
      obtain ⟨rfl, -⟩ := List.cons.inj split_
      exact List.IsChain.cons_cons edge (List.IsChain.singleton _)
    | cons a l₁ =>
      obtain ⟨rfl, -⟩ := List.cons.inj split_
      rw [split_] at path
      refine List.IsChain.cons_cons edge ?_
      have front : List.IsChain (fun v u => r u v) ((d :: l₁ ++ [c]) ++ l₂) := by simpa using path
      exact front.left_of_append

/-- Where every cycle has length two, a path leads nowhere back but to the member before. -/
theorem not_mem_path {r : α → α → Prop} (short : ∀ l, IsCycle r l → l.length = 2) {d p c : α}
    {upper : List α} (nodup : (d :: p :: upper).Nodup)
    (path : List.IsChain (fun v u => r u v) (d :: p :: upper)) (edge : r d c) (other : c ≠ p) :
    c ∉ d :: p :: upper := by
  intro inside
  obtain ⟨l₁, l₂, split_, cycle⟩ := isCycle_of_path nodup path edge inside
  have two := short _ cycle
  obtain ⟨a, rfl⟩ := List.length_eq_one_iff.mp (Nat.succ.inj two)
  simp only [List.singleton_append, List.cons.injEq] at split_
  exact other split_.2.1.symm

end Cycles

end Odin32.OrderedList
