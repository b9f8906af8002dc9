import Mathlib.Logic.Relation
import Mathlib.Data.List.Nodup
import Mathlib.Tactic.Common

/-! # Ordered forests

Every place has a list of children and at most one parent, and no place is below itself. -/

set_option autoImplicit false

namespace Odin32.OrderedForest

structure Forest (α : Type) where
  children : α → List α
  height : α → ℕ
  nodup : ∀ a, (children a).Nodup
  height_lt : ∀ {a c}, c ∈ children a → height c < height a
  parent_unique : ∀ {a b c}, c ∈ children a → c ∈ children b → a = b

/-- What comes behind an element. -/
def following {α : Type} [DecidableEq α] (a : α) : List α → List α
  | [] => []
  | b :: l => if b = a then l else following a l

theorem following_append {α : Type} [DecidableEq α] {a : α} {before : List α} (away : a ∉ before)
    (rest : List α) : following a (before ++ a :: rest) = rest := by
  induction before with
  | nil => exact if_pos rfl
  | cons b before ih =>
    have other : b ≠ a := fun eq => away (List.mem_cons.mpr (Or.inl eq.symm))
    rw [List.cons_append, following, if_neg other]
    exact ih fun mem => away (List.mem_cons_of_mem b mem)

variable {α : Type} (forest : Forest α)

namespace Forest

def Child (a c : α) : Prop := c ∈ forest.children a

/-- A place or one below it. -/
def Under (a b : α) : Prop := Relation.ReflTransGen forest.Child a b

/-- A place below another one. -/
def Below (a b : α) : Prop := ∃ c ∈ forest.children a, forest.Under c b

variable {forest} {a b c d : α}

theorem under_refl (a : α) : forest.Under a a := Relation.ReflTransGen.refl

theorem under_child (child : c ∈ forest.children a) (under : forest.Under c b) :
    forest.Under a b := Relation.ReflTransGen.head child under

theorem Below.under (below : forest.Below a b) : forest.Under a b := by
  obtain ⟨c, child, under⟩ := below
  exact under_child child under

theorem under_iff : forest.Under a b ↔ b = a ∨ forest.Below a b := by
  constructor
  · intro under
    rcases Relation.ReflTransGen.cases_head under with eq | ⟨c, child, under⟩
    · exact Or.inl eq.symm
    · exact Or.inr ⟨c, child, under⟩
  · rintro (rfl | below)
    · exact under_refl _
    · exact below.under

theorem Under.trans (first : forest.Under a b) (second : forest.Under b c) : forest.Under a c :=
  Relation.ReflTransGen.trans first second

theorem Below.trans_under (below : forest.Below a b) (under : forest.Under b c) :
    forest.Below a c := by
  obtain ⟨d, child, first⟩ := below
  exact ⟨d, child, first.trans under⟩

theorem below_child (child : c ∈ forest.children a) : forest.Below a c := ⟨c, child, under_refl c⟩

theorem Under.below_child (under : forest.Under a b) (child : c ∈ forest.children b) :
    forest.Below a c := by
  rcases under_iff.mp under with rfl | below
  · exact Forest.below_child child
  · exact below.trans_under (under_child child (under_refl c))

theorem Under.height_le (under : forest.Under a b) : forest.height b ≤ forest.height a := by
  induction under with
  | refl => exact Nat.le_refl _
  | tail _ child ih => exact Nat.le_trans (Nat.le_of_lt (forest.height_lt child)) ih

theorem Below.height_lt (below : forest.Below a b) : forest.height b < forest.height a := by
  obtain ⟨c, child, under⟩ := below
  exact Nat.lt_of_le_of_lt under.height_le (forest.height_lt child)

theorem not_below_self : ¬ forest.Below a a := fun below => Nat.lt_irrefl _ below.height_lt

/-- The places over a place are in one line. -/
theorem Under.linear (first : forest.Under a c) (second : forest.Under b c) :
    forest.Under a b ∨ forest.Under b a := by
  induction first with
  | refl => exact Or.inr second
  | tail first child ih =>
    rcases Relation.ReflTransGen.cases_tail second with eq | ⟨d, second, child'⟩
    · exact Or.inl (eq ▸ Relation.ReflTransGen.tail first child)
    · exact ih (forest.parent_unique child child' ▸ second)

/-- The trees of two siblings have nothing in common. -/
theorem siblings_eq (child : c ∈ forest.children a) (child' : d ∈ forest.children a)
    (under : forest.Under c b) (under' : forest.Under d b) : c = d := by
  have outside : ∀ {x y : α}, x ∈ forest.children a → y ∈ forest.children a →
      forest.Under x y → x = y := by
    intro x y childX childY between
    rcases Relation.ReflTransGen.cases_tail between with eq | ⟨z, between, childY'⟩
    · exact eq.symm
    · obtain rfl := forest.parent_unique childY childY'
      exact absurd ⟨x, childX, between⟩ not_below_self
  rcases under.linear under' with between | between
  · exact outside child child' between
  · exact (outside child' child between).symm

end Forest

end Odin32.OrderedForest
