import Mathlib.Data.Nat.Fib.Basic
import Mathlib.Order.Lattice
import Mathlib.Data.List.Basic
import Mathlib.Tactic.Common

/-! # Ranked search trees and their zippers

Binary trees that store a rank in every node, read through the list of their
entries from left to right. A list of frames is the path from a position up to
the root; plugging a tree back into a path only places its entries between two
fixed lists, so order and membership of a whole tree are list facts. Nothing here
depends on how ranks are maintained. -/

set_option autoImplicit false

namespace Odin32.RankedTree

inductive Tree (κ ν : Type) where
  | nil : Tree κ ν
  | node (key : κ) (val : ν) (rank : ℕ) (left right : Tree κ ν) : Tree κ ν
deriving DecidableEq, Repr

variable {κ ν : Type}

def entries : Tree κ ν → List (κ × ν)
  | .nil => []
  | .node k v _ l r => entries l ++ (k, v) :: entries r

def keys (t : Tree κ ν) : List κ := (entries t).map Prod.fst

def height : Tree κ ν → ℕ
  | .nil => 0
  | .node _ _ _ l r => max (height l) (height r) + 1

def rankOf : Tree κ ν → ℕ
  | .nil => 0
  | .node _ _ h _ _ => h

def Ranked : Tree κ ν → Prop
  | .nil => True
  | .node _ _ h l r => h = max (height l) (height r) + 1 ∧ Ranked l ∧ Ranked r

def Balanced : Tree κ ν → Prop
  | .nil => True
  | .node _ _ _ l r =>
    height l ≤ height r + 1 ∧ height r ≤ height l + 1 ∧ Balanced l ∧ Balanced r

def Ordered [LT κ] (t : Tree κ ν) : Prop := (keys t).Pairwise (· < ·)

@[simp] theorem entries_nil : entries (.nil : Tree κ ν) = [] := rfl

@[simp] theorem entries_node (k : κ) (v : ν) (h : ℕ) (l r : Tree κ ν) :
    entries (.node k v h l r) = entries l ++ (k, v) :: entries r := rfl

@[simp] theorem height_nil : height (.nil : Tree κ ν) = 0 := rfl

@[simp] theorem height_node (k : κ) (v : ν) (h : ℕ) (l r : Tree κ ν) :
    height (.node k v h l r) = max (height l) (height r) + 1 := rfl

@[simp] theorem rankOf_node (k : κ) (v : ν) (h : ℕ) (l r : Tree κ ν) :
    rankOf (.node k v h l r) = h := rfl

theorem rankOf_eq_height {t : Tree κ ν} (h : Ranked t) : rankOf t = height t := by
  cases t with
  | nil => rfl
  | node k v n l r => exact h.1

theorem height_eq_zero {t : Tree κ ν} : height t = 0 ↔ t = .nil := by
  cases t <;> simp

section Order

variable [LinearOrder κ]

theorem ordered_node {k : κ} {v : ν} {h : ℕ} {l r : Tree κ ν} :
    Ordered (.node k v h l r) ↔
      Ordered l ∧ Ordered r ∧ (∀ a ∈ keys l, a < k) ∧ (∀ a ∈ keys r, k < a) := by
  simp only [Ordered, keys, entries_node, List.map_append, List.map_cons, List.pairwise_append,
    List.pairwise_cons, List.mem_cons, forall_eq_or_imp]
  constructor
  · rintro ⟨hl, ⟨hkr, hr⟩, hlr⟩
    exact ⟨hl, hr, fun a ha => (hlr a ha).1, hkr⟩
  · rintro ⟨hl, hr, hlk, hkr⟩
    exact ⟨hl, ⟨hkr, hr⟩, fun a ha => ⟨hlk a ha, fun b hb => lt_trans (hlk a ha) (hkr b hb)⟩⟩

theorem ordered_sublist {t t' : Tree κ ν} (ho : Ordered t)
    (hsub : (entries t').Sublist (entries t)) : Ordered t' :=
  ho.sublist (hsub.map Prod.fst)

theorem keys_nodup {t : Tree κ ν} (ho : Ordered t) : (keys t).Nodup :=
  ho.imp fun h => ne_of_lt h

theorem val_unique {t : Tree κ ν} (ho : Ordered t) {k : κ} {a b : ν}
    (ha : (k, a) ∈ entries t) (hb : (k, b) ∈ entries t) : a = b := by
  have heq := List.inj_on_of_nodup_map (keys_nodup ho) ha hb rfl
  exact (Prod.mk.inj heq).2

end Order

/-! ## Paths -/

inductive Side where
  | left | right
deriving DecidableEq, Repr

/-- The node above a position: the side the position lies on, the node's own
data and the subtree on its other side. -/
structure Frame (κ ν : Type) where
  side : Side
  key : κ
  val : ν
  rank : ℕ
  other : Tree κ ν
deriving DecidableEq, Repr

namespace Frame

def fill (f : Frame κ ν) (t : Tree κ ν) : Tree κ ν :=
  match f.side with
  | .left => .node f.key f.val f.rank t f.other
  | .right => .node f.key f.val f.rank f.other t

end Frame

def plug : List (Frame κ ν) → Tree κ ν → Tree κ ν
  | [], t => t
  | f :: fs, t => plug fs (f.fill t)

def before : List (Frame κ ν) → List (κ × ν)
  | [] => []
  | f :: fs => before fs ++ match f.side with
    | .left => []
    | .right => entries f.other ++ [(f.key, f.val)]

def after : List (Frame κ ν) → List (κ × ν)
  | [] => []
  | f :: fs => (match f.side with
    | .left => (f.key, f.val) :: entries f.other
    | .right => []) ++ after fs

theorem entries_plug (fs : List (Frame κ ν)) (t : Tree κ ν) :
    entries (plug fs t) = before fs ++ entries t ++ after fs := by
  induction fs generalizing t with
  | nil => simp [plug, before, after]
  | cons f fs ih =>
    obtain ⟨side, k, v, h, o⟩ := f
    cases side <;> simp [plug, before, after, Frame.fill, ih]

theorem before_append (fs gs : List (Frame κ ν)) :
    before (fs ++ gs) = before gs ++ before fs := by
  induction fs with
  | nil => simp [before]
  | cons f fs ih => simp [before, ih]

theorem after_append (fs gs : List (Frame κ ν)) :
    after (fs ++ gs) = after fs ++ after gs := by
  induction fs with
  | nil => simp [after]
  | cons f fs ih => simp [after, ih]

theorem plug_append (fs gs : List (Frame κ ν)) (t : Tree κ ν) :
    plug (fs ++ gs) t = plug gs (plug fs t) := by
  induction fs generalizing t with
  | nil => rfl
  | cons f fs ih => exact ih (f.fill t)

end Odin32.RankedTree
