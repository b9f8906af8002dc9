import Odin32.AvlTable

/-! # The free-size trees of the two heaps

Both heaps of Win32k keep their free blocks twice: in a tree sorted on the address and in a tree
sorted on the size. A node of the second tree heads the chain of the blocks of its size. A block is
known by the address of its descriptor, which in the resident heap is the header of the block. -/

set_option autoImplicit false

namespace Odin32.FreeSize
open Odin32.RankedTree Odin32.Avl Odin32.AvlOps Odin32.AvlTable

structure Memblock where
  pmb : ℕ
  uData : ℕ
  cbSize : ℕ
deriving DecidableEq, Repr

/-- The block in the tree and the blocks behind it, by `pmbNext`. -/
abbrev Chain := Memblock × List Memblock

abbrev SizeTree := Tree ℕ Chain

def chainBlocks (c : Chain) : List Memblock := c.1 :: c.2

def sizeBlocks (t : SizeTree) : List Memblock := (entries t).flatMap fun e => chainBlocks e.2

/-- The place behind the blocks with a higher descriptor. -/
def insertBelow (pmb : Memblock) : List Memblock → List Memblock
  | [] => [pmb]
  | next :: rest => if pmb.pmb < next.pmb then next :: insertBelow pmb rest else pmb :: next :: rest

def insertIntoFreeSize (pmb : Memblock) (t : SizeTree) : Option SizeTree :=
  match avlGet pmb.cbSize t with
  | none => (avlInsert t pmb.cbSize (pmb, [])).map Prod.fst
  | some (_, head, next) =>
    some (avlReplace pmb.cbSize pmb.cbSize (head, insertBelow pmb next) t)

def removeFromFreeSize (pmb : Memblock) (t : SizeTree) : Option SizeTree :=
  match avlGet pmb.cbSize t with
  | none => some t
  | some (_, head, next) =>
    if head.pmb ≠ pmb.pmb then
      some (avlReplace pmb.cbSize pmb.cbSize
        (head, next.eraseP fun other => other.pmb = pmb.pmb) t)
    else
      match next with
      | [] => (avlRemove t pmb.cbSize).map Prod.fst
      | first :: rest => some (avlReplace pmb.cbSize pmb.cbSize (first, rest) t)

/-! ## What the operations do -/

structure SizeOk (t : SizeTree) : Prop where
  avl : Avl t
  keyed : ∀ e ∈ entries t, ∀ b ∈ chainBlocks e.2, b.cbSize = e.1

theorem sizeOk_nil : SizeOk .nil := ⟨avl_nil, fun _ there => absurd there List.not_mem_nil⟩

theorem sizeBlocks_perm {t : SizeTree} {es : List (ℕ × Chain)} (same : (entries t).Perm es) :
    (sizeBlocks t).Perm (es.flatMap fun e => chainBlocks e.2) :=
  same.flatMap_right _

theorem mem_sizeBlocks {t : SizeTree} {b : Memblock} :
    b ∈ sizeBlocks t ↔ ∃ e ∈ entries t, b ∈ chainBlocks e.2 :=
  List.mem_flatMap

theorem insertBelow_perm (pmb : Memblock) (next : List Memblock) :
    (insertBelow pmb next).Perm (pmb :: next) := by
  induction next with
  | nil => exact List.Perm.refl _
  | cons first rest ih =>
    rw [insertBelow]
    split_ifs
    · exact (ih.cons first).trans (List.Perm.swap pmb first rest)
    · exact List.Perm.refl _

variable {t t' : SizeTree} {b : Memblock}

theorem replace_chain (ok : SizeOk t) {key : ℕ} {c : Chain} (there : (key, c) ∈ entries t)
    {c' : Chain} (keyed : ∀ d ∈ chainBlocks c', d.cbSize = key) :
    SizeOk (avlReplace key key c' t) ∧ ∃ rest, (sizeBlocks t).Perm (chainBlocks c ++ rest) ∧
      (sizeBlocks (avlReplace key key c' t)).Perm (chainBlocks c' ++ rest) := by
  obtain ⟨avl, es, old, new⟩ := replace_same_key ok.avl c' there
  refine ⟨⟨avl, fun e member => ?_⟩, es.flatMap fun e : ℕ × Chain => chainBlocks e.2,
    sizeBlocks_perm old, sizeBlocks_perm new⟩
  rcases List.mem_cons.1 (new.mem_iff.1 member) with rfl | other
  · exact keyed
  · exact ok.keyed e (old.mem_iff.2 (List.mem_cons_of_mem _ other))

theorem insert_spec (ok : SizeOk t) (done : insertIntoFreeSize b t = some t') :
    SizeOk t' ∧ (sizeBlocks t').Perm (b :: sizeBlocks t) := by
  unfold insertIntoFreeSize at done
  cases found : avlGet b.cbSize t with
  | none =>
    rw [found] at done
    obtain ⟨⟨t'', rc⟩, inserted, rfl⟩ := Option.map_eq_some_iff.1 done
    obtain ⟨avl, new⟩ := insert_perm ok.avl (get_none ok.avl.ordered found) inserted
    refine ⟨⟨avl, fun e member => ?_⟩, sizeBlocks_perm new⟩
    rcases List.mem_cons.1 (new.mem_iff.1 member) with rfl | other
    · intro d inside
      rw [List.mem_singleton.1 inside]
    · exact ok.keyed e other
  | some e =>
    obtain ⟨key, head, next⟩ := e
    rw [found] at done
    obtain ⟨same, there⟩ := get_some found
    obtain rfl : key = b.cbSize := same
    obtain rfl := Option.some.inj done
    have behind := insertBelow_perm b next
    obtain ⟨ok', rest, old, new⟩ := @replace_chain t ok _ _ there (head, insertBelow b next)
      (by
        intro d inside
        rcases List.mem_cons.1 inside with rfl | inside
        · exact ok.keyed _ there _ List.mem_cons_self
        · rcases List.mem_cons.1 (behind.mem_iff.1 inside) with rfl | inside
          · rfl
          · exact ok.keyed _ there _ (List.mem_cons_of_mem _ inside))
    refine ⟨ok', new.trans (List.Perm.trans ?_ (old.symm.cons b))⟩
    have swapped : (chainBlocks (head, insertBelow b next)).Perm (b :: chainBlocks (head, next)) :=
      (behind.cons head).trans (List.Perm.swap b head next)
    exact swapped.append_right rest

theorem remove_spec (ok : SizeOk t) (distinct : ((sizeBlocks t).map Memblock.pmb).Nodup)
    (there : b ∈ sizeBlocks t) (done : removeFromFreeSize b t = some t') :
    SizeOk t' ∧ (sizeBlocks t).Perm (b :: sizeBlocks t') := by
  obtain ⟨⟨key, head, next⟩, member, inside⟩ := mem_sizeBlocks.1 there
  obtain rfl : b.cbSize = key := ok.keyed _ member b inside
  have known : ∀ c ∈ chainBlocks (head, next), c.pmb = b.pmb → c = b := fun c h same =>
    List.inj_on_of_nodup_map distinct (mem_sizeBlocks.2 ⟨_, member, h⟩) there same
  unfold removeFromFreeSize at done
  rw [get_of_mem ok.avl member] at done
  by_cases first : head.pmb = b.pmb
  · obtain rfl := known head List.mem_cons_self first
    simp only [ne_eq, not_true_eq_false, if_false] at done
    cases next with
    | nil =>
      obtain ⟨⟨t'', gone⟩, removed, rfl⟩ := Option.map_eq_some_iff.1 done
      obtain ⟨-, avl, old⟩ := remove_perm ok.avl member removed
      exact ⟨⟨avl, fun e other => ok.keyed e (old.mem_iff.2 (List.mem_cons_of_mem _ other))⟩,
        sizeBlocks_perm old⟩
    | cons second rest =>
      obtain rfl := Option.some.inj done
      obtain ⟨ok', others, old, new⟩ := @replace_chain t ok _ _ member (second, rest)
        fun d h => ok.keyed _ member d (List.mem_cons_of_mem _ h)
      exact ⟨ok', old.trans (new.symm.cons head)⟩
  · simp only [ne_eq, first, not_false_eq_true, if_true] at done
    obtain rfl := Option.some.inj done
    have behind : b ∈ next := (List.mem_cons.1 inside).resolve_left fun same => first (same ▸ rfl)
    obtain ⟨c, front, back, -, found, cut, erased⟩ :=
      @List.exists_of_eraseP _ (fun other : Memblock => other.pmb = b.pmb) _ _ behind
        (decide_eq_true rfl)
    obtain rfl := known c (List.mem_cons_of_mem _ (cut ▸ by simp)) (of_decide_eq_true found)
    have shorter : next.Perm (c :: next.eraseP fun other => other.pmb = c.pmb) := by
      rw [erased]
      exact cut ▸ List.perm_middle
    obtain ⟨ok', others, old, new⟩ := @replace_chain t ok _ _ member
      (head, next.eraseP fun other => other.pmb = c.pmb)
      (by
        intro d h
        refine ok.keyed _ member d ?_
        rcases List.mem_cons.1 h with rfl | h
        · exact List.mem_cons_self
        · exact List.mem_cons_of_mem _ (shorter.mem_iff.2 (List.mem_cons_of_mem _ h)))
    refine ⟨ok', old.trans (List.Perm.trans ?_ (new.symm.cons c))⟩
    have swapped : (chainBlocks (head, next)).Perm
        (c :: chainBlocks (head, next.eraseP fun other => other.pmb = c.pmb)) :=
      (shorter.cons head).trans (List.Perm.swap c head _)
    exact swapped.append_right others

end Odin32.FreeSize
