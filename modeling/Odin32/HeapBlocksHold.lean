import Odin32.HeapBlocks

/-! # The blocks of a heap anchor tile it

An anchor holds its free blocks `F` and its blocks in use `U`, while the blocks `L` are on their way
from the one to the other: each of the three trees lists its blocks, the counters are their sums,
no two free blocks are neighbours, and together the blocks tile the anchor. Every operation on the
trees that has a result takes such lists to such lists. -/

set_option autoImplicit false

namespace Odin32.HeapBlocks
open Odin32.RankedTree Odin32.Avl Odin32.AvlOps Odin32.AvlTable Odin32.AvlSearch Odin32.FreeSize
open Odin32.Tiling Odin32.Word

/-! ## Trees that list blocks -/

def byAddress (b : Memblock) : ℕ × Memblock := (b.uData, b)

structure Indexed (t : Tree ℕ Memblock) (bs : List Memblock) : Prop where
  avl : Avl t
  lists : (entries t).Perm (bs.map byAddress)

def freeBlocks (trees : BlockTrees) : List Memblock := (entries trees.pcoreFree).map Prod.snd

def usedBlocks (trees : BlockTrees) : List Memblock := (entries trees.pcoreUsed).map Prod.snd

structure InTrees (t : Tree ℕ Memblock) (s : SizeTree) (F : List Memblock) : Prop where
  byAddr : Indexed t F
  bySize : SizeOk s
  sized : (sizeBlocks s).Perm F

theorem indexed_nil : Indexed .nil [] := ⟨avl_nil, List.Perm.refl _⟩

section Indexed

variable {t t' : Tree ℕ Memblock} {bs cs : List Memblock} {b c : Memblock}

theorem Indexed.perm (indexed : Indexed t bs) (same : bs.Perm cs) : Indexed t cs :=
  ⟨indexed.avl, indexed.lists.trans (same.map _)⟩

theorem blocks_perm (indexed : Indexed t bs) : ((entries t).map Prod.snd).Perm bs := by
  have same := indexed.lists.map Prod.snd
  rw [List.map_map] at same
  exact same.trans (List.Perm.of_eq (List.map_id bs))

theorem mem_used {trees : BlockTrees} (indexed : Indexed trees.pcoreUsed bs) :
    b ∈ usedBlocks trees ↔ b ∈ bs :=
  (blocks_perm indexed).mem_iff

theorem Indexed.mem (indexed : Indexed t bs) {e : ℕ × Memblock} :
    e ∈ entries t ↔ e.2 ∈ bs ∧ e.1 = e.2.uData := by
  rw [indexed.lists.mem_iff, List.mem_map]
  constructor
  · rintro ⟨b, there, rfl⟩
    exact ⟨there, rfl⟩
  · rintro ⟨there, key⟩
    exact ⟨e.2, there, by rw [byAddress, ← key]⟩

theorem Indexed.mem_keys (indexed : Indexed t bs) {key : ℕ} :
    key ∈ keys t ↔ ∃ b ∈ bs, b.uData = key := by
  unfold keys
  constructor
  · intro there
    obtain ⟨e, member, rfl⟩ := List.mem_map.1 there
    obtain ⟨there, key⟩ := indexed.mem.1 member
    exact ⟨e.2, there, key.symm⟩
  · rintro ⟨b, there, rfl⟩
    exact List.mem_map.2 ⟨byAddress b, indexed.mem.2 ⟨there, rfl⟩, rfl⟩

theorem Indexed.insert (indexed : Indexed t bs) (fresh : ∀ c ∈ bs, c.uData ≠ b.uData) {rc : Bool}
    (done : avlInsert t b.uData b = some (t', rc)) : Indexed t' (b :: bs) := by
  have new : b.uData ∉ keys t := fun there => by
    obtain ⟨c, member, same⟩ := indexed.mem_keys.1 there
    exact fresh c member same
  obtain ⟨avl, same⟩ := insert_perm indexed.avl new done
  exact ⟨avl, same.trans (indexed.lists.cons _)⟩

theorem Indexed.remove (indexed : Indexed t (b :: bs)) {gone : Option (ℕ × Memblock)}
    (done : avlRemove t b.uData = some (t', gone)) :
    gone = some (b.uData, b) ∧ Indexed t' bs := by
  obtain ⟨found, avl, same⟩ :=
    remove_perm indexed.avl (indexed.mem.2 ⟨List.mem_cons_self, rfl⟩) done
  exact ⟨found, avl, (same.symm.trans indexed.lists).cons_inv⟩

theorem Indexed.replace (indexed : Indexed t (b :: bs))
    (below : ∀ d ∈ bs, d.uData < b.uData → d.uData < c.uData)
    (above : ∀ d ∈ bs, b.uData < d.uData → c.uData < d.uData) :
    Indexed (avlReplace b.uData c.uData c t) (c :: bs) := by
  have below' : ∀ k ∈ keys t, k < b.uData → k < c.uData := by
    intro k there less
    obtain ⟨d, member, rfl⟩ := indexed.mem_keys.1 there
    rcases List.mem_cons.1 member with rfl | member
    · exact absurd less (Nat.lt_irrefl _)
    · exact below d member less
  have above' : ∀ k ∈ keys t, b.uData < k → c.uData < k := by
    intro k there less
    obtain ⟨d, member, rfl⟩ := indexed.mem_keys.1 there
    rcases List.mem_cons.1 member with rfl | member
    · exact absurd less (Nat.lt_irrefl _)
    · exact above d member less
  have there : (b.uData, b) ∈ entries t := indexed.mem.2 ⟨List.mem_cons_self, rfl⟩
  obtain ⟨avl, es, old, new⟩ := replace_perm indexed.avl c there below' above'
  exact ⟨avl, new.trans ((old.symm.trans indexed.lists).cons_inv.cons _)⟩

theorem Indexed.replace_same (indexed : Indexed t (b :: bs)) (start : c.uData = b.uData) :
    Indexed (avlReplace b.uData b.uData c t) (c :: bs) := by
  have replaced := @Indexed.replace t bs b c indexed (fun _ _ less => start ▸ less)
    fun _ _ less => start ▸ less
  rwa [start] at replaced

end Indexed

section InTrees

variable {t t' : Tree ℕ Memblock} {s s' : SizeTree} {a a' : BlockTrees} {F F' : List Memblock}
variable {b c : Memblock}

theorem InTrees.perm (trees : InTrees t s F) (same : F.Perm F') : InTrees t s F' :=
  ⟨trees.byAddr.perm same, trees.bySize, trees.sized.trans same⟩

theorem InTrees.insert (trees : InTrees t s F) (fresh : ∀ c ∈ F, c.uData ≠ b.uData) {rc : Bool}
    (byAddr : avlInsert t b.uData b = some (t', rc)) (bySize : insertIntoFreeSize b s = some s') :
    InTrees t' s' (b :: F) := by
  obtain ⟨ok, sized⟩ := insert_spec trees.bySize bySize
  exact ⟨trees.byAddr.insert fresh byAddr, ok, sized.trans (trees.sized.cons b)⟩

theorem InTrees.removeSize (trees : InTrees t s (b :: F))
    (distinct : ((b :: F).map Memblock.pmb).Nodup) (done : removeFromFreeSize b s = some s') :
    SizeOk s' ∧ (sizeBlocks s').Perm F := by
  obtain ⟨ok, same⟩ := remove_spec trees.bySize
    ((trees.sized.map _).nodup_iff.2 distinct) (trees.sized.mem_iff.2 List.mem_cons_self) done
  exact ⟨ok, (same.symm.trans trees.sized).cons_inv⟩

theorem InTrees.remove (trees : InTrees t s (b :: F))
    (distinct : ((b :: F).map Memblock.pmb).Nodup) {gone : Option (ℕ × Memblock)}
    (byAddr : avlRemove t b.uData = some (t', gone)) (bySize : removeFromFreeSize b s = some s') :
    gone = some (b.uData, b) ∧ InTrees t' s' F := by
  obtain ⟨found, indexed⟩ := trees.byAddr.remove byAddr
  obtain ⟨ok, sized⟩ := trees.removeSize distinct bySize
  exact ⟨found, indexed, ok, sized⟩

theorem changeFree_spec (trees : InTrees a.pcoreFree a.pcoreFreeSize (b :: F))
    (distinct : ((b :: F).map Memblock.pmb).Nodup)
    (below : ∀ d ∈ F, d.uData < b.uData → d.uData < c.uData)
    (above : ∀ d ∈ F, b.uData < d.uData → c.uData < d.uData)
    (done : changeFree b c a = some a') :
    InTrees a'.pcoreFree a'.pcoreFreeSize (c :: F) ∧ a'.cbFree = a.cbFree ∧ a'.pcoreUsed = a.pcoreUsed ∧
      a'.cbUsed = a.cbUsed := by
  unfold changeFree at done
  simp only [Option.bind_eq_bind, Option.bind_eq_some_iff, Option.some.injEq] at done
  obtain ⟨less, removed, more, inserted, rfl⟩ := done
  obtain ⟨ok, sized⟩ := trees.removeSize distinct removed
  obtain ⟨ok', sized'⟩ := insert_spec ok inserted
  exact ⟨⟨trees.byAddr.replace below above, ok', sized'.trans (sized.cons c)⟩, rfl, rfl, rfl⟩

end InTrees

/-! ## Blocks that tile the anchor -/

/-- The address behind a block, as long as it is a word. -/
def endOf (cbHdr : ℕ) (b : Memblock) : ℕ := b.uData + cbHdr + b.cbSize

/-- Blocks of at least `least` bytes that tile a range of the address space, each with a
descriptor of its own. -/
structure Laid (cbHdr least first last : ℕ) (bs : List Memblock) : Prop where
  tiles : Tiles Memblock.uData (endOf cbHdr) first last bs
  distinct : (bs.map Memblock.pmb).Nodup
  large : ∀ b ∈ bs, least ≤ b.cbSize
  word : last < 0x100000000

structure Holds (cbHdr least first last : ℕ) (a : BlockTrees) (F U L : List Memblock) : Prop where
  free : InTrees a.pcoreFree a.pcoreFreeSize F
  used : Indexed a.pcoreUsed U
  freeSum : a.cbFree = (F.map Memblock.cbSize).sum
  usedSum : a.cbUsed = (U.map Memblock.cbSize).sum
  laid : Laid cbHdr least first last (L ++ (F ++ U))
  apart : ∀ b ∈ F, ∀ c ∈ F, endOf cbHdr b ≠ c.uData

variable {cbHdr least first last : ℕ}

section Laid

variable {bs cs : List Memblock} {b c d : Memblock}

theorem Laid.perm (laid : Laid cbHdr least first last bs) (same : bs.Perm cs) :
    Laid cbHdr least first last cs :=
  ⟨laid.tiles.perm same, (same.map _).nodup_iff.1 laid.distinct,
    fun b there => laid.large b (same.mem_iff.2 there), laid.word⟩

theorem Laid.end_word (laid : Laid cbHdr least first last bs) (there : b ∈ bs) :
    endOf cbHdr b < 0x100000000 :=
  Nat.lt_of_le_of_lt (laid.tiles.inside there).2 laid.word

theorem Laid.nextBlock_eq (laid : Laid cbHdr least first last bs) (there : b ∈ bs) :
    nextBlock cbHdr b = endOf cbHdr b :=
  Nat.mod_eq_of_lt (laid.end_word there)

theorem Laid.join (laid : Laid cbHdr least first last (c :: d :: bs)) (start : c.uData = b.uData)
    (meet : endOf cbHdr c = d.uData) (stop : endOf cbHdr d = endOf cbHdr b)
    (known : b.pmb = c.pmb ∨ b.pmb = d.pmb) (large : least ≤ b.cbSize) :
    Laid cbHdr least first last (b :: bs) := by
  have properC := laid.tiles.proper c List.mem_cons_self
  have properD := laid.tiles.proper d (List.mem_cons_of_mem _ List.mem_cons_self)
  refine ⟨(tiles_cut start meet stop properC properD).2 laid.tiles, ?_, ?_, laid.word⟩
  · have distinct := laid.distinct
    simp only [List.map_cons, List.nodup_cons, List.mem_cons, not_or] at distinct ⊢
    obtain ⟨⟨-, c_new⟩, d_new, rest⟩ := distinct
    rcases known with same | same
    · exact ⟨same ▸ c_new, rest⟩
    · exact ⟨same ▸ d_new, rest⟩
  · intro e there
    rcases List.mem_cons.1 there with rfl | there
    · exact large
    · exact laid.large e (List.mem_cons_of_mem _ (List.mem_cons_of_mem _ there))

theorem Laid.cut (laid : Laid cbHdr least first last (b :: bs)) (start : c.uData = b.uData)
    (meet : endOf cbHdr c = d.uData) (stop : endOf cbHdr d = endOf cbHdr b)
    (properC : c.uData < endOf cbHdr c) (properD : d.uData < endOf cbHdr d)
    (distinct : ((c :: d :: bs).map Memblock.pmb).Nodup) (largeC : least ≤ c.cbSize)
    (largeD : least ≤ d.cbSize) : Laid cbHdr least first last (c :: d :: bs) := by
  refine ⟨(tiles_cut start meet stop properC properD).1 laid.tiles, distinct, ?_, laid.word⟩
  intro e there
  rcases List.mem_cons.1 there with rfl | there
  · exact largeC
  · rcases List.mem_cons.1 there with rfl | there
    · exact largeD
    · exact laid.large e (List.mem_cons_of_mem _ there)

theorem sum_sizes_le (bs : List Memblock) :
    (bs.map Memblock.cbSize).sum ≤ (bs.map fun b => endOf cbHdr b - b.uData).sum := by
  induction bs with
  | nil => exact Nat.le_refl _
  | cons b bs ih =>
    have size : b.cbSize ≤ endOf cbHdr b - b.uData := by
      unfold endOf
      omega
    rw [List.map_cons, List.map_cons, List.sum_cons, List.sum_cons]
    exact Nat.add_le_add size ih

theorem Laid.sum_lt (laid : Laid cbHdr least first last bs) :
    (bs.map Memblock.cbSize).sum < 0x100000000 := by
  have sizes := @sum_sizes_le cbHdr bs
  have total := laid.tiles.total
  have word := laid.word
  omega

end Laid

section Neighbours

variable {a a' : BlockTrees} {F F' U U' L L' : List Memblock} {b c : Memblock}

theorem Holds.perm (holds : Holds cbHdr least first last a F U L) (sameF : F.Perm F')
    (sameU : U.Perm U') (sameL : L.Perm L') : Holds cbHdr least first last a F' U' L' where
  free := holds.free.perm sameF
  used := holds.used.perm sameU
  freeSum := holds.freeSum.trans (sameF.map _).sum_nat
  usedSum := holds.usedSum.trans (sameU.map _).sum_nat
  laid := holds.laid.perm (sameL.append (sameF.append sameU))
  apart b hb c hc := holds.apart b (sameF.mem_iff.2 hb) c (sameF.mem_iff.2 hc)

theorem Holds.mem_free (_ : Holds cbHdr least first last a F U L) (there : b ∈ F) :
    b ∈ L ++ (F ++ U) :=
  List.mem_append_right _ (List.mem_append_left _ there)

theorem Holds.mem_used (_ : Holds cbHdr least first last a F U L) (there : b ∈ U) :
    b ∈ L ++ (F ++ U) :=
  List.mem_append_right _ (List.mem_append_right _ there)

theorem Holds.laid_free (holds : Holds cbHdr least first last a (c :: F) U L) :
    Laid cbHdr least first last (c :: (L ++ (F ++ U))) :=
  holds.laid.perm List.perm_middle

theorem Holds.laid_used (holds : Holds cbHdr least first last a F (c :: U) L) :
    Laid cbHdr least first last (c :: (L ++ (F ++ U))) :=
  holds.laid.perm ((List.perm_middle.append_left L).trans List.perm_middle)

theorem exists_cons {bs : List Memblock} (there : b ∈ bs) : ∃ rest, bs.Perm (b :: rest) :=
  ⟨bs.erase b, List.perm_cons_erase there⟩

theorem leftOf_some (holds : Holds cbHdr least first last a F U L)
    (found : leftOf cbHdr b a = some c) : c ∈ F ∧ endOf cbHdr c = b.uData := by
  obtain ⟨best, meets⟩ := Option.filter_eq_some_iff.1 found
  obtain ⟨e, fit, rfl⟩ := Option.map_eq_some_iff.1 best
  have spec := getBestFit_spec b.uData false holds.free.byAddr.avl.ordered
  rw [fit] at spec
  have there := (holds.free.byAddr.mem.1 spec.1).1
  rw [← holds.laid.nextBlock_eq (holds.mem_free there)]
  exact ⟨there, of_decide_eq_true meets⟩

theorem leftOf_none (holds : Holds cbHdr least first last a F U (b :: L))
    (none_ : leftOf cbHdr b a = none) : ∀ c ∈ F, endOf cbHdr c ≠ b.uData := by
  intro c there meets
  have spec := getBestFit_spec b.uData false holds.free.byAddr.avl.ordered
  have proper := holds.laid.tiles.proper c (holds.mem_free there)
  have c_key : (c.uData, c) ∈ entries a.pcoreFree := holds.free.byAddr.mem.2 ⟨there, rfl⟩
  have c_fits : AvlSearch.Fits false b.uData (c.uData, c) := by
    show c.uData ≤ b.uData
    omega
  unfold leftOf at none_
  cases fit : avlGetBestFit b.uData false a.pcoreFree none with
  | none =>
    rw [fit] at spec
    exact spec _ c_key c_fits
  | some e =>
    obtain ⟨key, m⟩ := e
    rw [fit] at spec none_
    obtain ⟨m_key, m_fits, nearest⟩ := spec
    obtain ⟨m_there, start⟩ := holds.free.byAddr.mem.1 m_key
    obtain rfl : key = m.uData := start
    have m_low : m.uData ≤ b.uData := m_fits
    have c_low : c.uData ≤ m.uData := nearest _ c_key c_fits
    have m_ne : m.uData ≠ b.uData := by
      have others : m ∈ L ++ (F ++ U) := List.mem_append_right _ (List.mem_append_left _ m_there)
      exact holds.laid.tiles.start_ne others
    have same : m = c := by
      by_contra other
      obtain ⟨rest, cut⟩ := exists_cons there
      have behind : m ∈ rest := (List.mem_cons.1 (cut.mem_iff.1 m_there)).resolve_left other
      have holds' := holds.perm cut (List.Perm.refl _) (List.Perm.refl _)
      have apart := holds'.laid_free.tiles.apart_of_mem
        (List.mem_append_right _ (List.mem_append_left _ behind))
      have m_proper := holds.laid.tiles.proper m (holds.mem_free m_there)
      unfold Apart at apart
      omega
    subst same
    rw [Option.map_some, Option.filter_eq_none_iff] at none_
    refine none_ m rfl (decide_eq_true ?_)
    rw [holds.laid.nextBlock_eq (holds.mem_free m_there), meets]

theorem rightOf_some (holds : Holds cbHdr least first last a F U (b :: L))
    (found : rightOf cbHdr b a = some c) : c ∈ F ∧ endOf cbHdr b = c.uData := by
  obtain ⟨e, got, rfl⟩ := Option.map_eq_some_iff.1 found
  obtain ⟨key, there⟩ := get_some got
  obtain ⟨there, start⟩ := holds.free.byAddr.mem.1 there
  rw [holds.laid.nextBlock_eq List.mem_cons_self] at key
  exact ⟨there, key.symm.trans start⟩

theorem rightOf_none (holds : Holds cbHdr least first last a F U (b :: L))
    (none_ : rightOf cbHdr b a = none) : ∀ c ∈ F, endOf cbHdr b ≠ c.uData := by
  intro c there meets
  have missing := get_none holds.free.byAddr.avl.ordered (Option.map_eq_none_iff.1 none_)
  rw [holds.laid.nextBlock_eq List.mem_cons_self, meets] at missing
  exact missing (holds.free.byAddr.mem_keys.2 ⟨c, there, rfl⟩)

end Neighbours

end Odin32.HeapBlocks
