import Odin32.SwpHeap
import Odin32.HeapBlocksResize

/-! # The blocks and the descriptors of the swappable heap

Every anchor's block is tiled by its used and free blocks, the blocks of different anchors lie
apart, and the descriptors marked used are those of the blocks and `lost` ones that belong to no
anchor of the list. One anchor is opened for an operation on its trees and closed again. -/

set_option autoImplicit false

namespace Odin32.SwpHeap
open Odin32.RankedTree Odin32.AvlTable Odin32.FreeSize Odin32.HeapBlocks Odin32.MemblockPool
open Odin32.Tiling Odin32.Word

abbrev Place := List HeapAnchor × HeapAnchor × List HeapAnchor

/-- The descriptors of an anchor's blocks. -/
def nodes (trees : BlockTrees) : List ℕ :=
  (freeBlocks trees ++ usedBlocks trees).map Memblock.pmb

def HeapAnchor.last (pha : HeapAnchor) : ℕ := pha.pvBlock + pha.cbSize

def Outside (p q : HeapAnchor) : Prop := p.last ≤ q.pvBlock ∨ q.last ≤ p.pvBlock

/-- The size every block has at least. -/
def least (debug : Bool) : ℕ := max 1 (cbSignatures debug)

structure AnchorOk (debug : Bool) (pha : HeapAnchor) : Prop where
  holds : Holds 0 (least debug) pha.pvBlock pha.last pha.trees (freeBlocks pha.trees)
    (usedBlocks pha.trees) []
  page : 0x1000 ≤ pha.pvBlock

structure HeapOk (debug : Bool) (lost : List ℕ) (h : SwpHeap) : Prop where
  anchor : ∀ pha ∈ h.anchors, AnchorOk debug pha
  apart : h.anchors.Pairwise Outside
  pool : PoolOk h.chunks
  nodes : (allocated h.chunks).Perm (lost ++ h.anchors.flatMap fun pha => nodes pha.trees)

/-- The anchor of a place with the trees, while the chunks are as given. -/
structure Opened (debug : Bool) (lost : List ℕ) (place : Place) (trees : BlockTrees)
    (chunks : List MemblockChunk) (F U L : List Memblock) : Prop where
  others : ∀ pha ∈ place.1 ++ place.2.2, AnchorOk debug pha
  apart : (place.1 ++ place.2.1 :: place.2.2).Pairwise Outside
  page : 0x1000 ≤ place.2.1.pvBlock
  holds : Holds 0 (least debug) place.2.1.pvBlock place.2.1.last trees F U L
  pool : PoolOk chunks
  nodes : (allocated chunks).Perm (lost ++ ((L ++ (F ++ U)).map Memblock.pmb ++
    (place.1 ++ place.2.2).flatMap fun pha => nodes pha.trees))

variable {debug : Bool}

theorem Opened.close {lost : List ℕ} {place : Place} {trees : BlockTrees}
    {chunks : List MemblockChunk} {F U : List Memblock}
    (opened : Opened debug lost place trees chunks F U []) (h : SwpHeap) :
    HeapOk debug lost (h.put place trees chunks) := by
  obtain ⟨front, pha, back⟩ := place
  have free := (blocks_perm opened.holds.free.byAddr).symm
  have used := (blocks_perm opened.holds.used).symm
  refine ⟨?_, ?_, opened.pool, ?_⟩
  · intro other there
    rcases List.mem_append.1 there with there | there
    · exact opened.others other (List.mem_append_left _ there)
    · rcases List.mem_cons.1 there with rfl | there
      · exact ⟨opened.holds.perm free used (List.Perm.refl _), opened.page⟩
      · exact opened.others other (List.mem_append_right _ there)
  · have apart := opened.apart
    have same : ((front ++ { pha with trees := trees } :: back).Pairwise Outside) ↔
        (front ++ pha :: back).Pairwise Outside := by
      rw [List.pairwise_append, List.pairwise_append, List.pairwise_cons, List.pairwise_cons]
      simp only [List.mem_cons, forall_eq_or_imp]
      exact Iff.rfl
    exact same.2 apart
  · refine opened.nodes.trans (List.Perm.append_left lost ?_)
    show List.Perm _ ((front ++ { pha with trees := trees } :: back).flatMap _)
    rw [List.flatMap_append, List.flatMap_append, List.flatMap_cons]
    have here : ((([] : List Memblock) ++ (F ++ U)).map Memblock.pmb).Perm
        (SwpHeap.nodes trees) := (free.append used).map _
    refine (here.append_right _).trans ?_
    rw [← List.append_assoc, ← List.append_assoc]
    exact List.perm_append_comm.append_right _

theorem HeapOk.opened {lost : List ℕ} {h : SwpHeap} (ok : HeapOk debug lost h) {place : Place}
    (cut : h.anchors = place.1 ++ place.2.1 :: place.2.2) :
    Opened debug lost place place.2.1.trees h.chunks (freeBlocks place.2.1.trees)
      (usedBlocks place.2.1.trees) [] := by
  have here := ok.anchor place.2.1 (cut ▸ List.mem_append_right _ List.mem_cons_self)
  refine ⟨fun pha there => ok.anchor pha ?_, cut ▸ ok.apart, here.page, here.holds, ok.pool,
    ok.nodes.trans (List.Perm.append_left lost ?_)⟩
  · rw [cut]
    rcases List.mem_append.1 there with there | there
    · exact List.mem_append_left _ there
    · exact List.mem_append_right _ (List.mem_cons_of_mem _ there)
  · rw [cut, List.flatMap_append, List.flatMap_append, List.flatMap_cons]
    rw [← List.append_assoc, ← List.append_assoc]
    exact List.perm_append_comm.append_right _

theorem findAnchor_some {pv : ℕ} {anchors : List HeapAnchor} {place : Place}
    (found : findAnchor pv anchors = some place) :
    anchors = place.1 ++ place.2.1 :: place.2.2 ∧ place.2.1.pvBlock < pv ∧
      pv < add32 place.2.1.pvBlock place.2.1.cbSize := by
  induction anchors generalizing place with
  | nil => cases found
  | cons pha rest ih =>
    rw [findAnchor] at found
    split_ifs at found with inside
    · obtain rfl := Option.some.inj found
      exact ⟨rfl, inside⟩
    · obtain ⟨⟨front, other, back⟩, below, rfl⟩ := Option.map_eq_some_iff.1 found
      obtain ⟨cut, range⟩ := ih below
      exact ⟨by rw [cut]; rfl, range⟩

/-! ## Descriptors -/

section Descriptors

variable {lost : List ℕ} {place : Place} {trees : BlockTrees} {chunks : List MemblockChunk}
variable {F U L : List Memblock}

theorem releaseAll_spec {released : List Memblock} {rest : List ℕ} (pool : PoolOk chunks)
    (nodes : (allocated chunks).Perm (released.map Memblock.pmb ++ rest)) :
    PoolOk (releaseAll released chunks) ∧ (allocated (releaseAll released chunks)).Perm rest := by
  induction released generalizing chunks with
  | nil => exact ⟨pool, nodes⟩
  | cons b released ih =>
    obtain ⟨pool', released', -⟩ := release_spec pool
      (nodes.mem_iff.2 (List.mem_append_left _ (List.mem_map_of_mem List.mem_cons_self)))
    exact ih pool' (released'.symm.trans nodes).cons_inv

theorem Opened.fresh {node : ℕ} (opened : Opened debug (node :: lost) place trees chunks F U L) :
    ∀ b ∈ L ++ (F ++ U), b.pmb ≠ node := by
  intro b there same
  have distinct := opened.nodes.nodup_iff.1 (allocated_nodup opened.pool)
  rw [List.cons_append, List.nodup_cons] at distinct
  exact distinct.1 (List.mem_append_right _ (List.mem_append_left _
    (List.mem_map.2 ⟨b, there, same⟩)))

theorem Opened.allocate (opened : Opened debug lost place trees chunks F U L) {rmalloc : Option ℕ}
    (fresh : ∀ pmc, rmalloc = some pmc → Fresh chunks pmc) :
    ∃ chunks' pmb, swpAllocateMemblock rmalloc chunks = some (chunks', pmb) ∧
      Opened debug (pmb.toList ++ lost) place trees chunks' F U L := by
  obtain ⟨chunks', pmb, done, pool, nodes, -⟩ := allocate_spec opened.pool fresh
  refine ⟨chunks', pmb, done, opened.others, opened.apart, opened.page, opened.holds, pool, ?_⟩
  rw [List.append_assoc]
  exact nodes.trans (opened.nodes.append_left _)

theorem Opened.insertFree {b : Memblock} (opened : Opened debug lost place trees chunks F U (b :: L))
    {trees' : BlockTrees} {released : List Memblock}
    (done : HeapBlocks.insertFree 0 b trees = some (trees', released)) :
    ∃ F', Opened debug lost place trees' (releaseAll released chunks) F' U L ∧
      trees'.pcoreUsed = trees.pcoreUsed := by
  obtain ⟨F', holds, used, same, -⟩ := insertFree_spec opened.holds done
  have split : (allocated chunks).Perm (released.map Memblock.pmb ++ (lost ++
      ((L ++ (F' ++ U)).map Memblock.pmb ++
        (place.1 ++ place.2.2).flatMap fun pha => SwpHeap.nodes pha.trees))) := by
    refine opened.nodes.trans (List.perm_iff_count.2 fun x => ?_)
    have counts := same.count_eq x
    simp only [List.map_append, List.map_cons, List.cons_append, List.count_append,
      List.count_cons] at counts ⊢
    omega
  obtain ⟨pool, nodes⟩ := releaseAll_spec opened.pool split
  exact ⟨F', ⟨opened.others, opened.apart, opened.page, holds, pool, nodes⟩, used⟩

end Descriptors

end Odin32.SwpHeap
