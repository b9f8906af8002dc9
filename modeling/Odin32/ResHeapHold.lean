import Odin32.ResHeap
import Odin32.HeapBlocksResize

/-! # The blocks of the resident heap

The memory of every anchor behind its header is tiled by its used and free blocks, and the anchors
lie apart. One anchor is opened for an operation on its trees and closed again. -/

set_option autoImplicit false

namespace Odin32.ResHeap
open Odin32.RankedTree Odin32.AvlTable Odin32.FreeSize Odin32.HeapBlocks Odin32.Tiling Odin32.Word

abbrev Place := List HeapAnchor × HeapAnchor × List HeapAnchor

def HeapAnchor.last (pha : HeapAnchor) : ℕ := pha.pha + pha.cbSize

def Outside (p q : HeapAnchor) : Prop := p.last ≤ q.pha ∨ q.last ≤ p.pha

/-- The blocks are known by their addresses. -/
def Own (bs : List Memblock) : Prop := ∀ b ∈ bs, b.pmb = b.uData

structure AnchorOk (debug : Bool) (pha : HeapAnchor) : Prop where
  holds : Holds (cbHdr debug) cbLeast (pha.pha + cbHeapAnchor debug) pha.last pha.trees
    (freeBlocks pha.trees) (usedBlocks pha.trees) []
  own : Own (freeBlocks pha.trees ++ usedBlocks pha.trees)
  page : 0x1000 ≤ pha.pha

structure HeapOk (debug : Bool) (h : ResHeap) : Prop where
  anchor : ∀ pha ∈ h.anchors, AnchorOk debug pha
  apart : h.anchors.Pairwise Outside

/-- The anchor of a place with the trees. -/
structure Opened (debug : Bool) (place : Place) (trees : BlockTrees) (F U L : List Memblock) :
    Prop where
  others : ∀ pha ∈ place.1 ++ place.2.2, AnchorOk debug pha
  apart : (place.1 ++ place.2.1 :: place.2.2).Pairwise Outside
  page : 0x1000 ≤ place.2.1.pha
  holds : Holds (cbHdr debug) cbLeast (place.2.1.pha + cbHeapAnchor debug) place.2.1.last trees
    F U L
  own : Own (L ++ (F ++ U))

variable {debug : Bool} {h : ResHeap} {place : Place} {trees trees' : BlockTrees}
variable {F F' U U' L L' : List Memblock} {b c : Memblock}

theorem cbHdr_pos (debug : Bool) : 20 ≤ cbHdr debug := by
  cases debug <;> decide

theorem cbHdr_le (debug : Bool) : cbHdr debug ≤ 24 := by
  cases debug <;> decide

theorem cbHeapAnchor_pos (debug : Bool) : 32 ≤ cbHeapAnchor debug := by
  cases debug <;> decide

theorem Own.perm {bs cs : List Memblock} (own : Own bs) (same : bs.Perm cs) : Own cs :=
  fun b there => own b (same.mem_iff.2 there)

theorem pairwise_retree {front back : List HeapAnchor} {pha : HeapAnchor}
    (apart : (front ++ pha :: back).Pairwise Outside) (trees : BlockTrees) :
    (front ++ { pha with trees := trees } :: back).Pairwise Outside := by
  simp only [List.pairwise_append, List.pairwise_cons, List.mem_cons, forall_eq_or_imp] at apart ⊢
  exact apart

theorem Opened.close (opened : Opened debug place trees F U []) (h : ResHeap) :
    HeapOk debug (h.put place trees) := by
  obtain ⟨front, pha, back⟩ := place
  have free := (blocks_perm opened.holds.free.byAddr).symm
  have used := (blocks_perm opened.holds.used).symm
  refine ⟨?_, pairwise_retree opened.apart trees⟩
  intro other there
  rcases List.mem_append.1 there with there | there
  · exact opened.others other (List.mem_append_left _ there)
  · rcases List.mem_cons.1 there with rfl | there
    · exact ⟨opened.holds.perm free used (List.Perm.refl _), opened.own.perm (free.append used),
        opened.page⟩
    · exact opened.others other (List.mem_append_right _ there)

theorem HeapOk.opened (ok : HeapOk debug h)
    (cut : h.anchors = place.1 ++ place.2.1 :: place.2.2) :
    Opened debug place place.2.1.trees (freeBlocks place.2.1.trees)
      (usedBlocks place.2.1.trees) [] := by
  have here := ok.anchor place.2.1 (cut ▸ List.mem_append_right _ List.mem_cons_self)
  refine ⟨fun pha there => ok.anchor pha ?_, cut ▸ ok.apart, here.page, here.holds, here.own⟩
  rw [cut]
  rcases List.mem_append.1 there with there | there
  · exact List.mem_append_left _ there
  · exact List.mem_append_right _ (List.mem_cons_of_mem _ there)

theorem Opened.retree {front back : List HeapAnchor} {pha : HeapAnchor}
    (opened : Opened debug (front, pha, back) trees F U L) (trees' : BlockTrees) :
    Opened debug (front, { pha with trees := trees' }, back) trees F U L :=
  ⟨opened.others, pairwise_retree opened.apart trees', opened.page, opened.holds, opened.own⟩

theorem Opened.perm (opened : Opened debug place trees F U L) (sameF : F.Perm F')
    (sameU : U.Perm U') : Opened debug place trees F' U' L :=
  ⟨opened.others, opened.apart, opened.page, opened.holds.perm sameF sameU (List.Perm.refl _),
    opened.own.perm ((sameF.append sameU).append_left L)⟩

theorem Opened.large (opened : Opened debug place trees F U L) (there : b ∈ L ++ (F ++ U)) :
    16 ≤ b.cbSize :=
  opened.holds.laid.large b there

theorem Opened.inside (opened : Opened debug place trees F U L) (there : b ∈ L ++ (F ++ U)) :
    0x1000 ≤ place.2.1.pha ∧ place.2.1.pha < b.uData ∧
      b.uData + cbHdr debug + b.cbSize ≤ place.2.1.last ∧ place.2.1.last < 0x100000000 := by
  have low := (opened.holds.laid.tiles.inside there).1
  have high := (opened.holds.laid.tiles.inside there).2
  have header := cbHeapAnchor_pos debug
  exact ⟨opened.page, by omega, high, opened.holds.laid.word⟩

theorem outside_of_pairwise {front back : List HeapAnchor} {pha other : HeapAnchor}
    (apart : (front ++ pha :: back).Pairwise Outside) (there : other ∈ front ++ back) :
    Outside pha other := by
  obtain ⟨-, later, across⟩ := List.pairwise_append.1 apart
  rcases List.mem_append.1 there with before | behind
  · exact (across other before pha List.mem_cons_self).symm
  · exact (List.pairwise_cons.1 later).1 other behind

theorem Opened.start_ne (opened : Opened debug place trees F U L) (here : b ∈ L ++ (F ++ U))
    {other : HeapAnchor} (there : other ∈ place.1 ++ place.2.2)
    (used : c ∈ usedBlocks other.trees) : c.uData ≠ b.uData := by
  have inside := opened.holds.laid.tiles.inside here
  have proper := opened.holds.laid.tiles.proper b here
  have holds := (opened.others other there).holds
  have insideC := holds.laid.tiles.inside (holds.mem_used used)
  have properC := holds.laid.tiles.proper c (holds.mem_used used)
  have apart := outside_of_pairwise opened.apart there
  unfold Outside at apart
  omega

theorem Opened.fresh (opened : Opened debug place trees F U L) (here : b ∈ L ++ (F ++ U)) {x : ℕ}
    (behind : b.uData < x) (before : x < endOf (cbHdr debug) b) :
    ∀ d ∈ L ++ (F ++ U), d.pmb ≠ x := by
  intro d there same
  have start : d.uData = x := (opened.own d there).symm.trans same
  obtain ⟨rest, cut⟩ := exists_cons here
  have tiles := opened.holds.laid.tiles.perm cut
  have proper := opened.holds.laid.tiles.proper d there
  rcases List.mem_cons.1 (cut.mem_iff.1 there) with rfl | other
  · omega
  · have apart := tiles.apart_of_mem other
    unfold Apart at apart
    omega

theorem Opened.insertFree (opened : Opened debug place trees F U (b :: L))
    {released : List Memblock}
    (done : HeapBlocks.insertFree (cbHdr debug) b trees = some (trees', released)) :
    ∃ F', Opened debug place trees' F' U L := by
  obtain ⟨F', holds, -, -, starts⟩ := insertFree_spec opened.holds done
  refine ⟨F', opened.others, opened.apart, opened.page, holds, fun x there => ?_⟩
  rcases List.mem_append.1 there with loose | placed
  · exact opened.own x (List.mem_append_left _ (List.mem_cons_of_mem _ loose))
  · rcases List.mem_append.1 placed with free | used
    · obtain ⟨d, from_, node, start⟩ := starts x free
      rw [← node, ← start]
      refine opened.own d ?_
      rcases List.mem_cons.1 from_ with rfl | from_
      · exact List.mem_append_left _ List.mem_cons_self
      · exact List.mem_append_right _ (List.mem_append_left _ from_)
    · exact opened.own x (List.mem_append_right _ (List.mem_append_right _ used))

theorem Opened.insertUsed (opened : Opened debug place trees F U (b :: L))
    (done : HeapBlocks.insertUsed b trees = some trees') :
    Opened debug place trees' F (b :: U) L := by
  refine ⟨opened.others, opened.apart, opened.page, (insertUsed_spec opened.holds done).1,
    opened.own.perm ?_⟩
  exact List.perm_middle.symm.trans (List.Perm.append_left L List.perm_middle.symm)

theorem Opened.removeUsed (opened : Opened debug place trees F U []) {uData : ℕ}
    {gone : Option Memblock}
    (done : HeapBlocks.removeUsed uData trees = some (trees', gone)) :
    (gone = none ∧ Opened debug place trees' F U []) ∨
      ∃ b U', gone = some b ∧ b.uData = uData ∧ U.Perm (b :: U') ∧
        Opened debug place trees' F U' [b] := by
  rcases removeUsed_spec opened.holds done with ⟨rfl, holds, -⟩ | ⟨b, U', rfl, start, cut, holds, -⟩
  · exact .inl ⟨rfl, opened.others, opened.apart, opened.page, holds, opened.own⟩
  · refine .inr ⟨b, U', rfl, start, cut, opened.others, opened.apart, opened.page, holds,
      opened.own.perm ?_⟩
    exact (cut.append_left F).trans List.perm_middle

theorem findAnchor_some {pv : ℕ} {anchors : List HeapAnchor}
    (found : findAnchor pv anchors = some place) :
    anchors = place.1 ++ place.2.1 :: place.2.2 ∧ place.2.1.pha < pv ∧
      pv < add32 place.2.1.pha place.2.1.cbSize := by
  induction anchors generalizing place with
  | nil => cases found
  | cons pha rest ih =>
    rw [findAnchor] at found
    split_ifs at found with inside
    · obtain rfl := Option.some.inj found
      exact ⟨rfl, inside⟩
    · obtain ⟨⟨front, other, back⟩, below, rfl⟩ := Option.map_eq_some_iff.1 found
      obtain ⟨cut, range⟩ := ih below
      exact ⟨by rw [cut]; rfl, range⟩

end Odin32.ResHeap
