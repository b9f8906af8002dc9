import Odin32.ResHeapPointers
import Odin32.SwpHeapPointers

/-! # Pointers of both heaps

The checks whether a pointer, or some bytes from it on, belong to a block in use. -/

set_option autoImplicit false

namespace Odin32.HeapPointers
open Odin32.HeapBlocks
open Odin32.ResHeap (ResHeap)
open Odin32.SwpHeap (SwpHeap)

/-- Both heaps answer for a pointer and a number of bytes as the blocks in use say. -/
structure PointersExact (debug : Bool) (r : ResHeap) (s : SwpHeap) (pv cb : ℕ) : Prop where
  res : ResHeap.resValidptr debug pv r = true ↔ ResHeap.UserByte debug pv r
  res2 : ResHeap.resValidptr2 debug pv cb r = true ↔ ResHeap.UserBytes debug pv cb r
  swp : SwpHeap.swpValidptr debug pv s = true ↔ SwpHeap.UserByte debug pv s
  swp2 : SwpHeap.swpValidptr2 debug pv cb s = true ↔ SwpHeap.UserBytes debug pv cb s

/-- No block in use holds the pointer, but for a block of the swappable release heap that starts
with it, behind the start of its anchor, and has fewer than the `cb` bytes. -/
structure NoneToFind (debug : Bool) (r : ResHeap) (s : SwpHeap) (pv cb : ℕ) : Prop where
  res : ¬ResHeap.UserByte debug pv r
  swp : ∀ pha ∈ s.anchors, ∀ c ∈ usedBlocks pha.trees, SwpHeap.ByteOf debug pv c →
    debug = false ∧ pv = c.uData ∧ pha.pvBlock < pv ∧ (cb = 0 ∨ c.cbSize < cb)

variable {debug : Bool} {r : ResHeap} {s : SwpHeap}

theorem res_exact_iff (ok : ResHeap.HeapOk debug r) (pv cb : ℕ) :
    ((ResHeap.resValidptr debug pv r = true ↔ ResHeap.UserByte debug pv r) ∧
      (ResHeap.resValidptr2 debug pv cb r = true ↔ ResHeap.UserBytes debug pv cb r)) ↔
      ¬ResHeap.UserByte debug pv r := by
  rw [ResHeap.resValidptr_false ok, ResHeap.resValidptr2_false ok]
  constructor
  · intro both byte
    exact Bool.false_ne_true (both.1.2 byte)
  · intro none_
    exact ⟨⟨fun absurd_ => (Bool.false_ne_true absurd_).elim, fun byte => absurd byte none_⟩,
      fun absurd_ => (Bool.false_ne_true absurd_).elim, fun bytes => absurd bytes.first none_⟩

variable {lost : List ℕ}

theorem byteOf_first (ok : SwpHeap.HeapOk false lost s) {pha : SwpHeap.HeapAnchor}
    (there : pha ∈ s.anchors) {c : FreeSize.Memblock} (used : c ∈ usedBlocks pha.trees) :
    SwpHeap.ByteOf false c.uData c := by
  obtain ⟨-, -, -, large⟩ := ok.inside there used
  have one : SwpHeap.least false = 1 := rfl
  have none_ : SwpHeap.cbSignature false = 0 := rfl
  unfold SwpHeap.ByteOf
  omega

theorem byteOf_unique (ok : SwpHeap.HeapOk debug lost s) {p q : SwpHeap.HeapAnchor}
    (thereP : p ∈ s.anchors) (thereQ : q ∈ s.anchors) {c d : FreeSize.Memblock}
    (usedC : c ∈ usedBlocks p.trees) (usedD : d ∈ usedBlocks q.trees) {pv : ℕ}
    (byteC : SwpHeap.ByteOf debug pv c) (byteD : SwpHeap.ByteOf debug pv d) : p = q ∧ d = c := by
  unfold SwpHeap.ByteOf at byteC byteD
  obtain ⟨-, lowC, highC, -⟩ := ok.inside thereP usedC
  obtain ⟨-, lowD, highD, -⟩ := ok.inside thereQ usedD
  constructor
  · by_contra differ
    rcases ok.apart.forall thereP thereQ differ with before | behind <;> omega
  · by_contra differ
    have apart := ok.blocks_apart thereP thereQ usedC usedD differ
    unfold endOf at apart
    omega

theorem swp_exact_iff (ok : SwpHeap.HeapOk debug lost s) (pv cb : ℕ) :
    ((SwpHeap.swpValidptr debug pv s = true ↔ SwpHeap.UserByte debug pv s) ∧
      (SwpHeap.swpValidptr2 debug pv cb s = true ↔ SwpHeap.UserBytes debug pv cb s)) ↔
      ∀ pha ∈ s.anchors, ∀ c ∈ usedBlocks pha.trees, SwpHeap.ByteOf debug pv c →
        debug = false ∧ pv = c.uData ∧ pha.pvBlock < pv ∧ (cb = 0 ∨ c.cbSize < cb) := by
  rw [SwpHeap.swpValidptr_iff ok, SwpHeap.swpValidptr2_false ok]
  constructor
  · rintro ⟨first, bytes⟩ pha there c used byte
    obtain ⟨rfl, pha', there', c', used', start, behind⟩ := first.2 ⟨c, ⟨pha, there, used⟩, byte⟩
    have byte' : SwpHeap.ByteOf false pv c' := start ▸ byteOf_first ok there' used'
    obtain ⟨rfl, rfl⟩ := byteOf_unique ok there' there used' used byte' byte
    refine ⟨rfl, start, behind, ?_⟩
    by_contra enough
    rw [not_or, Nat.not_lt] at enough
    have none_ : SwpHeap.cbSignature false = 0 := rfl
    exact Bool.false_ne_true (bytes.2 ⟨Nat.pos_of_ne_zero enough.1, c, ⟨pha', there, used⟩,
      by omega, by omega⟩)
  · intro each
    refine ⟨⟨?_, ?_⟩, fun absurd_ => (Bool.false_ne_true absurd_).elim, ?_⟩
    · rintro ⟨rfl, pha, there, c, used, rfl, -⟩
      exact ⟨c, ⟨pha, there, used⟩, byteOf_first ok there used⟩
    · rintro ⟨c, ⟨pha, there, used⟩, byte⟩
      obtain ⟨release, start, behind, -⟩ := each pha there c used byte
      exact ⟨release, pha, there, c, used, start, behind⟩
    · rintro ⟨pos, c, ⟨pha, there, used⟩, low, high⟩
      obtain ⟨rfl, start, -, few⟩ := each pha there c used ⟨low, by omega⟩
      have none_ : SwpHeap.cbSignature false = 0 := rfl
      omega

theorem pointersExact_iff {meets : ResHeap.Answers → ResHeap.Op → ResHeap → Prop}
    (reachedR : ResHeap.Reached debug meets r)
    (reachedS : SwpHeap.Reached debug (SwpHeap.Proper debug) s) (pv cb : ℕ) :
    PointersExact debug r s pv cb ↔ NoneToFind debug r s pv cb := by
  obtain ⟨lost, okS⟩ := SwpHeap.reached_ok reachedS
  have res := res_exact_iff (ResHeap.reached_ok reachedR) pv cb
  have swp := swp_exact_iff okS pv cb
  constructor
  · intro exact_
    exact ⟨res.1 ⟨exact_.res, exact_.res2⟩, swp.1 ⟨exact_.swp, exact_.swp2⟩⟩
  · intro none_
    obtain ⟨one, two⟩ := res.2 none_.res
    obtain ⟨three, four⟩ := swp.2 none_.swp
    exact ⟨one, two, three, four⟩

theorem usedHeap_proper : SwpHeap.Proper false (.malloc 8) SwpHeap.sampleHeap :=
  fun _ => by decide

/-- The first byte of the one block, with more bytes than it has. -/
theorem usedHeap_exact :
    PointersExact false ResHeap.sampleHeap SwpHeap.usedHeap 0x13fff8 9 := by
  refine (pointersExact_iff (ResHeap.sampleHeap_reached fun _ _ _ => True)
    (SwpHeap.usedHeap_reached (SwpHeap.Proper false) usedHeap_proper) 0x13fff8 9).2 ⟨?_, ?_⟩
  · rintro ⟨c, ⟨pha, there, used⟩, -⟩
    obtain rfl := List.mem_singleton.1 there
    exact absurd used List.not_mem_nil
  · intro pha there c used _
    obtain rfl := List.mem_singleton.1 there
    obtain rfl := List.mem_singleton.1 used
    decide

/-- The fifth byte of that block is not taken for one. -/
theorem pointers_not_exact :
    ¬∀ debug r s, ResHeap.Reached debug (fun _ _ _ => True) r →
      SwpHeap.Reached debug SwpHeap.AnyCall s → ∀ pv cb, PointersExact debug r s pv cb := by
  intro always
  have exact_ := always false ResHeap.sampleHeap SwpHeap.usedHeap
    (ResHeap.sampleHeap_reached fun _ _ _ => True)
    (SwpHeap.usedHeap_reached SwpHeap.AnyCall trivial) 0x13fffc 1
  have byte : SwpHeap.UserByte false 0x13fffc SwpHeap.usedHeap :=
    ⟨⟨0x1004c, 0x13fff8, 8⟩, ⟨_, List.mem_singleton.2 rfl, List.mem_singleton.2 rfl⟩,
      by unfold SwpHeap.ByteOf; decide⟩
  have missed : SwpHeap.swpValidptr false 0x13fffc SwpHeap.usedHeap = false := by decide +kernel
  exact Bool.false_ne_true (missed.symm.trans (exact_.swp.2 byte))

end Odin32.HeapPointers
