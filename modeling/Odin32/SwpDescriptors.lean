import Odin32.SwpHeapReach

/-! # Descriptors of the swappable heap

The ledger of the descriptors: those marked used in the chunks are those of the blocks, as long as
`_swp_heapmin` finds no anchor to give back. What it gives back keeps its free block's descriptor
marked for good. -/

set_option autoImplicit false

namespace Odin32.SwpHeap
open Odin32.RankedTree Odin32.HeapBlocks Odin32.MemblockPool Odin32.FreeSize Odin32.Word

structure DescriptorsExact (h : SwpHeap) : Prop where
  nodes : (allocated h.chunks).Perm (h.anchors.flatMap fun pha => nodes pha.trees)
  once : (allocated h.chunks).Nodup
  counts : ∀ pmc ∈ h.chunks, pmc.cFree = pmc.achBitmap.count false
  scan : ∀ pmc ∈ h.chunks, pmc.cFree ≠ 0 →
    ∃ i < memblocksPerChunk, firstClear pmc.achBitmap = some i

/-- No request rounds to nothing, and `_swp_heapmin` has no anchor to give back. -/
def Tidy (debug : Bool) (op : Op) (h : SwpHeap) : Prop :=
  Proper debug op h ∧ (op = .heapmin → NoneEmpty h)

variable {debug : Bool} {h : SwpHeap}

theorem tidy_ok (reached : Reached debug (Tidy debug) h) : HeapOk debug [] h := by
  induction reached with
  | init sound done => exact init_ok sound done
  | step _ sound met done ih =>
    obtain ⟨left, ok, none_⟩ := step_ok ih sound met.1 done
    rwa [none_ met.2] at ok

theorem scan_of_ok {pmc : MemblockChunk} (ok : ChunkOk pmc) (free : pmc.cFree ≠ 0) :
    ∃ i < memblocksPerChunk, firstClear pmc.achBitmap = some i := by
  have clear : false ∈ pmc.achBitmap :=
    List.count_pos_iff.1 (Nat.pos_of_ne_zero (ok.counts ▸ free))
  obtain ⟨i, found⟩ := firstClear_isSome ok.bits clear
  obtain ⟨inside, -⟩ := List.getElem?_eq_some_iff.1 (firstClear_some found)
  exact ⟨i, ok.bits ▸ inside, found⟩

/-- Memory for a heap of one block of 256KB. -/
def sampleAnswers : Answers :=
  ⟨some 0x5000, some 0x10000, none, fun cb => if cb = 0x40000 then some 0x100000 else none⟩

/-- Memory for a second block, of 512KB. -/
def secondAnswers : Answers :=
  ⟨some 0x6000, none, none, fun cb => if cb = 0x80000 then some 0x200000 else none⟩

def sampleAnchor : HeapAnchor :=
  ⟨0x5000, 0x100000, 0x40000,
    ⟨.node 0x100000 ⟨0x10028, 0x100000, 0x40000⟩ 1 .nil .nil,
      .node 0x40000 (⟨0x10028, 0x100000, 0x40000⟩, []) 1 .nil .nil, 0x40000, .nil, 0⟩⟩

def sampleHeap : SwpHeap :=
  ⟨[sampleAnchor], 0x1000000, [⟨0x10000, 255, true :: List.replicate 255 false⟩]⟩

theorem sampleHeap_init : swpHeapInit sampleAnswers 0 0x1000000 = .ok (some sampleHeap) := rfl

theorem sampleAnswers_sound : sampleAnswers.Sound (noHeap 0x1000000) where
  chunk pmc given := by
    obtain rfl := Option.some.inj given
    exact ⟨by decide, fun _ there => absurd there List.not_mem_nil⟩
  chunk' _ given := by cases given
  away _ _ _ given := by cases given
  block cb pvBlock given := by
    unfold sampleAnswers at given
    dsimp only at given
    split_ifs at given with size
    obtain rfl := Option.some.inj given
    exact ⟨by omega, by omega, by omega, fun _ there => absurd there List.not_mem_nil⟩

theorem sampleHeap_reached (debug : Bool) (meets : Op → SwpHeap → Prop) :
    Reached debug meets sampleHeap :=
  .init sampleAnswers_sound sampleHeap_init

theorem secondAnswers_sound : secondAnswers.Sound sampleHeap where
  chunk _ given := by cases given
  chunk' _ given := by cases given
  away _ _ given := by cases given
  block cb pvBlock given := by
    unfold secondAnswers at given
    dsimp only at given
    split_ifs at given with size
    obtain rfl := Option.some.inj given
    refine ⟨by omega, by omega, by omega, fun pha there => ?_⟩
    obtain rfl := List.mem_singleton.1 there
    refine .inr ?_
    show 0x100000 + 0x40000 ≤ 0x200000
    omega

/-- Nothing more is given. -/
def noAnswers : Answers := ⟨none, none, none, fun _ => none⟩

theorem noAnswers_sound (h : SwpHeap) : noAnswers.Sound h where
  chunk _ given := by cases given
  chunk' _ given := by cases given
  away _ _ given := by cases given
  block _ _ given := by cases given

/-- Whatever is called. -/
def AnyCall : Op → SwpHeap → Prop := fun _ _ => True

/-- The first heap again, with one more descriptor marked. -/
def lostHeap : SwpHeap :=
  { sampleHeap with chunks := [⟨0x10000, 254, true :: true :: List.replicate 254 false⟩] }

theorem lostHeap_run : ((step false secondAnswers (.malloc 0x40004) sampleHeap).bind fun r =>
    (step false noAnswers (.free 0x23fffc) r.1).bind fun r => step false noAnswers .heapmin r.1) =
      .ok (lostHeap, none) := by
  decide +kernel

theorem lostHeap_reached : Reached false AnyCall lostHeap := by
  have run := lostHeap_run
  cases first : step false secondAnswers (.malloc 0x40004) sampleHeap with
  | error trap =>
    rw [first] at run
    cases run
  | ok r₁ =>
    rw [first] at run
    have reached₁ := Reached.step (sampleHeap_reached false AnyCall) secondAnswers_sound trivial
      first
    cases second : step false noAnswers (.free 0x23fffc) r₁.1 with
    | error trap =>
      have stopped : (step false noAnswers (.free 0x23fffc) r₁.1).bind
        (fun r => step false noAnswers .heapmin r.1) = .ok (lostHeap, none) := run
      rw [second] at stopped
      cases stopped
    | ok r₂ =>
      have last : (step false noAnswers (.free 0x23fffc) r₁.1).bind
        (fun r => step false noAnswers .heapmin r.1) = .ok (lostHeap, none) := run
      rw [second] at last
      have third : step false noAnswers .heapmin r₂.1 = .ok (lostHeap, none) := last
      exact .step (.step reached₁ (noAnswers_sound _) trivial second) (noAnswers_sound _) trivial
        third

end Odin32.SwpHeap
