import Odin32.ResHeapReach

/-! # Finding pointers of the resident heap

A pointer to the first byte of a block in use leads back to the block. The search for a pointer
anywhere in a block asks for the first block at or behind the pointer, and finds none. -/

set_option autoImplicit false

namespace Odin32.ResHeap
open Odin32.RankedTree Odin32.Avl Odin32.AvlTable Odin32.AvlSearch Odin32.FreeSize
open Odin32.HeapBlocks Odin32.Word

variable {debug : Bool} {h : ResHeap} {pv cb : ℕ} {pha : HeapAnchor} {c : Memblock}

instance : Std.Symm Outside := ⟨fun _ _ => Or.symm⟩

theorem findAnchor_of_mem {anchors : List HeapAnchor} (apart : anchors.Pairwise Outside)
    (word : ∀ p ∈ anchors, p.last < 0x100000000) (there : pha ∈ anchors) (low : pha.pha < pv)
    (high : pv < pha.last) : ∃ place, findAnchor pv anchors = some place ∧ place.2.1 = pha := by
  induction anchors with
  | nil => exact absurd there List.not_mem_nil
  | cons p rest ih =>
    obtain ⟨outside, later⟩ := List.pairwise_cons.1 apart
    have total : add32 p.pha p.cbSize = p.last := add32_of_lt (word p List.mem_cons_self)
    rw [findAnchor, total]
    rcases List.mem_cons.1 there with rfl | there
    · exact ⟨_, if_pos ⟨low, high⟩, rfl⟩
    · have elsewhere : ¬(p.pha < pv ∧ pv < p.last) := by
        have apart := outside pha there
        unfold Outside at apart
        omega
      obtain ⟨place, found, same⟩ := ih later
        (fun q member => word q (List.mem_cons_of_mem _ member)) there
      rw [if_neg elsewhere, found]
      exact ⟨_, rfl, same⟩

theorem HeapOk.word (ok : HeapOk debug h) : ∀ p ∈ h.anchors, p.last < 0x100000000 :=
  fun p there => (ok.anchor p there).holds.laid.word

theorem HeapOk.inside (ok : HeapOk debug h) (there : pha ∈ h.anchors)
    (used : c ∈ usedBlocks pha.trees) :
    0x1000 ≤ pha.pha ∧ pha.pha + cbHeapAnchor debug ≤ c.uData ∧
      c.uData + cbHdr debug + c.cbSize ≤ pha.last ∧ 16 ≤ c.cbSize := by
  have anchor := ok.anchor pha there
  have member := anchor.holds.mem_used used
  exact ⟨anchor.page, (anchor.holds.laid.tiles.inside member).1,
    (anchor.holds.laid.tiles.inside member).2, anchor.holds.laid.large c member⟩

theorem HeapOk.blocks_apart (ok : HeapOk debug h) {p q : HeapAnchor} (thereP : p ∈ h.anchors)
    (thereQ : q ∈ h.anchors) {c d : Memblock} (usedC : c ∈ usedBlocks p.trees)
    (usedD : d ∈ usedBlocks q.trees) (differ : d ≠ c) :
    endOf (cbHdr debug) c ≤ d.uData ∨ endOf (cbHdr debug) d ≤ c.uData := by
  obtain ⟨-, lowC, highC, -⟩ := ok.inside thereP usedC
  obtain ⟨-, lowD, highD, -⟩ := ok.inside thereQ usedD
  have endC : endOf (cbHdr debug) c = c.uData + cbHdr debug + c.cbSize := rfl
  have endD : endOf (cbHdr debug) d = d.uData + cbHdr debug + d.cbSize := rfl
  by_cases same : p = q
  · subst same
    have holds := (ok.anchor p thereP).holds
    obtain ⟨rest, cut⟩ := exists_cons (holds.mem_used usedC)
    exact (holds.laid.tiles.perm cut).apart_of_mem
      ((List.mem_cons.1 (cut.mem_iff.1 (holds.mem_used usedD))).resolve_left differ)
  · rcases ok.apart.forall thereP thereQ same with before | behind
    · exact .inl (by omega)
    · exact .inr (by omega)

theorem findUsed_of_mem (ok : HeapOk debug h) (there : pha ∈ h.anchors)
    (used : c ∈ usedBlocks pha.trees) :
    ∃ place, resFindUsedBlock debug (c.uData + cbHdr debug) h = some (place, c) := by
  obtain ⟨page, low, high, large⟩ := ok.inside there used
  have word := ok.word pha there
  have header := cbHeapAnchor_pos debug
  obtain ⟨place, found, rfl⟩ :
      ∃ place, findAnchor (c.uData + cbHdr debug) h.anchors = some place ∧ place.2.1 = pha :=
    findAnchor_of_mem ok.apart ok.word there (by omega) (by omega)
  have indexed := (ok.anchor place.2.1 there).holds.used
  have less : sub32 (c.uData + cbHdr debug) (cbHdr debug) = c.uData := by
    rw [sub32_of_le (by omega) (by omega)]
    omega
  have got := get_of_mem indexed.avl (indexed.mem.2 ⟨used, rfl⟩ : (c.uData, c) ∈ _)
  refine ⟨place, ?_⟩
  unfold resFindUsedBlock
  rw [if_neg (by omega), found]
  show (avlGet (sub32 (c.uData + cbHdr debug) (cbHdr debug)) place.2.1.trees.pcoreUsed).bind _ = _
  rw [less, got]
  rfl

theorem msize_of_mem (ok : HeapOk debug h) (there : pha ∈ h.anchors)
    (used : c ∈ usedBlocks pha.trees) : resMsize debug (c.uData + cbHdr debug) h = c.cbSize := by
  obtain ⟨place, found⟩ := findUsed_of_mem ok there used
  unfold resMsize
  rw [found]

theorem findWithin_none (ok : HeapOk debug h) (pv : ℕ) :
    resFindWithinUsedBlock debug pv h = none := by
  unfold resFindWithinUsedBlock
  cases found : findAnchor pv h.anchors with
  | none => rfl
  | some place =>
    obtain ⟨cut, -⟩ := findAnchor_some found
    have there : place.2.1 ∈ h.anchors := cut ▸ List.mem_append_right _ List.mem_cons_self
    have indexed := (ok.anchor place.2.1 there).holds.used
    have spec := getBestFit_spec pv true indexed.avl.ordered
    show (avlGetBestFit pv true place.2.1.trees.pcoreUsed none).bind _ = none
    cases best : avlGetBestFit pv true place.2.1.trees.pcoreUsed none with
    | none => rfl
    | some e =>
      rw [best] at spec
      obtain ⟨member, fits, -⟩ := spec
      have above : pv ≤ e.1 := fits
      obtain ⟨used, start⟩ := indexed.mem.1 member
      obtain ⟨-, low, high, large⟩ := ok.inside there used
      have word := ok.word _ there
      have header := cbHdr_pos debug
      have user : add32 e.2.uData (cbHdr debug) = e.2.uData + cbHdr debug :=
        add32_of_lt (by omega)
      show (if pv < _ ∧ add32 e.2.uData (cbHdr debug) ≤ pv then some e.2 else none) = none
      rw [user]
      exact if_neg fun inside => by omega

/-! ## What the user sees of a block -/

/-- The address of a byte of some block in use. -/
def UserByte (debug : Bool) (pv : ℕ) (h : ResHeap) : Prop :=
  ∃ c, InUse h c ∧ c.uData + cbHdr debug ≤ pv ∧ pv < c.uData + cbHdr debug + c.cbSize

/-- The `cb` bytes, at least one, lie in one block in use. -/
def UserBytes (debug : Bool) (pv cb : ℕ) (h : ResHeap) : Prop :=
  1 ≤ cb ∧ ∃ c, InUse h c ∧ c.uData + cbHdr debug ≤ pv ∧ pv + cb ≤ c.uData + cbHdr debug + c.cbSize

theorem UserBytes.first (bytes : UserBytes debug pv cb h) : UserByte debug pv h := by
  obtain ⟨pos, c, used, low, high⟩ := bytes
  exact ⟨c, used, low, by omega⟩

theorem resValidptr_false (ok : HeapOk debug h) (pv : ℕ) : resValidptr debug pv h = false := by
  unfold resValidptr
  rw [findWithin_none ok pv]
  rfl

theorem resValidptr2_false (ok : HeapOk debug h) (pv cb : ℕ) :
    resValidptr2 debug pv cb h = false := by
  unfold resValidptr2
  rw [findWithin_none ok pv]

end Odin32.ResHeap
