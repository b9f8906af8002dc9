import Odin32.SwpDescriptors

/-! # Finding pointers of the swappable heap

A pointer to the first byte of a block in use leads back to the block, unless the block is the one
its anchor starts with and has no signature before its bytes. The search for a pointer anywhere in a
block asks for the first block at or behind the pointer. -/

set_option autoImplicit false

namespace Odin32.SwpHeap
open Odin32.RankedTree Odin32.Avl Odin32.AvlTable Odin32.AvlSearch Odin32.FreeSize
open Odin32.HeapBlocks Odin32.Word

variable {debug : Bool} {lost : List ℕ} {h : SwpHeap} {pv cb : ℕ} {pha : HeapAnchor} {c : Memblock}

instance : Std.Symm Outside := ⟨fun _ _ => Or.symm⟩

theorem findAnchor_of_mem {anchors : List HeapAnchor} (apart : anchors.Pairwise Outside)
    (word : ∀ p ∈ anchors, p.last < 0x100000000) (there : pha ∈ anchors) (low : pha.pvBlock < pv)
    (high : pv < pha.last) : ∃ place, findAnchor pv anchors = some place ∧ place.2.1 = pha := by
  induction anchors with
  | nil => exact absurd there List.not_mem_nil
  | cons p rest ih =>
    obtain ⟨outside, later⟩ := List.pairwise_cons.1 apart
    have total : add32 p.pvBlock p.cbSize = p.last := add32_of_lt (word p List.mem_cons_self)
    rw [findAnchor, total]
    rcases List.mem_cons.1 there with rfl | there
    · exact ⟨_, if_pos ⟨low, high⟩, rfl⟩
    · have elsewhere : ¬(p.pvBlock < pv ∧ pv < p.last) := by
        have apart := outside pha there
        unfold Outside at apart
        omega
      obtain ⟨place, found, same⟩ := ih later
        (fun q member => word q (List.mem_cons_of_mem _ member)) there
      rw [if_neg elsewhere, found]
      exact ⟨_, rfl, same⟩

theorem HeapOk.word (ok : HeapOk debug lost h) : ∀ p ∈ h.anchors, p.last < 0x100000000 :=
  fun p there => (ok.anchor p there).holds.laid.word

theorem HeapOk.inside (ok : HeapOk debug lost h) (there : pha ∈ h.anchors)
    (used : c ∈ usedBlocks pha.trees) :
    0x1000 ≤ pha.pvBlock ∧ pha.pvBlock ≤ c.uData ∧ c.uData + c.cbSize ≤ pha.last ∧
      least debug ≤ c.cbSize := by
  have anchor := ok.anchor pha there
  have member := anchor.holds.mem_used used
  exact ⟨anchor.page, (anchor.holds.laid.tiles.inside member).1,
    (anchor.holds.laid.tiles.inside member).2, anchor.holds.laid.large c member⟩

theorem HeapOk.blocks_apart (ok : HeapOk debug lost h) {p q : HeapAnchor} (thereP : p ∈ h.anchors)
    (thereQ : q ∈ h.anchors) {c d : Memblock} (usedC : c ∈ usedBlocks p.trees)
    (usedD : d ∈ usedBlocks q.trees) (differ : d ≠ c) :
    endOf 0 c ≤ d.uData ∨ endOf 0 d ≤ c.uData := by
  obtain ⟨-, lowC, highC, -⟩ := ok.inside thereP usedC
  obtain ⟨-, lowD, highD, -⟩ := ok.inside thereQ usedD
  have endC : endOf 0 c = c.uData + c.cbSize := rfl
  have endD : endOf 0 d = d.uData + d.cbSize := rfl
  by_cases same : p = q
  · subst same
    have holds := (ok.anchor p thereP).holds
    obtain ⟨rest, cut⟩ := exists_cons (holds.mem_used usedC)
    exact (holds.laid.tiles.perm cut).apart_of_mem
      ((List.mem_cons.1 (cut.mem_iff.1 (holds.mem_used usedD))).resolve_left differ)
  · rcases ok.apart.forall thereP thereQ same with before | behind
    · exact .inl (by omega)
    · exact .inr (by omega)

theorem findUsed_of_mem (ok : HeapOk debug lost h) (there : pha ∈ h.anchors)
    (used : c ∈ usedBlocks pha.trees) (behind : pha.pvBlock < c.uData + cbSignature debug) :
    ∃ place, swpFindUsedBlock debug (c.uData + cbSignature debug) h = some (place, c) := by
  obtain ⟨page, low, high, large⟩ := ok.inside there used
  have word := ok.word pha there
  have pos := least_pos debug
  have signatures := signatures_le_least debug
  have twice := signature_le debug
  obtain ⟨place, found, rfl⟩ : ∃ place, findAnchor (c.uData + cbSignature debug) h.anchors =
      some place ∧ place.2.1 = pha :=
    findAnchor_of_mem ok.apart ok.word there behind (by omega)
  have indexed := (ok.anchor place.2.1 there).holds.used
  have less : sub32 (c.uData + cbSignature debug) (cbSignature debug) = c.uData := by
    rw [sub32_of_le (by omega) (by omega)]
    omega
  have got := get_of_mem indexed.avl (indexed.mem.2 ⟨used, rfl⟩ : (c.uData, c) ∈ _)
  refine ⟨place, ?_⟩
  unfold swpFindUsedBlock
  rw [if_neg (by omega), found]
  show (avlGet (sub32 (c.uData + cbSignature debug) (cbSignature debug))
    place.2.1.trees.pcoreUsed).bind _ = _
  rw [less, got]
  rfl

theorem msize_of_mem (ok : HeapOk debug lost h) (there : pha ∈ h.anchors)
    (used : c ∈ usedBlocks pha.trees) (behind : pha.pvBlock < c.uData + cbSignature debug) :
    swpMsize debug (c.uData + cbSignature debug) h = c.cbSize - cbSignatures debug := by
  obtain ⟨place, found⟩ := findUsed_of_mem ok there used behind
  obtain ⟨page, low, high, large⟩ := ok.inside there used
  have word := ok.word pha there
  have signatures := signatures_le_least debug
  unfold swpMsize
  rw [found]
  exact sub32_of_le (by omega) (by omega)

theorem findWithin_some (ok : HeapOk debug lost h)
    (found : swpFindWithinUsedBlock debug pv h = some c) :
    pv = c.uData + cbSignature debug ∧ pv < c.uData + c.cbSize - cbSignature debug ∧
      c.uData + c.cbSize < 0x100000000 ∧
      ∃ pha ∈ h.anchors, c ∈ usedBlocks pha.trees ∧ pha.pvBlock < pv := by
  unfold swpFindWithinUsedBlock at found
  split_ifs at found with null
  simp only [Option.bind_eq_bind, Option.bind_eq_some_iff] at found
  obtain ⟨place, anchor, e, best, found⟩ := found
  obtain ⟨cut, low, high⟩ := findAnchor_some anchor
  have there : place.2.1 ∈ h.anchors := cut ▸ List.mem_append_right _ List.mem_cons_self
  have indexed := (ok.anchor place.2.1 there).holds.used
  have spec := getBestFit_spec (sub32 pv (cbSignature debug)) true indexed.avl.ordered
  rw [best] at spec
  obtain ⟨member, fits, -⟩ := spec
  have above : sub32 pv (cbSignature debug) ≤ e.1 := fits
  obtain ⟨used, start⟩ := indexed.mem.1 member
  obtain ⟨page, behind, ends, large⟩ := ok.inside there used
  have word := ok.word _ there
  have signatures := signatures_le_least debug
  have eight := signatures_le debug
  have twice := signature_le debug
  have total := add32_lt place.2.1.pvBlock place.2.1.cbSize
  have less : sub32 pv (cbSignature debug) = pv - cbSignature debug :=
    sub32_of_le (by omega) (by omega)
  have size : add32 e.2.uData e.2.cbSize = e.2.uData + e.2.cbSize := add32_of_lt (by omega)
  have stop : sub32 (e.2.uData + e.2.cbSize) (cbSignature debug) =
      e.2.uData + e.2.cbSize - cbSignature debug := sub32_of_le (by omega) (by omega)
  have user : add32 e.2.uData (cbSignature debug) = e.2.uData + cbSignature debug :=
    add32_of_lt (by omega)
  rw [size, stop, user] at found
  split_ifs at found with inside
  obtain rfl := Option.some.inj found
  exact ⟨by omega, by omega, by omega, place.2.1, there, used, low⟩

theorem findWithin_of_mem (ok : HeapOk debug lost h) (there : pha ∈ h.anchors)
    (used : c ∈ usedBlocks pha.trees) (behind : pha.pvBlock < c.uData + cbSignature debug)
    (bytes : cbSignatures debug < c.cbSize) :
    swpFindWithinUsedBlock debug (c.uData + cbSignature debug) h = some c := by
  obtain ⟨page, low, high, large⟩ := ok.inside there used
  have word := ok.word pha there
  have signatures := signatures_le_least debug
  have twice := signature_le debug
  obtain ⟨place, found, rfl⟩ : ∃ place, findAnchor (c.uData + cbSignature debug) h.anchors =
      some place ∧ place.2.1 = pha :=
    findAnchor_of_mem ok.apart ok.word there behind (by omega)
  have indexed := (ok.anchor place.2.1 there).holds.used
  have less : sub32 (c.uData + cbSignature debug) (cbSignature debug) = c.uData := by
    rw [sub32_of_le (by omega) (by omega)]
    omega
  have member : (c.uData, c) ∈ entries place.2.1.trees.pcoreUsed := indexed.mem.2 ⟨used, rfl⟩
  have spec := getBestFit_spec c.uData true indexed.avl.ordered
  have size : add32 c.uData c.cbSize = c.uData + c.cbSize := add32_of_lt (by omega)
  have stop : sub32 (c.uData + c.cbSize) (cbSignature debug) =
      c.uData + c.cbSize - cbSignature debug := sub32_of_le (by omega) (by omega)
  have user : add32 c.uData (cbSignature debug) = c.uData + cbSignature debug :=
    add32_of_lt (by omega)
  have best : avlGetBestFit c.uData true place.2.1.trees.pcoreUsed none = some (c.uData, c) := by
    cases best : avlGetBestFit c.uData true place.2.1.trees.pcoreUsed none with
    | none =>
      rw [best] at spec
      exact absurd (Nat.le_refl c.uData) (spec _ member)
    | some e =>
      rw [best] at spec
      obtain ⟨member', fits, nearest⟩ := spec
      have above : c.uData ≤ e.1 := fits
      have nearer : e.1 ≤ c.uData := nearest _ member (Nat.le_refl c.uData)
      obtain ⟨key, block⟩ := e
      obtain rfl : key = c.uData := Nat.le_antisymm nearer above
      rw [val_unique indexed.avl.ordered member' member]
  unfold swpFindWithinUsedBlock
  rw [if_neg (by omega), found]
  show (avlGetBestFit (sub32 (c.uData + cbSignature debug) (cbSignature debug)) true
    place.2.1.trees.pcoreUsed none).bind _ = _
  rw [less, best]
  show (if _ < sub32 (add32 c.uData c.cbSize) (cbSignature debug) ∧
    add32 c.uData (cbSignature debug) ≤ _ then some c else none) = some c
  rw [size, stop, user]
  exact if_pos ⟨by omega, Nat.le_refl _⟩

/-! ## What the user sees of a block -/

/-- The address of a byte of the block between its signatures. -/
def ByteOf (debug : Bool) (pv : ℕ) (c : Memblock) : Prop :=
  c.uData + cbSignature debug ≤ pv ∧ pv + cbSignature debug < c.uData + c.cbSize

def UserByte (debug : Bool) (pv : ℕ) (h : SwpHeap) : Prop := ∃ c, InUse h c ∧ ByteOf debug pv c

/-- The `cb` bytes, at least one, lie in one block in use. -/
def UserBytes (debug : Bool) (pv cb : ℕ) (h : SwpHeap) : Prop :=
  1 ≤ cb ∧ ∃ c, InUse h c ∧ c.uData + cbSignature debug ≤ pv ∧
    pv + cb + cbSignature debug ≤ c.uData + c.cbSize

theorem swpValidptr_iff (ok : HeapOk debug lost h) :
    swpValidptr debug pv h = true ↔ debug = false ∧
      ∃ pha ∈ h.anchors, ∃ c ∈ usedBlocks pha.trees, pv = c.uData ∧ pha.pvBlock < pv := by
  unfold swpValidptr
  constructor
  · intro valid
    cases found : swpFindWithinUsedBlock debug pv h with
    | none =>
      rw [found] at valid
      cases valid
    | some c =>
      rw [found] at valid
      obtain ⟨start, stop, word, pha, there, used, behind⟩ := findWithin_some ok found
      obtain ⟨page, low, high, large⟩ := ok.inside there used
      have top := ok.word pha there
      have twice := signature_le debug
      simp only [Bool.and_eq_true, decide_eq_true_eq] at valid
      have first : sub32 pv c.uData = cbSignature debug := by
        rw [sub32_of_le (by omega) (by omega)]
        omega
      rw [first] at valid
      cases debug with
      | false => exact ⟨rfl, pha, there, c, used, start, behind⟩
      | true =>
        have wraps : sub32 (cbSignature true) (cbSignatures true) = 0xfffffffc := rfl
        omega
  · rintro ⟨rfl, pha, there, c, used, rfl, behind⟩
    obtain ⟨page, low, high, large⟩ := ok.inside there used
    have word := ok.word pha there
    have one : least false = 1 := rfl
    have found := findWithin_of_mem ok there used behind (Nat.lt_of_lt_of_le Nat.one_pos large)
    have found : swpFindWithinUsedBlock false c.uData h = some c := found
    have same : sub32 c.uData (cbSignature false) = c.uData := sub32_of_le (Nat.zero_le _) (by omega)
    have zero : sub32 c.uData c.uData = 0 := by
      rw [sub32_of_le (Nat.le_refl _) (by omega), Nat.sub_self]
    have none_ : sub32 0 (cbSignatures false) = 0 := rfl
    rw [found]
    simp only [same, zero, none_, Bool.and_eq_true, decide_eq_true_eq]
    omega

theorem swpValidptr2_false (ok : HeapOk debug lost h) (pv cb : ℕ) :
    swpValidptr2 debug pv cb h = false := by
  unfold swpValidptr2
  cases found : swpFindWithinUsedBlock debug pv h with
  | none => rfl
  | some c =>
    obtain ⟨start, stop, word, -⟩ := findWithin_some ok found
    have first : sub32 pv c.uData = cbSignature debug := by
      rw [sub32_of_le (by omega) (by omega)]
      omega
    simp only [first, Nat.lt_irrefl, decide_false, Bool.false_and]

/-! ## A heap with one block in use -/

/-- The first heap with a block of eight bytes at its end. -/
def usedHeap : SwpHeap :=
  ⟨[⟨0x5000, 0x100000, 0x40000,
    ⟨.node 0x100000 ⟨0x10028, 0x100000, 0x3fff8⟩ 1 .nil .nil,
      .node 0x3fff8 (⟨0x10028, 0x100000, 0x3fff8⟩, []) 1 .nil .nil, 0x3fff8,
      .node 0x13fff8 ⟨0x1004c, 0x13fff8, 8⟩ 1 .nil .nil, 8⟩⟩], 0x1000000,
    [⟨0x10000, 254, true :: true :: List.replicate 254 false⟩]⟩

theorem usedHeap_run : step false noAnswers (.malloc 8) sampleHeap =
    .ok (usedHeap, some 0x13fff8) := by
  decide +kernel

theorem usedHeap_reached (meets : Op → SwpHeap → Prop) (met : meets (.malloc 8) sampleHeap) :
    Reached false meets usedHeap :=
  .step (sampleHeap_reached false meets) (noAnswers_sound _) met usedHeap_run

end Odin32.SwpHeap
