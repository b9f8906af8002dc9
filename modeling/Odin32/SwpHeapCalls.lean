import Odin32.SwpHeapHold

/-! # The calls of the swappable heap

Each call leaves the blocks of every anchor a tiling and the descriptors in step with the blocks.
A call that answers no pointer changes no block; the one trap it can run into, apart from the
stack of an AVL operation, is the anchor that `rmalloc` did not give. -/

set_option autoImplicit false

namespace Odin32.SwpHeap
open Odin32.RankedTree Odin32.Avl Odin32.AvlTable Odin32.FreeSize Odin32.HeapBlocks
open Odin32.MemblockPool Odin32.Tiling Odin32.Word

variable {debug : Bool} {lost : List ℕ} {place : Place} {trees : BlockTrees}
variable {chunks : List MemblockChunk} {F U L : List Memblock}

theorem least_pos (debug : Bool) : 0 < least debug :=
  Nat.lt_of_lt_of_le Nat.one_pos (Nat.le_max_left _ _)

theorem signatures_le_least (debug : Bool) : cbSignatures debug ≤ least debug :=
  Nat.le_max_right _ _

theorem signatures_le (debug : Bool) : cbSignatures debug ≤ 8 := by
  cases debug <;> decide

/-- The same blocks in the same trees, with the same counters. -/
structure SameTrees (a a' : BlockTrees) : Prop where
  free : a'.pcoreFree = a.pcoreFree
  used : a'.pcoreUsed = a.pcoreUsed
  cbFree : a'.cbFree = a.cbFree
  cbUsed : a'.cbUsed = a.cbUsed

theorem Opened.size_lt (opened : Opened debug lost place trees chunks F U L) {b : Memblock}
    (there : b ∈ L ++ (F ++ U)) : b.cbSize + 0x1000 < 0x100000000 := by
  have word := opened.holds.laid.end_word there
  have low := (opened.holds.laid.tiles.inside there).1
  have page := opened.page
  unfold endOf at word
  omega

theorem Opened.withF (opened : Opened debug lost place trees chunks F U L) {F' : List Memblock}
    (same : F.Perm F') : Opened debug lost place trees chunks F' U L := by
  refine ⟨opened.others, opened.apart, opened.page,
    opened.holds.perm same (List.Perm.refl _) (List.Perm.refl _), opened.pool,
    opened.nodes.trans (List.Perm.append_left _ (List.Perm.append_right _ ?_))⟩
  exact ((same.append_right U).append_left L).map _

theorem Opened.withU (opened : Opened debug lost place trees chunks F U L) {U' : List Memblock}
    (same : U.Perm U') : Opened debug lost place trees chunks F U' L := by
  refine ⟨opened.others, opened.apart, opened.page,
    opened.holds.perm (List.Perm.refl _) same (List.Perm.refl _), opened.pool,
    opened.nodes.trans (List.Perm.append_left _ (List.Perm.append_right _ ?_))⟩
  exact ((same.append_left F).append_left L).map _

theorem ok_bind {α β : Type} (x : α) (f : α → Except Trap β) : (Except.ok x >>= f) = f x := rfl

/-! ## Finding memory -/

section Search

variable {cb : ℕ}

/-- The block is on its way out of the anchor, and either the best fit or cut off its end. -/
structure Taken (debug : Bool) (lost : List ℕ) (place : Place) (trees : BlockTrees)
    (U : List Memblock) (cb : ℕ) (trees' : BlockTrees) (chunks' : List MemblockChunk)
    (pmb : Memblock) : Prop where
  opened : ∃ F, Opened debug lost place trees' chunks' F U [pmb]
  size : cb ≤ pmb.cbSize
  start : (bestFit cb trees = some pmb ∧ pmb.cbSize ≤ cb + cbSignatures debug) ∨
    place.2.1.pvBlock < pmb.uData

/-- What the search can make of an anchor with the free blocks `F`. -/
inductive Took (debug : Bool) (lost : List ℕ) (place : Place) (trees : BlockTrees)
    (F U : List Memblock) (cb : ℕ) : Except Trap Attempt → Prop
  | tooSmall (none_ : ¬Fits cb F) : Took debug lost place trees F U cb (.ok .tooSmall)
  | null {trees' : BlockTrees} {chunks' : List MemblockChunk} (fits : Fits cb F)
      (opened : Opened debug lost place trees' chunks' F U []) (same : SameTrees trees trees') :
      Took debug lost place trees F U cb (.ok (.null trees' chunks'))
  | block {trees' : BlockTrees} {chunks' : List MemblockChunk} {pmb : Memblock}
      (fits : Fits cb F) (taken : least debug ≤ cb → Taken debug lost place trees U cb trees'
        chunks' pmb) :
      Took debug lost place trees F U cb (.ok (.block trees' chunks' pmb))
  | overrun (fits : Fits cb F) : Took debug lost place trees F U cb (.error .stackOverrun)

theorem takeFrom_spec (opened : Opened debug lost place trees chunks F U [])
    {rmalloc : Option ℕ}
    (fresh : ∀ pmc, rmalloc = some pmc → Fresh chunks pmc) :
    Took debug lost place trees F U cb (takeFrom debug cb rmalloc trees chunks) := by
  unfold takeFrom
  split_ifs with few
  · exact .tooSmall fun fits => Nat.not_le_of_lt few (fits_le_free opened.holds fits)
  · cases found : bestFit cb trees with
    | none => exact .tooSmall (bestFit_none opened.holds found)
    | some pmb =>
      obtain ⟨there, size⟩ := bestFit_some opened.holds found
      have fits : Fits cb F := ⟨pmb, there, size⟩
      obtain ⟨rest, cut⟩ := exists_cons there
      have front := opened.withF cut
      have bound := opened.size_lt (List.mem_append_right _ (List.mem_append_left _ there))
      have signatures := signatures_le debug
      have sum : add32 cb (cbSignatures debug) = cb + cbSignatures debug :=
        add32_of_lt (by omega)
      simp only [sum]
      split_ifs with more
      · obtain ⟨chunks', node, allocated_, opened'⟩ := front.allocate fresh
        rw [allocated_]
        cases node with
        | none =>
          show Took _ _ _ _ _ _ _ (orTrap .stackOverrun (putBack pmb trees) >>= _)
          cases put : putBack pmb trees with
          | none => exact .overrun fits
          | some trees' =>
            obtain ⟨holds, free, used, cbFree, cbUsed⟩ := putBack_spec opened'.holds put
            exact .null fits (Opened.withF ⟨opened'.others, opened'.apart, opened'.page, holds,
              opened'.pool, opened'.nodes⟩ cut.symm) ⟨free, used, cbFree, cbUsed⟩
        | some node =>
          show Took _ _ _ _ _ _ _ (orTrap .stackOverrun (carve 0 cb pmb trees) >>= _)
          cases carved_ : carve 0 cb pmb trees with
          | none => exact .overrun fits
          | some trees' =>
            refine .block fits fun large => ?_
            have rest_large : least debug + (0 + cb) ≤ pmb.cbSize := by
              have leastEq : least debug = max 1 (cbSignatures debug) := rfl
              omega
            have opened' : Opened debug (node :: lost) place trees chunks' (pmb :: rest) U [] :=
              opened'
            obtain ⟨holds, used⟩ := @carve_spec 0 _ _ _ trees trees' rest U [] pmb opened'.holds
              cb node (least_pos debug) large rest_large opened'.fresh carved_
            refine ⟨⟨_, opened'.others, opened'.apart, opened'.page, holds, opened'.pool,
              opened'.nodes.trans (List.perm_iff_count.2 fun x => ?_)⟩, Nat.le_refl _, .inr ?_⟩
            · simp only [List.map_append, List.map_cons, List.cons_append, List.count_append,
                List.count_cons, carved, resized, List.nil_append]
              omega
            · -- the rest of the free block keeps its start
              have parts := holds.laid.tiles
              have whole := parts.inside (List.mem_append_right _
                (List.mem_append_left _ List.mem_cons_self) : resized (pmb.cbSize - (0 + cb)) pmb ∈
                  [carved cb node pmb] ++ (resized (pmb.cbSize - (0 + cb)) pmb :: rest ++ U))
              have start : (carved cb node pmb).uData = pmb.uData + pmb.cbSize - cb := by
                have word := front.holds.laid.end_word (List.mem_cons_self : pmb ∈ pmb :: _)
                have ending : endOf 0 pmb = pmb.uData + 0 + pmb.cbSize := rfl
                have total : add32 pmb.uData pmb.cbSize = pmb.uData + pmb.cbSize :=
                  add32_of_lt (by omega)
                show sub32 (add32 pmb.uData pmb.cbSize) cb = _
                rw [total]
                exact sub32_of_le (by omega) (by omega)
              have low : (resized (pmb.cbSize - (0 + cb)) pmb).uData = pmb.uData := rfl
              omega
      · show Took _ _ _ _ _ _ _ (orTrap .stackOverrun (takeWhole pmb trees) >>= _)
        cases taken : takeWhole pmb trees with
        | none => exact .overrun fits
        | some r =>
          obtain ⟨trees', ok⟩ := r
          obtain ⟨rfl, holds, used⟩ := takeWhole_spec front.holds taken
          refine .block fits fun _ => ⟨⟨_, front.others, front.apart, front.page, holds, front.pool,
            front.nodes.trans (List.perm_iff_count.2 fun x => ?_)⟩, size,
            .inl ⟨found, Nat.le_of_not_lt more⟩⟩
          simp only [List.map_append, List.map_cons, List.cons_append, List.count_append,
            List.count_cons, List.nil_append]

structure SameAnchor (p q : HeapAnchor) : Prop where
  pha : q.pha = p.pha
  pvBlock : q.pvBlock = p.pvBlock
  cbSize : q.cbSize = p.cbSize
  trees : SameTrees p.trees q.trees

/-- The same anchors with the same blocks, and as many descriptors in use. -/
structure Same (h h' : SwpHeap) : Prop where
  anchors : List.Forall₂ SameAnchor h.anchors h'.anchors
  descriptors : (allocated h'.chunks).length = (allocated h.chunks).length

theorem SameTrees.refl (a : BlockTrees) : SameTrees a a := ⟨rfl, rfl, rfl, rfl⟩

theorem SameAnchor.refl (p : HeapAnchor) : SameAnchor p p := ⟨rfl, rfl, rfl, SameTrees.refl _⟩

theorem forall₂_same (anchors : List HeapAnchor) : List.Forall₂ SameAnchor anchors anchors :=
  List.forall₂_same.2 fun p _ => SameAnchor.refl p

def InUse (h : SwpHeap) (c : Memblock) : Prop := ∃ pha ∈ h.anchors, c ∈ usedBlocks pha.trees

/-- The first anchor with a large enough block offers the block it starts with, and whole. -/
def WholeFirst (debug : Bool) (cb : ℕ) (h : SwpHeap) : Prop :=
  ∃ front pha back b, h.anchors = front ++ pha :: back ∧
    (∀ p ∈ front, ¬Fits cb (freeBlocks p.trees)) ∧ bestFit cb pha.trees = some b ∧
    b.uData = pha.pvBlock ∧ b.cbSize ≤ cb + cbSignatures debug

/-- A block that is in no tree, of the anchor of the place. -/
structure Given (debug : Bool) (lost : List ℕ) (h : SwpHeap) (cb : ℕ) (place : Place)
    (chunks : List MemblockChunk) (pmb : Memblock) : Prop where
  opened : ∃ F U, Opened debug lost place place.2.1.trees chunks F U [pmb]
  size : cb ≤ pmb.cbSize
  start : place.2.1.pvBlock < pmb.uData ∨ WholeFirst debug cb h
  new : ∀ c, InUse h c → c.uData ≠ pmb.uData

theorem outside_of_pairwise {front back : List HeapAnchor} {pha other : HeapAnchor}
    (apart : (front ++ pha :: back).Pairwise Outside) (there : other ∈ front ++ back) :
    Outside pha other := by
  obtain ⟨-, later, across⟩ := List.pairwise_append.1 apart
  rcases List.mem_append.1 there with before | behind
  · exact (across other before pha List.mem_cons_self).symm
  · exact (List.pairwise_cons.1 later).1 other behind

theorem Opened.retree {front back : List HeapAnchor} {pha : HeapAnchor}
    (opened : Opened debug lost (front, pha, back) trees chunks F U L) (trees' : BlockTrees) :
    Opened debug lost (front, { pha with trees := trees' }, back) trees chunks F U L := by
  refine ⟨opened.others, ?_, opened.page, opened.holds, opened.pool, opened.nodes⟩
  have apart := opened.apart
  simp only [List.pairwise_append, List.pairwise_cons, List.mem_cons, forall_eq_or_imp] at apart ⊢
  exact apart

theorem Opened.start_ne (opened : Opened debug lost place trees chunks F U L) {b c : Memblock}
    (here : b ∈ L ++ (F ++ U)) {other : HeapAnchor} (there : other ∈ place.1 ++ place.2.2)
    (used : c ∈ usedBlocks other.trees) : c.uData ≠ b.uData := by
  have inside := opened.holds.laid.tiles.inside here
  have proper := opened.holds.laid.tiles.proper b here
  have holds := (opened.others other there).holds
  have insideC := holds.laid.tiles.inside (holds.mem_used used)
  have properC := holds.laid.tiles.proper c (holds.mem_used used)
  have apart := outside_of_pairwise opened.apart there
  unfold Outside at apart
  omega

/-- What the search can make of the anchors behind `front`. -/
inductive Searched (debug : Bool) (lost : List ℕ) (h : SwpHeap) (cb : ℕ) (front : List HeapAnchor)
    (cbTotalSize : ℕ) (rest : List HeapAnchor) : Except Trap Search → Prop
  | exhausted (none_ : ∀ pha ∈ rest, ¬Fits cb (freeBlocks pha.trees)) :
      Searched debug lost h cb front cbTotalSize rest
        (.ok (.exhausted (rest.foldl (fun total pha => add32 total pha.cbSize) cbTotalSize)))
  | null {heap : SwpHeap} (fits : ∃ pha ∈ rest, Fits cb (freeBlocks pha.trees))
      (ok : HeapOk debug lost { heap with anchors := front ++ heap.anchors })
      (same : List.Forall₂ SameAnchor rest heap.anchors)
      (descriptors : (allocated heap.chunks).length = (allocated h.chunks).length) :
      Searched debug lost h cb front cbTotalSize rest (.ok (.done (.null heap)))
  | block {before : List HeapAnchor} {pha : HeapAnchor} {back : List HeapAnchor}
      {chunks : List MemblockChunk} {pmb : Memblock}
      (fits : ∃ pha ∈ rest, Fits cb (freeBlocks pha.trees))
      (given : least debug ≤ cb →
        Given debug lost h cb (front ++ before, pha, back) chunks pmb) :
      Searched debug lost h cb front cbTotalSize rest
        (.ok (.done (.block before pha back chunks pmb)))
  | overrun (fits : ∃ pha ∈ rest, Fits cb (freeBlocks pha.trees)) :
      Searched debug lost h cb front cbTotalSize rest (.error .stackOverrun)

theorem search_spec {h : SwpHeap} (ok : HeapOk debug lost h) {rmalloc : Option ℕ}
    (fresh : ∀ pmc, rmalloc = some pmc → Fresh h.chunks pmc)
    {front rest : List HeapAnchor} (cut : h.anchors = front ++ rest)
    (none_ : ∀ p ∈ front, ¬Fits cb (freeBlocks p.trees)) (cbTotalSize : ℕ) :
    Searched debug lost h cb front cbTotalSize rest
      (search debug cb rmalloc h.cbSwpHeapMax h.chunks cbTotalSize rest) := by
  induction rest generalizing front cbTotalSize with
  | nil => exact .exhausted fun _ there => absurd there List.not_mem_nil
  | cons pha rest ih =>
    have opened := @HeapOk.opened debug lost h ok (front, pha, rest) cut
    have spec := @takeFrom_spec debug lost (front, pha, rest) _ h.chunks _ _ cb opened rmalloc fresh
    rw [search]
    generalize takeFrom debug cb rmalloc pha.trees h.chunks = attempt at spec ⊢
    cases spec with
    | overrun fits => exact .overrun ⟨pha, List.mem_cons_self, fits⟩
    | null fits opened' same =>
      have closed := opened'.close h
      exact .null ⟨pha, List.mem_cons_self, fits⟩
        ⟨closed.anchor, closed.apart, closed.pool, closed.nodes⟩
        (.cons ⟨rfl, rfl, rfl, same⟩ (forall₂_same rest))
        (opened'.nodes.trans opened.nodes.symm).length_eq
    | block fits taken =>
      rename_i trees' chunks' pmb
      refine .block ⟨pha, List.mem_cons_self, fits⟩ fun large => ?_
      obtain ⟨⟨F', opened'⟩, size, start⟩ := taken large
      have place : Opened debug lost (front ++ [], { pha with trees := trees' }, rest) trees'
          chunks' F' (usedBlocks pha.trees) [pmb] := by
        rw [List.append_nil]
        exact opened'.retree trees'
      refine ⟨⟨F', _, place⟩, size, ?_, ?_⟩
      · rcases start with ⟨best, whole⟩ | later
        · have low := (opened'.holds.laid.tiles.inside (List.mem_cons_self : pmb ∈ pmb :: _)).1
          rcases Nat.lt_or_eq_of_le low with later | first
          · exact .inl later
          · exact .inr ⟨front, pha, rest, pmb, cut, none_, best, first.symm, whole⟩
        · exact .inl later
      · rintro c ⟨other, there, used⟩
        rw [cut] at there
        rcases List.mem_append.1 there with before | here
        · exact opened'.start_ne List.mem_cons_self (List.mem_append_left _ before) used
        · rcases List.mem_cons.1 here with rfl | behind
          · exact opened'.holds.laid.tiles.start_ne
              (List.mem_append_right F' used : c ∈ F' ++ usedBlocks other.trees)
          · exact opened'.start_ne List.mem_cons_self (List.mem_append_right _ behind) used
    | tooSmall missing =>
      have none_' : ∀ p ∈ front ++ [pha], ¬Fits cb (freeBlocks p.trees) := by
        intro p there
        rcases List.mem_append.1 there with there | there
        · exact none_ p there
        · exact List.mem_singleton.1 there ▸ missing
      have below := ih (by rw [cut, List.append_assoc]; rfl) none_' (add32 cbTotalSize pha.cbSize)
      generalize search debug cb rmalloc h.cbSwpHeapMax h.chunks (add32 cbTotalSize pha.cbSize)
        rest = found at below ⊢
      have later : ∀ p ∈ rest, p ∈ pha :: rest := fun p there => List.mem_cons_of_mem _ there
      cases below with
      | exhausted none_ =>
        refine .exhausted fun p there => ?_
        rcases List.mem_cons.1 there with rfl | there
        · exact missing
        · exact none_ p there
      | null fits ok' same descriptors =>
        obtain ⟨p, there, fits⟩ := fits
        refine .null ⟨p, later p there, fits⟩ ?_ (.cons (SameAnchor.refl pha) same) descriptors
        rwa [List.append_assoc] at ok'
      | block fits given =>
        obtain ⟨p, there, fits⟩ := fits
        refine .block ⟨p, later p there, fits⟩ ?_
        rwa [List.append_assoc] at given
      | overrun fits =>
        obtain ⟨p, there, fits⟩ := fits
        exact .overrun ⟨p, later p there, fits⟩

end Search

/-! ## A new anchor -/

/-- What `rmalloc` and the system promise of the memory they give: it lies in the address space,
apart from all that is allocated, a heap block on a page of its own, and there is none of no
bytes. -/
structure Answers.Sound (a : Answers) (h : SwpHeap) : Prop where
  chunk : ∀ pmc, a.chunk = some pmc → Fresh h.chunks pmc
  chunk' : ∀ pmc, a.chunk' = some pmc → Fresh h.chunks pmc
  away : ∀ c c', a.chunk = some c → a.chunk' = some c' → Away (newChunk c) (newChunk c')
  block : ∀ cb pvBlock, a.block cb = some pvBlock → 0 < cb ∧ 0x1000 ≤ pvBlock ∧
    pvBlock + cb < 0x100000000 ∧
    ∀ pha ∈ h.anchors, pvBlock + cb ≤ pha.pvBlock ∨ pha.last ≤ pvBlock

/-- There are descriptors for the two blocks of a new anchor. -/
def TwoEntries (a : Answers) (chunks : List MemblockChunk) : Prop :=
  2 ≤ freeEntries chunks ∨ (freeEntries chunks = 1 ∧ a.chunk' ≠ none) ∨
    (freeEntries chunks = 0 ∧ a.chunk ≠ none)

def cbTotal (h : SwpHeap) : ℕ := h.anchors.foldl (fun total pha => add32 total pha.cbSize) 0

/-- The size of the anchor block for a request. -/
def blockFor (debug : Bool) (cb : ℕ) : ℕ :=
  align (add32 (add32 cb (cbSignatures debug)) 1) blockSize

/-- No block is large enough, another anchor is allowed and its descriptors are there, but
`rmalloc` does not give the anchor itself. -/
def Starved (debug : Bool) (a : Answers) (cb : ℕ) (h : SwpHeap) : Prop :=
  (∀ pha ∈ h.anchors, ¬Fits cb (freeBlocks pha.trees)) ∧
    add32 (cbTotal h) (blockFor debug cb) ≤ h.cbSwpHeapMax ∧ TwoEntries a h.chunks ∧
    a.anchor = none

/-- A size with its signatures is a block's, and leaves room for them once more. -/
def Plain (debug : Bool) (cb : ℕ) : Prop :=
  least debug ≤ cb ∧ cb + cbSignatures debug + 1 < 0x100000000

instance (debug : Bool) (cb : ℕ) : Decidable (Plain debug cb) := inferInstanceAs (Decidable (_ ∧ _))

/-- What a request for a block can come to. -/
inductive Got (debug : Bool) (lost : List ℕ) (h : SwpHeap) (a : Answers) (cb : ℕ) :
    Except Trap FreeMemblock → Prop
  | null {heap : SwpHeap} (fed : ¬Starved debug a cb h) (ok : HeapOk debug lost heap)
      (same : Same h heap) : Got debug lost h a cb (.ok (.null heap))
  | block {front : List HeapAnchor} {pha : HeapAnchor} {back : List HeapAnchor}
      {chunks : List MemblockChunk} {pmb : Memblock} (fed : ¬Starved debug a cb h)
      (given : Plain debug cb → Given debug lost h cb (front, pha, back) chunks pmb) :
      Got debug lost h a cb (.ok (.block front pha back chunks pmb))
  | overrun (fed : ¬Starved debug a cb h) : Got debug lost h a cb (.error .stackOverrun)
  | nullPointer (starved : Starved debug a cb h) : Got debug lost h a cb (.error .nullPointer)

section Growth

variable {h : SwpHeap} {a : Answers} {cb : ℕ}

theorem release_toList {pmb : Option ℕ} {rest : List ℕ} (pool : PoolOk chunks)
    (marks : (allocated chunks).Perm (pmb.toList ++ rest)) :
    PoolOk (release pmb chunks) ∧ (allocated (release pmb chunks)).Perm rest := by
  cases pmb with
  | none => exact ⟨pool, marks⟩
  | some pmb =>
    obtain ⟨pool', released, -⟩ := release_spec pool (marks.mem_iff.2 List.mem_cons_self)
    exact ⟨pool', (released.symm.trans marks).cons_inv⟩

theorem allocate_two (pool : PoolOk h.chunks) (sound : a.Sound h) :
    ∃ chunks₁ chunks₂ pmbFree pmbUsed,
      swpAllocateMemblock a.chunk h.chunks = some (chunks₁, pmbFree) ∧
      swpAllocateMemblock a.chunk' chunks₁ = some (chunks₂, pmbUsed) ∧ PoolOk chunks₂ ∧
      (allocated chunks₂).Perm (pmbFree.toList ++ (pmbUsed.toList ++ allocated h.chunks)) ∧
      (TwoEntries a h.chunks ↔ pmbFree ≠ none ∧ pmbUsed ≠ none) := by
  obtain ⟨chunks₁, pmbFree, done₁, pool₁, marks₁, from₁⟩ := allocate_spec pool sound.chunk
  have fresh : ∀ pmc, a.chunk' = some pmc → Fresh chunks₁ pmc := by
    intro pmc answer
    refine ⟨(sound.chunk' pmc answer).1, fun c there => ?_⟩
    rcases from₁ c there with ⟨d, member, same⟩ | new
    · exact away_of_pmc same.symm ((sound.chunk' pmc answer).2 d member)
    · exact @away_of_pmc (newChunk c.pmc) c _ rfl (sound.away _ _ new answer)
  obtain ⟨chunks₂, pmbUsed, done₂, pool₂, marks₂, -⟩ := allocate_spec pool₁ fresh
  obtain ⟨some₁, none₁⟩ := allocate_entries pool sound.chunk done₁
  obtain ⟨some₂, none₂⟩ := allocate_entries pool₁ fresh done₂
  refine ⟨chunks₁, chunks₂, pmbFree, pmbUsed, done₁, done₂, pool₂, ?_, ?_⟩
  · refine marks₂.trans (List.perm_iff_count.2 fun x => ?_)
    have counts := marks₁.count_eq x
    simp only [List.count_append] at counts ⊢
    omega
  · unfold TwoEntries
    rcases Nat.eq_zero_or_pos (freeEntries h.chunks) with zero | pos
    · obtain ⟨first, left⟩ := none₁ zero
      by_cases answer : a.chunk = none
      · have missing : pmbFree = none := first.2 answer
        constructor
        · rintro (two | ⟨one, -⟩ | ⟨-, given⟩)
          · omega
          · omega
          · exact absurd answer given
        · exact fun both => absurd missing both.1
      · rw [if_neg answer] at left
        have more := some₂ (by rw [left]; decide)
        exact ⟨fun _ => ⟨fun missing => answer (first.1 missing), more.1⟩,
          fun _ => Or.inr (Or.inr ⟨zero, answer⟩)⟩
    · obtain ⟨there, left⟩ := some₁ (by omega)
      rcases Nat.eq_zero_or_pos (freeEntries chunks₁) with zero | more
      · obtain ⟨second, -⟩ := none₂ zero
        constructor
        · rintro (two | ⟨-, answer⟩ | ⟨none_, -⟩)
          · omega
          · exact ⟨there, fun missing => answer (second.1 missing)⟩
          · omega
        · exact fun both => Or.inr (Or.inl ⟨by omega, fun answer => both.2 (second.2 answer)⟩)
      · exact ⟨fun _ => ⟨there, (some₂ (by omega)).1⟩, fun _ => Or.inl (by omega)⟩

theorem blockFor_room (plain : cb + cbSignatures debug + 1 < 0x100000000)
    (pos : 0 < blockFor debug cb) : cb + cbSignatures debug + 1 ≤ blockFor debug cb := by
  have sum : add32 (add32 cb (cbSignatures debug)) 1 = cb + cbSignatures debug + 1 :=
    add32_counted plain
  unfold blockFor align at pos ⊢
  rw [sum] at pos ⊢
  unfold add32 u32 blockSize at pos ⊢
  omega

theorem newAnchor_laid {pvBlock cbBlockSize pmbFree pmbUsed : ℕ} (large : least debug ≤ cb)
    (room : cb + least debug ≤ cbBlockSize) (word : pvBlock + cbBlockSize < 0x100000000)
    (distinct : pmbFree ≠ pmbUsed) :
    Laid 0 (least debug) pvBlock (pvBlock + cbBlockSize)
      [⟨pmbFree, pvBlock, cbBlockSize - cb⟩,
        ⟨pmbUsed, pvBlock + (cbBlockSize - cb), cb⟩] := by
  have pos := least_pos debug
  have whole : Laid 0 (least debug) pvBlock (pvBlock + cbBlockSize)
      [⟨pmbFree, pvBlock, cbBlockSize⟩] := by
    refine ⟨tiles_one rfl rfl (by omega), List.nodup_singleton _, fun b there => ?_, word⟩
    rw [List.mem_singleton.1 there]
    show least debug ≤ cbBlockSize
    omega
  refine whole.cut rfl rfl ?_ ?_ ?_ ?_ ?_ large
  · show pvBlock + (cbBlockSize - cb) + 0 + cb = pvBlock + 0 + cbBlockSize
    omega
  · show pvBlock < pvBlock + 0 + (cbBlockSize - cb)
    omega
  · show pvBlock + (cbBlockSize - cb) < pvBlock + (cbBlockSize - cb) + 0 + cb
    omega
  · simpa using distinct
  · show least debug ≤ cbBlockSize - cb
    omega

theorem newAnchor_opened (ok : HeapOk debug lost h) {pvBlock cbBlockSize pmbFree pmbUsed : ℕ}
    (pool : PoolOk chunks) (marks : (allocated chunks).Perm ((some pmbFree).toList ++
      ((some pmbUsed).toList ++ allocated h.chunks)))
    (large : least debug ≤ cb) (room : cb + least debug ≤ cbBlockSize)
    (word : pvBlock + cbBlockSize < 0x100000000) (page : 0x1000 ≤ pvBlock)
    (outside : ∀ pha ∈ h.anchors, pvBlock + cbBlockSize ≤ pha.pvBlock ∨ pha.last ≤ pvBlock)
    (trees : BlockTrees) (pha : ℕ) :
    Opened debug lost (h.anchors, ⟨pha, pvBlock, cbBlockSize, trees⟩, []) .empty chunks [] []
      [⟨pmbFree, pvBlock, cbBlockSize - cb⟩,
        ⟨pmbUsed, pvBlock + (cbBlockSize - cb), cb⟩] := by
  have distinct : pmbFree ≠ pmbUsed := by
    have all := marks.nodup_iff.1 (allocated_nodup pool)
    rintro rfl
    exact (List.nodup_cons.1 all).1 List.mem_cons_self
  refine ⟨fun p there => ok.anchor p ?_, ?_, page, ⟨⟨indexed_nil, sizeOk_nil, List.Perm.refl _⟩,
    indexed_nil, rfl, rfl, newAnchor_laid large room word distinct,
    fun _ there => absurd there List.not_mem_nil⟩, pool, ?_⟩
  · rwa [List.append_nil] at there
  · refine List.pairwise_append.2 ⟨ok.apart, List.pairwise_singleton _ _, fun p there q new => ?_⟩
    rw [List.mem_singleton.1 new]
    exact (outside p there).symm
  · refine marks.trans (List.perm_iff_count.2 fun x => ?_)
    have counts := ok.nodes.count_eq x
    simp only [List.map_cons, List.map_nil, List.cons_append, List.count_append, List.count_cons,
      List.count_nil, List.append_nil, Option.toList] at counts ⊢
    omega

theorem addAnchor_given (ok : HeapOk debug lost h) (sound : a.Sound h)
    {pmbFree pmbUsed pvBlock pha : ℕ} (pool : PoolOk chunks)
    (marks : (allocated chunks).Perm ((some pmbFree).toList ++
      ((some pmbUsed).toList ++ allocated h.chunks)))
    (plain : Plain debug cb) (given : a.block (blockFor debug cb) = some pvBlock)
    {released : List Memblock} (inserted : insertFree 0
      ⟨pmbFree, pvBlock, sub32 (blockFor debug cb) cb⟩ .empty = some (trees, released)) :
    Given debug lost h cb (h.anchors, ⟨pha, pvBlock, blockFor debug cb, trees⟩, [])
      (releaseAll released chunks)
      ⟨pmbUsed, add32 pvBlock (sub32 (blockFor debug cb) cb), cb⟩ := by
  obtain ⟨large, plain⟩ := plain
  obtain ⟨pos, page, word, outside⟩ := sound.block _ _ given
  have room := blockFor_room plain pos
  have roomy : cb + least debug ≤ blockFor debug cb := by
    have leastEq : least debug = max 1 (cbSignatures debug) := rfl
    omega
  have size : sub32 (blockFor debug cb) cb = blockFor debug cb - cb :=
    sub32_of_le (by omega) (by omega)
  have stop : add32 pvBlock (blockFor debug cb - cb) = pvBlock + (blockFor debug cb - cb) :=
    add32_of_lt (by omega)
  rw [size] at inserted ⊢
  rw [stop]
  have opened := newAnchor_opened ok pool marks large roomy word page outside trees
  obtain ⟨F, opened', -⟩ := @Opened.insertFree _ _ _ _ _ _ _
    [⟨pmbUsed, pvBlock + (blockFor debug cb - cb), cb⟩] _ (opened pha) _ _ inserted
  refine ⟨⟨F, [], opened'⟩, Nat.le_refl _, .inl ?_, ?_⟩
  · show pvBlock < pvBlock + (blockFor debug cb - cb)
    have pos := least_pos debug
    omega
  · rintro c ⟨other, there, used⟩
    exact opened'.start_ne List.mem_cons_self (List.mem_append_left _ there) used

theorem addAnchor_spec (ok : HeapOk debug lost h) (sound : a.Sound h)
    (none_ : ∀ pha ∈ h.anchors, ¬Fits cb (freeBlocks pha.trees))
    (limit : add32 (cbTotal h) (blockFor debug cb) ≤ h.cbSwpHeapMax) :
    Got debug lost h a cb (addAnchor a cb (blockFor debug cb) h) := by
  obtain ⟨chunks₁, chunks₂, pmbFree, pmbUsed, done₁, done₂, pool, marks, two⟩ :=
    @allocate_two h a ok.pool sound
  rw [addAnchor, done₁]
  dsimp only [orTrap, bind, Except.bind]
  rw [done₂]
  dsimp only
  obtain ⟨pool₁, marks₁⟩ := release_toList pool marks
  obtain ⟨pool₂, marks₂⟩ := release_toList pool₁ marks₁
  have failed : ∀ fed : ¬Starved debug a cb h, Got debug lost h a cb (.ok (.null
      { h with chunks := release pmbUsed (release pmbFree chunks₂) })) := fun fed =>
    .null fed ⟨ok.anchor, ok.apart, pool₂, marks₂.trans ok.nodes⟩
      ⟨forall₂_same _, marks₂.length_eq⟩
  have short : pmbFree = none ∨ pmbUsed = none → ¬Starved debug a cb h := by
    rintro missing ⟨-, -, entries, -⟩
    have both := two.1 entries
    exact missing.elim both.1 both.2
  cases pmbFree with
  | none => exact failed (short (Or.inl rfl))
  | some pmbFree =>
    cases pmbUsed with
    | none => exact failed (short (Or.inr rfl))
    | some pmbUsed =>
      cases answer : a.anchor with
      | none => exact .nullPointer ⟨none_, limit, two.2 ⟨by simp, by simp⟩, answer⟩
      | some pha =>
        have fed : ¬Starved debug a cb h := fun starved => by
          have missing := starved.2.2.2
          rw [answer] at missing
          cases missing
        cases given : a.block (blockFor debug cb) with
        | none => exact failed fed
        | some pvBlock =>
          dsimp only
          cases inserted : insertFree 0
              ⟨pmbFree, pvBlock, sub32 (blockFor debug cb) cb⟩ .empty with
          | none => exact .overrun fed
          | some r =>
            obtain ⟨trees, released⟩ := r
            exact .block fed fun plain => addAnchor_given ok sound pool marks plain given inserted

end Growth

end Odin32.SwpHeap
