import Odin32.ResHeapHold

/-! # The calls of the resident heap

Each call leaves the memory of every anchor a tiling. What a call answers is a block of at least
the size that was asked for, rounded up. A new anchor that has no room for its free block is the
one way out of that, apart from the stack of an AVL operation. -/

set_option autoImplicit false

namespace Odin32.ResHeap
open Odin32.RankedTree Odin32.AvlTable Odin32.FreeSize Odin32.HeapBlocks Odin32.Tiling Odin32.Word

variable {debug : Bool} {h : ResHeap} {a : Answers} {place : Place} {trees trees' : BlockTrees}
variable {F F' U U' L L' : List Memblock} {b c pmb : Memblock} {cb : ℕ}

theorem ok_bind {α β : Type} (x : α) (f : α → Except Trap β) : (Except.ok x >>= f) = f x := rfl

/-! ## Finding memory -/

/-- The search takes its block from this anchor. -/
def Offers (debug : Bool) (cb : ℕ) (pha : HeapAnchor) : Prop :=
  cb + cbHdr debug ≤ pha.trees.cbFree ∧ Fits cb (freeBlocks pha.trees)

instance (debug : Bool) (cb : ℕ) (pha : HeapAnchor) : Decidable (Offers debug cb pha) :=
  inferInstanceAs (Decidable (_ ∧ _))

/-- What the search can make of an anchor. -/
inductive Took (debug : Bool) (place : Place) (trees : BlockTrees) (F U : List Memblock) (cb : ℕ) :
    Except Trap Attempt → Prop
  | tooSmall (none_ : ¬(cb + cbHdr debug ≤ trees.cbFree ∧ Fits cb F)) :
      Took debug place trees F U cb (.ok .tooSmall)
  | block {trees' : BlockTrees} {pmb : Memblock} {F' : List Memblock}
      (opened : Opened debug place trees' F' U [pmb]) (size : cb ≤ pmb.cbSize) :
      Took debug place trees F U cb (.ok (.block trees' pmb))
  | overrun : Took debug place trees F U cb (.error .stackOverrun)

theorem takeFrom_spec (opened : Opened debug place trees F U []) (large : cbLeast ≤ cb) :
    Took debug place trees F U cb (takeFrom debug cb trees) := by
  have header := cbHdr_pos debug
  have header' := cbHdr_le debug
  unfold takeFrom
  split_ifs with few
  · refine .tooSmall fun offers => ?_
    have room := offers.1
    have some_ : add32 cb (cbHdr debug) ≤ cb + cbHdr debug := Nat.mod_le _ _
    omega
  · cases found : bestFit cb trees with
    | none => exact .tooSmall fun offers => bestFit_none opened.holds found offers.2
    | some pmb =>
      obtain ⟨there, size⟩ := bestFit_some opened.holds found
      obtain ⟨rest, cut⟩ := exists_cons there
      have front := opened.perm cut (List.Perm.refl _)
      have here : pmb ∈ [] ++ (pmb :: rest ++ U) := List.mem_cons_self
      obtain ⟨page, behind, ends, word⟩ := front.inside here
      have whole : add32 pmb.uData pmb.cbSize = pmb.uData + pmb.cbSize := add32_of_lt (by omega)
      have least : cbLeast = 16 := rfl
      dsimp only
      split_ifs with more
      · have sum : add32 (cbMemblockFree debug) cb = cbHdr debug + cbLeast + cb :=
          add32_of_lt (by unfold cbMemblockFree; omega)
        rw [sum] at more
        have node : sub32 (add32 pmb.uData pmb.cbSize) cb = pmb.uData + pmb.cbSize - cb := by
          rw [whole]
          exact sub32_of_le (by omega) (by omega)
        show Took _ _ _ _ _ _ (orOverrun (carve (cbHdr debug) cb pmb trees) >>= _)
        cases done : carve (cbHdr debug) cb pmb trees with
        | none => exact .overrun
        | some trees' =>
          have ending : endOf (cbHdr debug) pmb = pmb.uData + cbHdr debug + pmb.cbSize := rfl
          have fresh : ∀ d ∈ pmb :: ([] ++ (rest ++ U)),
              d.pmb ≠ sub32 (add32 pmb.uData pmb.cbSize) cb := by
            rw [node]
            exact front.fresh here (by omega) (by omega)
          obtain ⟨holds, -⟩ := carve_spec front.holds (by decide) large (by omega) fresh done
          refine @Took.block _ _ _ _ _ _ _ _ _ ⟨front.others, front.apart, front.page, holds,
            fun x there => ?_⟩ (Nat.le_refl _)
          rcases List.mem_cons.1 there with rfl | there
          · rfl
          · rcases List.mem_cons.1 there with rfl | there
            · exact front.own pmb here
            · exact front.own x (List.mem_cons_of_mem _ there)
      · show Took _ _ _ _ _ _ (orOverrun (takeWhole pmb trees) >>= _)
        cases done : takeWhole pmb trees with
        | none => exact .overrun
        | some r =>
          obtain ⟨trees', ok⟩ := r
          obtain ⟨rfl, holds, -⟩ := takeWhole_spec front.holds done
          exact .block ⟨front.others, front.apart, front.page, holds, front.own⟩ size

def InUse (h : ResHeap) (c : Memblock) : Prop := ∃ pha ∈ h.anchors, c ∈ usedBlocks pha.trees

/-- A block that is in no tree, of the anchor of the place. -/
structure Given (debug : Bool) (h : ResHeap) (cb : ℕ) (place : Place) (pmb : Memblock) : Prop where
  opened : ∃ F U, Opened debug place place.2.1.trees F U [pmb]
  size : cb ≤ pmb.cbSize
  new : ∀ c, InUse h c → c.uData ≠ pmb.uData

/-- What the search can make of the anchors behind `front`. -/
inductive Searched (debug : Bool) (h : ResHeap) (cb : ℕ) (front : List HeapAnchor)
    (cbTotalSize : ℕ) (rest : List HeapAnchor) : Except Trap Search → Prop
  | exhausted (none_ : ∀ pha ∈ rest, ¬Offers debug cb pha) :
      Searched debug h cb front cbTotalSize rest
        (.ok (.exhausted (rest.foldl (fun total pha => add32 total pha.cbSize) cbTotalSize)))
  | block {before : List HeapAnchor} {pha : HeapAnchor} {back : List HeapAnchor} {pmb : Memblock}
      (given : Given debug h cb (front ++ before, pha, back) pmb) :
      Searched debug h cb front cbTotalSize rest (.ok (.done (.block before pha back pmb)))
  | overrun : Searched debug h cb front cbTotalSize rest (.error .stackOverrun)

theorem search_spec (ok : HeapOk debug h) (large : cbLeast ≤ cb) {front rest : List HeapAnchor}
    (cut : h.anchors = front ++ rest) (cbTotalSize : ℕ) :
    Searched debug h cb front cbTotalSize rest
      (search debug cb h.cbResHeapMax cbTotalSize rest) := by
  induction rest generalizing front cbTotalSize with
  | nil => exact .exhausted fun _ there => absurd there List.not_mem_nil
  | cons pha rest ih =>
    have opened := @HeapOk.opened debug h (front, pha, rest) ok cut
    have spec := takeFrom_spec opened large
    rw [search]
    generalize takeFrom debug cb pha.trees = attempt at spec ⊢
    cases spec with
    | overrun => exact .overrun
    | block opened' size =>
      rename_i trees' pmb F'
      refine .block ⟨⟨F', usedBlocks pha.trees, ?_⟩, size, ?_⟩
      · show Opened debug (front ++ [], { pha with trees := trees' }, rest) trees' _ _ _
        rw [List.append_nil]
        exact opened'.retree trees'
      · rintro c ⟨other, there, used⟩
        rw [cut] at there
        rcases List.mem_append.1 there with before | here
        · exact opened'.start_ne List.mem_cons_self (List.mem_append_left _ before) used
        · rcases List.mem_cons.1 here with rfl | behind
          · exact opened'.holds.laid.tiles.start_ne
              (List.mem_append_right F' used : c ∈ F' ++ usedBlocks other.trees)
          · exact opened'.start_ne List.mem_cons_self (List.mem_append_right _ behind) used
    | tooSmall missing =>
      have cut' : h.anchors = (front ++ [pha]) ++ rest := by
        rw [cut, List.append_assoc]
        rfl
      have below := ih cut' (add32 cbTotalSize pha.cbSize)
      generalize search debug cb h.cbResHeapMax (add32 cbTotalSize pha.cbSize) rest = found
        at below ⊢
      cases below with
      | exhausted none_ =>
        refine .exhausted fun p there => ?_
        rcases List.mem_cons.1 there with rfl | there
        · exact missing
        · exact none_ p there
      | block given =>
        refine .block ?_
        rwa [List.append_assoc] at given
      | overrun => exact .overrun

/-! ## A new anchor -/

/-- What the system promises of the memory it gives: it lies in the address space, on a page of its
own and apart from the other anchors, and there is none of no bytes. -/
structure Answers.Sound (a : Answers) (h : ResHeap) : Prop where
  block : ∀ cb pha, a.block cb = some pha → 0 < cb ∧ 0x1000 ≤ pha ∧ pha + cb < 0x100000000 ∧
    ∀ other ∈ h.anchors, pha + cb ≤ other.pha ∨ other.last ≤ pha

def cbTotal (h : ResHeap) : ℕ := h.anchors.foldl (fun total pha => add32 total pha.cbSize) 0

/-- The size of the anchor block for a request. -/
def blockFor (debug : Bool) (cb : ℕ) : ℕ := align (add32 cb (cbHdr debug * 2)) blockSize

/-- The request needs another anchor, and has no room in the one it gets. -/
def Crowded (debug : Bool) (a : Answers) (cb : ℕ) (h : ResHeap) : Prop :=
  (∀ pha ∈ h.anchors, ¬Offers debug cb pha) ∧
    add32 (cbTotal h) (blockFor debug cb) ≤ h.cbResHeapMax ∧
    a.block (blockFor debug cb) ≠ none ∧ ¬Roomy debug cb (blockFor debug cb)

instance (debug : Bool) (a : Answers) (cb : ℕ) (h : ResHeap) : Decidable (Crowded debug a cb h) :=
  inferInstanceAs (Decidable (_ ∧ _))

/-- What a request for a block can come to. -/
inductive Got (debug : Bool) (h : ResHeap) (a : Answers) (cb : ℕ) :
    Except Trap FreeMemblock → Prop
  | null : Got debug h a cb (.ok (.null h))
  | block {front : List HeapAnchor} {pha : HeapAnchor} {back : List HeapAnchor} {pmb : Memblock}
      (given : Given debug h cb (front, pha, back) pmb) :
      Got debug h a cb (.ok (.block front pha back pmb))
  | overrun : Got debug h a cb (.error .stackOverrun)
  | overlap {cbFree : ℕ} (crowded : Crowded debug a cb h) :
      Got debug h a cb (.error (.overlap cbFree))

theorem cbNewFree_eq {cbBlockSize : ℕ} (roomy : Roomy debug cb cbBlockSize)
    (word : cbBlockSize < 0x100000000) :
    cbNewFree debug cb cbBlockSize =
      cbBlockSize - cbHeapAnchor debug - cbHdr debug * 2 - cb := by
  unfold Roomy at roomy
  unfold cbNewFree
  have one : sub32 cbBlockSize (cbHeapAnchor debug) = cbBlockSize - cbHeapAnchor debug :=
    sub32_of_le (by omega) word
  have two : sub32 (cbBlockSize - cbHeapAnchor debug) (cbHdr debug * 2) =
      cbBlockSize - cbHeapAnchor debug - cbHdr debug * 2 := sub32_of_le (by omega) (by omega)
  rw [one, two]
  exact sub32_of_le (by omega) (by omega)

theorem newAnchor_laid {pha cbBlockSize : ℕ} (large : cbLeast ≤ cb)
    (roomy : Roomy debug cb cbBlockSize) (word : pha + cbBlockSize < 0x100000000) :
    Laid (cbHdr debug) cbLeast (pha + cbHeapAnchor debug) (pha + cbBlockSize)
      [blockAt (pha + cbHeapAnchor debug)
          (cbBlockSize - cbHeapAnchor debug - cbHdr debug * 2 - cb),
        blockAt (pha + cbBlockSize - cb - cbHdr debug) cb] := by
  unfold Roomy at roomy
  have header := cbHdr_pos debug
  have least : cbLeast = 16 := rfl
  have whole : Laid (cbHdr debug) cbLeast (pha + cbHeapAnchor debug) (pha + cbBlockSize)
      [blockAt (pha + cbHeapAnchor debug) (cbBlockSize - cbHeapAnchor debug - cbHdr debug)] := by
    refine ⟨tiles_one rfl ?_ (by omega), List.nodup_singleton _, fun b there => ?_, word⟩
    · show pha + cbHeapAnchor debug + cbHdr debug +
        (cbBlockSize - cbHeapAnchor debug - cbHdr debug) = _
      omega
    · rw [List.mem_singleton.1 there]
      show cbLeast ≤ cbBlockSize - cbHeapAnchor debug - cbHdr debug
      omega
  refine whole.cut rfl ?_ ?_ ?_ ?_ ?_ ?_ large
  · show pha + cbHeapAnchor debug + cbHdr debug +
      (cbBlockSize - cbHeapAnchor debug - cbHdr debug * 2 - cb) = pha + cbBlockSize - cb - cbHdr debug
    omega
  · show pha + cbBlockSize - cb - cbHdr debug + cbHdr debug + cb =
      pha + cbHeapAnchor debug + cbHdr debug + (cbBlockSize - cbHeapAnchor debug - cbHdr debug)
    omega
  · show pha + cbHeapAnchor debug < pha + cbHeapAnchor debug + cbHdr debug + _
    omega
  · show pha + cbBlockSize - cb - cbHdr debug < pha + cbBlockSize - cb - cbHdr debug + cbHdr debug + cb
    omega
  · have distinct : pha + cbHeapAnchor debug ≠ pha + cbBlockSize - cb - cbHdr debug := by omega
    simpa [blockAt] using distinct
  · show cbLeast ≤ cbBlockSize - cbHeapAnchor debug - cbHdr debug * 2 - cb
    omega

theorem addAnchor_spec (ok : HeapOk debug h) (sound : a.Sound h) (large : cbLeast ≤ cb)
    (none_ : ∀ pha ∈ h.anchors, ¬Offers debug cb pha)
    (limit : add32 (cbTotal h) (blockFor debug cb) ≤ h.cbResHeapMax) :
    Got debug h a cb (addAnchor debug a cb (blockFor debug cb) h) := by
  unfold addAnchor
  cases answer : a.block (blockFor debug cb) with
  | none => exact .null
  | some pha =>
    dsimp only
    split_ifs with roomy
    · obtain ⟨-, page, word, outside⟩ := sound.block _ _ answer
      have room : cbHeapAnchor debug + (cbHdr debug + cbLeast) + (cbHdr debug + cb) ≤
        blockFor debug cb := roomy
      have start : add32 pha (cbHeapAnchor debug) = pha + cbHeapAnchor debug :=
        add32_of_lt (by omega)
      have total : add32 pha (blockFor debug cb) = pha + blockFor debug cb := add32_of_lt word
      have one : sub32 (pha + blockFor debug cb) cb = pha + blockFor debug cb - cb :=
        sub32_of_le (by omega) word
      have two : sub32 (pha + blockFor debug cb - cb) (cbHdr debug) =
        pha + blockFor debug cb - cb - cbHdr debug := sub32_of_le (by omega) (by omega)
      rw [cbNewFree_eq roomy (by omega), start, total, one, two]
      have laid := newAnchor_laid large roomy word
      have opened : ∀ trees, Opened debug (h.anchors, ⟨pha, blockFor debug cb, trees⟩, []) .empty
          [] [] [blockAt (pha + cbHeapAnchor debug)
              (blockFor debug cb - cbHeapAnchor debug - cbHdr debug * 2 - cb),
            blockAt (pha + blockFor debug cb - cb - cbHdr debug) cb] := by
        intro trees
        refine ⟨fun p there => ok.anchor p ?_, ?_, page, ⟨⟨indexed_nil, sizeOk_nil,
          List.Perm.refl _⟩, indexed_nil, rfl, rfl, laid,
          fun _ there => absurd there List.not_mem_nil⟩, fun b there => ?_⟩
        · rwa [List.append_nil] at there
        · refine List.pairwise_append.2 ⟨ok.apart, List.pairwise_singleton _ _,
            fun p there q new => ?_⟩
          rw [List.mem_singleton.1 new]
          exact (outside p there).symm
        · rcases List.mem_cons.1 there with rfl | there
          · rfl
          · rw [List.mem_singleton.1 there]
            rfl
      show Got _ _ _ _ (orOverrun (insertFree (cbHdr debug) _ .empty) >>= _)
      cases inserted : insertFree (cbHdr debug) (blockAt (pha + cbHeapAnchor debug)
          (blockFor debug cb - cbHeapAnchor debug - cbHdr debug * 2 - cb)) .empty with
      | none => exact .overrun
      | some r =>
        obtain ⟨trees, released⟩ := r
        obtain ⟨F', opened'⟩ := (opened trees).insertFree inserted
        refine .block ⟨⟨F', [], opened'⟩, Nat.le_refl _, ?_⟩
        rintro c ⟨other, there, used⟩
        exact opened'.start_ne List.mem_cons_self (List.mem_append_left _ there) used
    · exact .overlap ⟨none_, limit, by rw [answer]; exact Option.some_ne_none _, roomy⟩

theorem cbLeast_le_request (debug : Bool) (cbSize : ℕ) : cbLeast ≤ request debug cbSize :=
  Nat.le_max_right _ _

theorem resGetFreeMemblock_spec (ok : HeapOk debug h) (sound : a.Sound h) (cbSize : ℕ) :
    Got debug h a (request debug cbSize) (resGetFreeMemblock debug a cbSize h) := by
  have large := cbLeast_le_request debug cbSize
  have searched := @search_spec debug h _ ok large [] h.anchors rfl 0
  unfold resGetFreeMemblock
  dsimp only
  generalize search debug (request debug cbSize) h.cbResHeapMax 0 h.anchors = found
    at searched ⊢
  cases searched with
  | overrun => exact .overrun
  | block given => exact .block given
  | exhausted none_ =>
    rw [ok_bind]
    dsimp only
    split_ifs with limit
    · exact addAnchor_spec ok sound large none_ limit
    · exact .null

end Odin32.ResHeap
