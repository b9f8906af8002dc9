import Odin32.SwpHeapCalls

/-! # Runs of the swappable heap

A call keeps the invariant as long as what it asks for, rounded up and with its signatures, is
neither nothing nor past the end of the address space. -/

set_option autoImplicit false

namespace Odin32.SwpHeap
open Odin32.RankedTree Odin32.Avl Odin32.AvlTable Odin32.FreeSize Odin32.HeapBlocks
open Odin32.MemblockPool Odin32.Tiling Odin32.Word

variable {debug : Bool} {lost : List ℕ} {h : SwpHeap} {a : Answers}

theorem swpGetFreeMemblock_spec (ok : HeapOk debug lost h) (sound : a.Sound h) (cbSize : ℕ) :
    Got debug lost h a (request debug cbSize) (swpGetFreeMemblock debug a cbSize h) := by
  have searched := @search_spec debug lost (request debug cbSize) h ok _ sound.chunk [] h.anchors
    rfl (fun _ there => absurd there List.not_mem_nil) 0
  unfold swpGetFreeMemblock
  dsimp only
  generalize search debug (request debug cbSize) a.chunk h.cbSwpHeapMax h.chunks 0 h.anchors =
    found at searched ⊢
  have fed : (∃ pha ∈ h.anchors, Fits (request debug cbSize) (freeBlocks pha.trees)) →
      ¬Starved debug a (request debug cbSize) h := by
    rintro ⟨pha, there, fits⟩ starved
    exact starved.1 pha there fits
  cases searched with
  | overrun fits => exact .overrun (fed fits)
  | null fits ok' same descriptors => exact .null (fed fits) ok' ⟨same, descriptors⟩
  | block fits given => exact .block (fed fits) fun plain => given plain.1
  | exhausted none_ =>
    rw [ok_bind]
    dsimp only
    split_ifs with limit
    · exact addAnchor_spec ok sound none_ limit
    · exact .null (fun starved => limit starved.2.1) ok ⟨forall₂_same _, rfl⟩

/-! ## The calls -/

/-- The pointer to the bytes of a block in use, and of its anchor, that `accepts` holds of. -/
structure Answered (debug : Bool) (lost : List ℕ) (accepts : HeapAnchor → Memblock → Prop)
    (h' : SwpHeap) (pv : ℕ) : Prop where
  ok : HeapOk debug lost h'
  block : ∃ pha ∈ h'.anchors, ∃ b ∈ usedBlocks pha.trees,
    pv = b.uData + cbSignature debug ∧ accepts pha b

/-- What a call for memory can come to. What it answers is known for a plain size only. -/
inductive Returned (debug : Bool) (lost : List ℕ) (h : SwpHeap) (starved plain : Prop)
    (accepts : HeapAnchor → Memblock → Prop) : Except Trap (SwpHeap × Option ℕ) → Prop
  | null {h' : SwpHeap} (fed : ¬starved) (ok : HeapOk debug lost h') (same : Same h h') :
      Returned debug lost h starved plain accepts (.ok (h', none))
  | block {h' : SwpHeap} {pv : ℕ} (fed : ¬starved)
      (answered : plain → Answered debug lost accepts h' pv) :
      Returned debug lost h starved plain accepts (.ok (h', some pv))
  | overrun (fed : ¬starved) : Returned debug lost h starved plain accepts (.error .stackOverrun)
  | nullPointer (starved_ : starved) :
      Returned debug lost h starved plain accepts (.error .nullPointer)

def MallocStarved (debug : Bool) (a : Answers) (cbSize : ℕ) (h : SwpHeap) : Prop :=
  cbSize ≠ 0 ∧ Starved debug a (request debug cbSize) h

def MallocPlain (debug : Bool) (cbSize : ℕ) : Prop := cbSize ≠ 0 → Plain debug (request debug cbSize)

/-- A new block for a request. -/
structure Accepted (debug : Bool) (cb : ℕ) (h : SwpHeap) (pha : HeapAnchor) (b : Memblock) :
    Prop where
  size : cb ≤ b.cbSize
  start : pha.pvBlock < b.uData + cbSignature debug ∨ WholeFirst debug cb h
  new : ∀ c, InUse h c → c.uData ≠ b.uData

theorem same_refl (h : SwpHeap) : Same h h := ⟨forall₂_same _, rfl⟩

theorem signature_le (debug : Bool) : 2 * cbSignature debug = cbSignatures debug := by
  unfold cbSignatures
  omega

theorem add_signature {place : Place} {trees : BlockTrees} {chunks : List MemblockChunk}
    {F U L : List Memblock} (opened : Opened debug lost place trees chunks F U L) {b : Memblock}
    (there : b ∈ L ++ (F ++ U)) :
    add32 b.uData (cbSignature debug) = b.uData + cbSignature debug := by
  have word := opened.holds.laid.end_word there
  have large := opened.holds.laid.large b there
  have signatures := signatures_le_least debug
  have twice := signature_le debug
  unfold endOf at word
  exact add32_of_lt (by omega)

theorem smalloc_spec (ok : HeapOk debug lost h) (sound : a.Sound h) (cbSize : ℕ) :
    Returned debug lost h (MallocStarved debug a cbSize h) (MallocPlain debug cbSize)
      (Accepted debug (request debug cbSize) h) (smalloc debug a cbSize h) := by
  unfold smalloc
  split_ifs with zero
  · exact .null (fun starved => starved.1 zero) ok (same_refl h)
  · have got := swpGetFreeMemblock_spec ok sound cbSize
    generalize swpGetFreeMemblock debug a cbSize h = found at got ⊢
    cases got with
    | overrun fed => exact .overrun fun starved => fed starved.2
    | nullPointer starved => exact .nullPointer ⟨zero, starved⟩
    | null fed ok' same => exact .null (fun starved => fed starved.2) ok' same
    | block fed given =>
      rename_i front pha back chunks pmb
      show Returned _ _ _ _ _ _ (orTrap .stackOverrun (insertUsed pmb pha.trees) >>= _)
      cases inserted : insertUsed pmb pha.trees with
      | none => exact .overrun fun starved => fed starved.2
      | some trees =>
        refine .block (fun starved => fed starved.2) fun plain => ?_
        have given := given (plain zero)
        obtain ⟨F, U, opened⟩ := given.opened
        obtain ⟨holds, -⟩ := insertUsed_spec opened.holds inserted
        have opened' : Opened debug lost (front, pha, back) trees chunks F (pmb :: U) [] := by
          refine ⟨opened.others, opened.apart, opened.page, holds, opened.pool,
            opened.nodes.trans (List.perm_iff_count.2 fun x => ?_)⟩
          simp only [List.map_append, List.map_cons, List.cons_append, List.count_append,
            List.count_cons, List.nil_append]
          omega
        exact ⟨opened'.close h, { pha with trees := trees },
          List.mem_append_right _ List.mem_cons_self, pmb,
          (mem_used opened'.holds.used).2 List.mem_cons_self,
          add_signature opened List.mem_cons_self,
          given.size, given.start.imp_left fun later => Nat.lt_add_right _ later, given.new⟩

theorem Opened.removeUsed {place : Place} {trees trees' : BlockTrees}
    {chunks : List MemblockChunk} {F U : List Memblock}
    (opened : Opened debug lost place trees chunks F U []) {uData : ℕ} {gone : Option Memblock}
    (done : HeapBlocks.removeUsed uData trees = some (trees', gone)) :
    (gone = none ∧ Opened debug lost place trees' chunks F U []) ∨
      ∃ b U', gone = some b ∧ b.uData = uData ∧ U.Perm (b :: U') ∧
        Opened debug lost place trees' chunks F U' [b] := by
  rcases removeUsed_spec opened.holds done with ⟨rfl, holds, -⟩ | ⟨b, U', rfl, start, cut, holds, -⟩
  · exact .inl ⟨rfl, opened.others, opened.apart, opened.page, holds, opened.pool, opened.nodes⟩
  · have opened := opened.withU cut
    refine .inr ⟨b, U', rfl, start, cut, opened.others, opened.apart, opened.page, holds,
      opened.pool, opened.nodes.trans (List.perm_iff_count.2 fun x => ?_)⟩
    simp only [List.map_append, List.map_cons, List.cons_append, List.count_append,
      List.count_cons, List.nil_append]
    omega

/-- Blocks in use but for one address stay in use, in the anchor they were in. -/
def Keeps (h h' : SwpHeap) (uData : ℕ) : Prop :=
  ∀ pha ∈ h.anchors, ∀ c ∈ usedBlocks pha.trees, c.uData ≠ uData →
    ∃ pha' ∈ h'.anchors, pha'.pvBlock = pha.pvBlock ∧ c ∈ usedBlocks pha'.trees

theorem keeps_refl (h : SwpHeap) (uData : ℕ) : Keeps h h uData :=
  fun pha there _ used _ => ⟨pha, there, rfl, used⟩

theorem keeps_put {place : Place} (cut : h.anchors = place.1 ++ place.2.1 :: place.2.2)
    {trees : BlockTrees} {uData : ℕ} (chunks : List MemblockChunk)
    (used : ∀ c ∈ usedBlocks place.2.1.trees, c.uData ≠ uData → c ∈ usedBlocks trees) :
    Keeps h (h.put place trees chunks) uData := by
  intro pha there c member other
  rw [cut] at there
  rcases List.mem_append.1 there with before | here
  · exact ⟨pha, List.mem_append_left _ before, rfl, member⟩
  · rcases List.mem_cons.1 here with rfl | behind
    · exact ⟨_, List.mem_append_right _ List.mem_cons_self, rfl, used c member other⟩
    · exact ⟨pha, List.mem_append_right _ (List.mem_cons_of_mem _ behind), rfl, member⟩

inductive Freed (debug : Bool) (lost : List ℕ) (h : SwpHeap) (uData : ℕ) :
    Except Trap SwpHeap → Prop
  | ok {h' : SwpHeap} (ok : HeapOk debug lost h') (kept : Keeps h h' uData) :
      Freed debug lost h uData (.ok h')
  | overrun : Freed debug lost h uData (.error .stackOverrun)

theorem sfree_spec (ok : HeapOk debug lost h) (pv : ℕ) :
    Freed debug lost h (sub32 pv (cbSignature debug)) (sfree debug pv h) := by
  unfold sfree
  split_ifs with null
  · exact .ok ok (keeps_refl h _)
  · cases found : findAnchor pv h.anchors with
    | none => exact .ok ok (keeps_refl h _)
    | some place =>
      obtain ⟨cut, -⟩ := findAnchor_some found
      have opened := ok.opened cut
      show Freed _ _ _ _ (orTrap .stackOverrun (HeapBlocks.removeUsed _ place.2.1.trees) >>= _)
      cases removed : HeapBlocks.removeUsed (sub32 pv (cbSignature debug)) place.2.1.trees with
      | none => exact .overrun
      | some r =>
        obtain ⟨trees, gone⟩ := r
        rcases opened.removeUsed removed with ⟨rfl, opened'⟩ | ⟨b, U', rfl, start, perm, opened'⟩
        · refine .ok (opened'.close h) (keeps_put cut _ fun c member _ => ?_)
          exact (mem_used opened'.holds.used).2 member
        · show Freed _ _ _ _ (orTrap .stackOverrun (insertFree 0 b trees) >>= _)
          cases inserted : insertFree 0 b trees with
          | none => exact .overrun
          | some r =>
            obtain ⟨trees', released⟩ := r
            obtain ⟨F', opened'', -⟩ := opened'.insertFree inserted
            refine .ok (opened''.close h) (keeps_put cut _ fun c member other => ?_)
            refine (mem_used opened''.holds.used).2 ((List.mem_cons.1
              (perm.mem_iff.1 member)).resolve_left ?_)
            rintro rfl
            exact other start

theorem sfree_error {pv : ℕ} {trap : Trap} (stopped : sfree debug pv h = .error trap) :
    trap = .stackOverrun := by
  unfold sfree at stopped
  split_ifs at stopped with null
  cases anchor : findAnchor pv h.anchors with
  | none =>
    rw [anchor] at stopped
    cases stopped
  | some place =>
    rw [anchor] at stopped
    have stopped : (orTrap .stackOverrun
      (HeapBlocks.removeUsed (sub32 pv (cbSignature debug)) place.2.1.trees) >>= _) =
        .error trap := stopped
    cases removed : HeapBlocks.removeUsed (sub32 pv (cbSignature debug)) place.2.1.trees with
    | none =>
      rw [removed] at stopped
      cases stopped
      rfl
    | some r =>
      obtain ⟨trees, gone⟩ := r
      rw [removed] at stopped
      cases gone with
      | none => cases stopped
      | some b =>
        have stopped : (orTrap .stackOverrun (insertFree 0 b trees) >>= _) = .error trap := stopped
        cases inserted : insertFree 0 b trees with
        | none =>
          rw [inserted] at stopped
          cases stopped
          rfl
        | some r =>
          rw [inserted] at stopped
          cases stopped

/-! ## Reallocation -/

theorem findUsed_some (ok : HeapOk debug lost h) {pv : ℕ} {place : Place} {pmb : Memblock}
    (found : swpFindUsedBlock debug pv h = some (place, pmb)) :
    h.anchors = place.1 ++ place.2.1 :: place.2.2 ∧ pmb ∈ usedBlocks place.2.1.trees ∧
      pv = pmb.uData + cbSignature debug ∧ place.2.1.pvBlock < pv ∧ pv ≠ 0 := by
  unfold swpFindUsedBlock at found
  split_ifs at found with null
  simp only [Option.bind_eq_bind, Option.bind_eq_some_iff, Option.some.injEq, Prod.mk.injEq]
    at found
  obtain ⟨place', anchor, e, got, rfl, rfl⟩ := found
  obtain ⟨cut, low, high⟩ := findAnchor_some anchor
  have opened := ok.opened cut
  obtain ⟨key, there⟩ := get_some got
  obtain ⟨used, start⟩ := opened.holds.used.mem.1 there
  have page := opened.page
  have signatures := signatures_le debug
  have twice := signature_le debug
  have word := add32_lt place'.2.1.pvBlock place'.2.1.cbSize
  have less : sub32 pv (cbSignature debug) = pv - cbSignature debug :=
    sub32_of_le (by omega) (by omega)
  refine ⟨cut, used, ?_, low, null⟩
  omega

theorem findAnchor_word {pv : ℕ} {r : Place × Memblock}
    (found : swpFindUsedBlock debug pv h = some r) : pv < 0x100000000 := by
  unfold swpFindUsedBlock at found
  split_ifs at found with null
  simp only [Option.bind_eq_bind, Option.bind_eq_some_iff] at found
  obtain ⟨place, anchor, -⟩ := found
  exact Nat.lt_trans (findAnchor_some anchor).2.2 (add32_lt _ _)

/-- The size `srealloc` hands on to `smalloc`, when it does. -/
def forwarded (debug : Bool) (pv cbNew : ℕ) (h : SwpHeap) : Option ℕ :=
  match swpFindUsedBlock debug pv h with
  | some (place, pmb) =>
    if request debug cbNew ≤ pmb.cbSize then none
    else
      match (rightOf 0 pmb place.2.1.trees).filter
          fun pmbRight => request debug cbNew ≤ add32 pmbRight.cbSize pmb.cbSize with
      | some _ => none
      | none => some (request debug cbNew)
  | none => if pv = 0 then some cbNew else none

def ReallocStarved (debug : Bool) (a : Answers) (pv cbNew : ℕ) (h : SwpHeap) : Prop :=
  ∃ cb, forwarded debug pv cbNew h = some cb ∧ MallocStarved debug a cb h

def ReallocPlain (debug : Bool) (pv cbNew : ℕ) (h : SwpHeap) : Prop :=
  (∀ r, swpFindUsedBlock debug pv h = some r → least debug ≤ request debug cbNew) ∧
    ∀ cb, forwarded debug pv cbNew h = some cb → MallocPlain debug cb

/-- A block for the new size, in its place or elsewhere. -/
structure Resized (debug : Bool) (pv cbNew : ℕ) (h : SwpHeap) (pha : HeapAnchor) (b : Memblock) :
    Prop where
  size : request debug cbNew ≤ b.cbSize ∨
    ∃ cb, forwarded debug pv cbNew h = some cb ∧ request debug cb ≤ b.cbSize
  start : pha.pvBlock < b.uData + cbSignature debug ∨
    ∃ cb, forwarded debug pv cbNew h = some cb ∧ WholeFirst debug (request debug cb) h

theorem answered_here {accepts : HeapAnchor → Memblock → Prop} {place : Place}
    {trees : BlockTrees} {chunks : List MemblockChunk} {F U : List Memblock} {b : Memblock}
    (opened : Opened debug lost place trees chunks F (b :: U) []) {pv : ℕ}
    (pointer : pv = b.uData + cbSignature debug)
    (accepted : accepts { place.2.1 with trees := trees } b) :
    Answered debug lost accepts (h.put place trees chunks) pv :=
  ⟨opened.close h, _, List.mem_append_right _ List.mem_cons_self, b,
    (mem_used opened.holds.used).2 List.mem_cons_self, pointer, accepted⟩

section Realloc

variable {starved plain : Prop} {accepts : HeapAnchor → Memblock → Prop} {place : Place}
variable {pmb : Memblock} {pv cbNew : ℕ}

theorem shrink_spec (ok : HeapOk debug lost h) (sound : a.Sound h)
    (found : swpFindUsedBlock debug pv h = some (place, pmb)) (large : plain → least debug ≤ cbNew)
    (less : cbNew ≤ pmb.cbSize) (fed : ¬starved)
    (accepted : ∀ trees b, cbNew ≤ b.cbSize → b.uData = pmb.uData →
      accepts { place.2.1 with trees := trees } b) :
    Returned debug lost h starved plain accepts (shrink debug a pv cbNew place pmb h) := by
  obtain ⟨cut, used, pointer, -, -⟩ := findUsed_some ok found
  obtain ⟨U, perm⟩ := exists_cons used
  have opened := (ok.opened cut).withU perm
  have there : place.2.1 ∈ h.anchors := cut ▸ List.mem_append_right _ List.mem_cons_self
  have stays : ∀ chunks, HeapOk debug lost { h with chunks := chunks } →
      Returned debug lost h starved plain accepts (.ok ({ h with chunks := chunks }, some pv)) :=
    fun chunks ok' => .block fed fun _ =>
      ⟨ok', place.2.1, there, pmb, used, pointer, accepted place.2.1.trees pmb less rfl⟩
  have bound := opened.size_lt (List.mem_append_right _ (List.mem_append_right _
    List.mem_cons_self))
  have signatures := signatures_le debug
  have sum : add32 cbNew (cbSignatures debug) = cbNew + cbSignatures debug :=
    add32_of_lt (by omega)
  unfold shrink
  simp only [sum]
  split_ifs with more
  · obtain ⟨chunks', node, allocated_, opened'⟩ := opened.allocate sound.chunk
    rw [allocated_]
    cases node with
    | none =>
      obtain ⟨chunks'', pmb', again, pool, marks, -⟩ := allocate_spec ok.pool sound.chunk
      obtain ⟨rfl, rfl⟩ := Prod.mk.inj (Option.some.inj (allocated_.symm.trans again))
      exact stays chunks' ⟨ok.anchor, ok.apart, pool, marks.trans ok.nodes⟩
    | some node =>
      have opened' : Opened debug (node :: lost) place place.2.1.trees chunks'
        (freeBlocks place.2.1.trees) (pmb :: U) [] := opened'
      show Returned _ _ _ _ _ _ (orTrap .stackOverrun (insertFree 0 _ _) >>= _)
      cases inserted : insertFree 0 (tailOf 0 cbNew node pmb)
          (trim cbNew pmb place.2.1.trees) with
      | none => exact .overrun fed
      | some r =>
        obtain ⟨trees, released⟩ := r
        refine .block fed fun plain => ?_
        have leastEq : least debug = max 1 (cbSignatures debug) := rfl
        have tail := @trim_spec 0 _ _ _ _ _ U [] pmb cbNew node opened'.holds (least_pos debug)
          (large plain) (by omega) fun d member => opened'.fresh d
            (List.perm_middle.mem_iff.2 member : d ∈ freeBlocks place.2.1.trees ++ pmb :: U)
        have loose : Opened debug lost place (trim cbNew pmb place.2.1.trees) chunks'
            (freeBlocks place.2.1.trees) (resized cbNew pmb :: U) [tailOf 0 cbNew node pmb] := by
          refine ⟨opened'.others, opened'.apart, opened'.page, tail, opened'.pool,
            opened'.nodes.trans (List.perm_iff_count.2 fun x => ?_)⟩
          simp only [List.map_append, List.map_cons, List.cons_append, List.count_append,
            List.count_cons, List.nil_append, resized, tailOf]
          omega
        obtain ⟨F', opened'', -⟩ := loose.insertFree inserted
        exact answered_here opened'' pointer (accepted trees _ (Nat.le_refl _) rfl)
  · exact stays h.chunks ok

theorem expand_here (ok : HeapOk debug lost h)
    (found : swpFindUsedBlock debug pv h = some (place, pmb)) (more : pmb.cbSize < cbNew)
    {pmbRight : Memblock} (right : rightOf 0 pmb place.2.1.trees = some pmbRight)
    (fits : cbNew ≤ add32 pmbRight.cbSize pmb.cbSize) (fed : ¬starved)
    (accepted : ∀ trees b, cbNew ≤ b.cbSize → b.uData = pmb.uData →
      accepts { place.2.1 with trees := trees } b) :
    Returned debug lost h starved plain accepts (expand debug a pv cbNew place pmb h) := by
  obtain ⟨cut, used, pointer, -, -⟩ := findUsed_some ok found
  obtain ⟨U, perm⟩ := exists_cons used
  have opened := (ok.opened cut).withU perm
  have here : pmb ∈ [] ++ (freeBlocks place.2.1.trees ++ pmb :: U) :=
    List.mem_append_right _ (List.mem_append_right _ List.mem_cons_self)
  obtain ⟨e, got, rfl⟩ := Option.map_eq_some_iff.1 right
  obtain ⟨key, there⟩ := get_some got
  obtain ⟨free, start⟩ := opened.holds.free.byAddr.mem.1 there
  rw [opened.holds.laid.nextBlock_eq here] at key
  have meet : endOf 0 pmb = e.2.uData := key.symm.trans start
  obtain ⟨F, permF⟩ := exists_cons free
  have opened := opened.withF permF
  have large : least debug ≤ pmb.cbSize := opened.holds.laid.large pmb
    (List.mem_append_right _ (List.mem_append_right _ List.mem_cons_self))
  have both := opened.holds.laid_both
  have word := both.end_word (List.mem_cons_of_mem _ List.mem_cons_self : e.2 ∈ pmb :: e.2 :: _)
  have endB : endOf 0 pmb = pmb.uData + 0 + pmb.cbSize := rfl
  have endC : endOf 0 e.2 = e.2.uData + 0 + e.2.cbSize := rfl
  have sum : add32 e.2.cbSize pmb.cbSize = e.2.cbSize + pmb.cbSize := add32_of_lt (by omega)
  have leastEq : least debug = max 1 (cbSignatures debug) := rfl
  have less : sub32 (e.2.cbSize + pmb.cbSize) (cbSignatures debug) =
      e.2.cbSize + pmb.cbSize - cbSignatures debug := sub32_of_le (by omega) (by omega)
  rw [sum] at fits
  have kept : (some e.2).filter (fun r => decide (cbNew ≤ add32 r.cbSize pmb.cbSize)) =
      some e.2 := Option.filter_eq_some_iff.2 ⟨rfl, decide_eq_true (sum ▸ fits)⟩
  unfold expand
  dsimp only
  rw [right, kept]
  simp only [sum, less]
  have others : ∀ d ∈ pmb :: ([] ++ (F ++ U)), d.pmb ≠ e.2.pmb := by
    have distinct := (both.perm (List.Perm.swap _ _ _)).distinct
    rw [List.map_cons, List.nodup_cons] at distinct
    exact fun d member same => distinct.1 (List.mem_map.2 ⟨d, member, same⟩)
  split_ifs with split
  · show Returned _ _ _ _ _ _ (orTrap .stackOverrun (growInto 0 cbNew e.2.pmb pmb e.2 _) >>= _)
    cases grown_ : growInto 0 cbNew e.2.pmb pmb e.2 place.2.1.trees with
    | none => exact .overrun fed
    | some trees =>
      have holds := growInto_spec opened.holds meet (least_pos debug) (Nat.le_of_lt more)
        (by omega) others grown_
      refine .block fed fun _ => answered_here ⟨opened.others, opened.apart, opened.page, holds,
        opened.pool, opened.nodes.trans (List.perm_iff_count.2 fun x => ?_)⟩ pointer
        (accepted trees _ (Nat.le_refl _) rfl)
      simp only [List.map_append, List.map_cons, List.cons_append, List.count_append,
        List.count_cons, List.nil_append, resized, pushed]
  · show Returned _ _ _ _ _ _ (orTrap .stackOverrun (growOver 0 pmb e.2 _) >>= _)
    cases grown_ : growOver 0 pmb e.2 place.2.1.trees with
    | none => exact .overrun fed
    | some r =>
      obtain ⟨trees, ok_⟩ := r
      obtain ⟨rfl, holds⟩ := growOver_spec opened.holds meet grown_
      have split : (allocated h.chunks).Perm (([e.2] : List Memblock).map Memblock.pmb ++
          (lost ++ (([] ++ (F ++ grown 0 pmb e.2 :: U)).map Memblock.pmb ++
            (place.1 ++ place.2.2).flatMap fun pha => SwpHeap.nodes pha.trees))) := by
        refine opened.nodes.trans (List.perm_iff_count.2 fun x => ?_)
        simp only [List.map_append, List.map_cons, List.map_nil, List.cons_append,
          List.count_append, List.count_cons, List.nil_append, grown]
        omega
      obtain ⟨pool, nodes⟩ := releaseAll_spec opened.pool split
      have opened' : Opened debug lost place trees (swpReleaseMemblock e.2.pmb h.chunks) F
        (grown 0 pmb e.2 :: U) [] :=
        ⟨opened.others, opened.apart, opened.page, holds, pool, nodes⟩
      refine .block fed fun _ => answered_here opened' pointer (accepted trees _ ?_ rfl)
      rw [grown_size meet word]
      omega

end Realloc

theorem Returned.imp {starved starved' plain plain' : Prop}
    {accepts accepts' : HeapAnchor → Memblock → Prop}
    {r : Except Trap (SwpHeap × Option ℕ)}
    (returned : Returned debug lost h starved plain accepts r) (same : starved ↔ starved')
    (plainer : plain' → plain) (weaker : ∀ pha b, accepts pha b → accepts' pha b) :
    Returned debug lost h starved' plain' accepts' r := by
  cases returned with
  | null fed ok unchanged => exact .null (fun s => fed (same.2 s)) ok unchanged
  | block fed answered =>
    refine .block (fun s => fed (same.2 s)) fun plain => ?_
    obtain ⟨ok, pha, there, b, used, pointer, accepted⟩ := answered (plainer plain)
    exact ⟨ok, pha, there, b, used, pointer, weaker _ _ accepted⟩
  | overrun fed => exact .overrun fun s => fed (same.2 s)
  | nullPointer starved_ => exact .nullPointer (same.1 starved_)

theorem starved_iff {pv cbNew cb : ℕ} (hands : forwarded debug pv cbNew h = some cb) :
    MallocStarved debug a cb h ↔ ReallocStarved debug a pv cbNew h := by
  constructor
  · exact fun starved => ⟨cb, hands, starved⟩
  · rintro ⟨cb', hands', starved⟩
    obtain rfl := Option.some.inj (hands.symm.trans hands')
    exact starved

theorem not_starved {pv cbNew : ℕ} (keeps : forwarded debug pv cbNew h = none) :
    ¬ReallocStarved debug a pv cbNew h := by
  rintro ⟨cb, hands, -⟩
  exact Option.some_ne_none cb (hands.symm.trans keeps)

theorem srealloc_spec (ok : HeapOk debug lost h) (sound : a.Sound h) (pv cbNew : ℕ) :
    Returned debug lost h (ReallocStarved debug a pv cbNew h) (ReallocPlain debug pv cbNew h)
      (Resized debug pv cbNew h) (srealloc debug a pv cbNew h) := by
  unfold srealloc
  cases found : swpFindUsedBlock debug pv h with
  | none =>
    have hands : forwarded debug pv cbNew h = if pv = 0 then some cbNew else none := by
      unfold forwarded
      rw [found]
    dsimp only
    split_ifs with null
    · rw [if_pos null] at hands
      exact (smalloc_spec ok sound cbNew).imp (starved_iff hands) (fun plain => plain.2 _ hands)
        fun pha b accepted => ⟨Or.inl accepted.size,
          accepted.start.imp_right fun whole => ⟨cbNew, hands, whole⟩⟩
    · rw [if_neg null] at hands
      exact .null (not_starved hands) ok (same_refl h)
  | some r =>
    obtain ⟨place, pmb⟩ := r
    obtain ⟨cut, used, pointer, low, -⟩ := findUsed_some ok found
    have here : ∀ trees b, request debug cbNew ≤ b.cbSize → b.uData = pmb.uData →
        Resized debug pv cbNew h { place.2.1 with trees := trees } b := fun trees b size start =>
      ⟨Or.inl size, Or.inl (by rw [start, ← pointer]; exact low)⟩
    dsimp only
    split_ifs with less
    · have keeps : forwarded debug pv cbNew h = none := by
        unfold forwarded
        rw [found]
        exact if_pos less
      exact shrink_spec ok sound found (fun plain => plain.1 _ found) less (not_starved keeps) here
    · cases right : (rightOf 0 pmb place.2.1.trees).filter
          fun pmbRight => request debug cbNew ≤ add32 pmbRight.cbSize pmb.cbSize with
      | some pmbRight =>
        have keeps : forwarded debug pv cbNew h = none := by
          unfold forwarded
          rw [found]
          dsimp only
          rw [if_neg less, right]
        obtain ⟨there, fits⟩ := Option.filter_eq_some_iff.1 right
        exact expand_here ok found (Nat.lt_of_not_le less) there (of_decide_eq_true fits)
          (not_starved keeps) here
      | none =>
        have hands : forwarded debug pv cbNew h = some (request debug cbNew) := by
          unfold forwarded
          rw [found]
          dsimp only
          rw [if_neg less, right]
        have spec := smalloc_spec ok sound (request debug cbNew)
        unfold expand
        dsimp only
        rw [right]
        dsimp only
        generalize smalloc debug a (request debug cbNew) h = got at spec ⊢
        have same := @starved_iff debug h a _ _ _ hands
        cases spec with
        | overrun fed => exact .overrun fun s => fed (same.2 s)
        | nullPointer starved => exact .nullPointer (same.1 starved)
        | null fed ok' unchanged => exact .null (fun s => fed (same.2 s)) ok' unchanged
        | block fed answered =>
          rename_i h' pvRet
          show Returned _ _ _ _ _ _ (sfree debug pv h' >>= _)
          cases result : sfree debug pv h' with
          | error trap =>
            obtain rfl := sfree_error result
            exact .overrun fun s => fed (same.2 s)
          | ok h'' =>
            refine .block (fun s => fed (same.2 s)) fun plain => ?_
            obtain ⟨ok', pha, there, b, used', rfl, accepted⟩ := answered (plain.2 _ hands)
            have other : b.uData ≠ sub32 pv (cbSignature debug) := by
              have new := accepted.new pmb ⟨place.2.1,
                cut ▸ List.mem_append_right _ List.mem_cons_self, used⟩
              have word := findAnchor_word found
              have less : sub32 pv (cbSignature debug) = pmb.uData := by
                rw [sub32_of_le (by omega) word]
                omega
              rw [less]
              exact new.symm
            have freed := sfree_spec ok' pv
            rw [result] at freed
            cases freed with
            | ok ok'' kept =>
              obtain ⟨pha', there', block', used''⟩ := kept pha there b used' other
              refine ⟨ok'', pha', there', b, used'', rfl, Or.inr ⟨_, hands, accepted.size⟩, ?_⟩
              rw [block']
              exact accepted.start.imp_right fun whole => ⟨_, hands, whole⟩

end Odin32.SwpHeap
