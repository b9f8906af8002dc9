import Odin32.LxRelocations

/-! # Runs over any directory

A run ends, and stays in the directory and the page, exactly if the blocks that it comes by
fit and none of them leads back to itself. -/

set_option autoImplicit false

namespace Odin32.LxRelocations
open Word ByteMemory LxPages LxFixups

variable {pe : PeModule} {fDeltaOnly : Bool} {ulDelta ulRVAPage : ℕ} {dir : Directory}

/-- A page of the address space. -/
structure IsPage (ulRVAPage : ℕ) : Prop where
  aligned : 0x1000 ∣ ulRVAPage
  word : ulRVAPage < 0x100000000

/-! ## Entries -/

theorem isOk_map {ε α β : Type} (f : α → β) (e : Except ε α) : (e.map f).isOk = e.isOk := by
  cases e <;> rfl

theorem fixupFromBefore_isOk (offFixup fType : ℕ) (pvPage : Mem) :
    (fixupFromBefore pe fDeltaOnly ulDelta ulRVAPage offFixup fType pvPage).isOk =
      (readAtRVA pe (sub32 (add32 ulRVAPage offFixup) 0x1000) 4).isOk := by
  unfold fixupFromBefore
  exact isOk_map _ _

theorem fixupIntoAfter_isOk (typeOffset : ℕ) (pvPage : Mem) :
    (fixupIntoAfter pe fDeltaOnly ulDelta ulRVAPage (typeOffset % 0x1000) (typeOffset / 0x1000)
      pvPage).isOk =
      match targetAfter pe fDeltaOnly ulRVAPage typeOffset with
      | some target => target.isOk
      | none => true := by
  unfold fixupIntoAfter targetAfter
  dsimp only
  split
  · exact isOk_map _ _
  · rfl

theorem applyFixup_eq (virtualAddress typeOffset : ℕ) (pvPage : Mem) :
    applyFixup pe fDeltaOnly ulDelta ulRVAPage virtualAddress typeOffset pvPage =
      if Touches ulRVAPage virtualAddress typeOffset then
        if entryRVA virtualAddress typeOffset < ulRVAPage then
          fixupFromBefore pe fDeltaOnly ulDelta ulRVAPage (typeOffset % 0x1000)
            (typeOffset / 0x1000) pvPage
        else if add32 ulRVAPage 0x1000 <
            add32 (entryRVA virtualAddress typeOffset) (entrySize typeOffset) then
          fixupIntoAfter pe fDeltaOnly ulDelta ulRVAPage (typeOffset % 0x1000)
            (typeOffset / 0x1000) pvPage
        else .ok (fixupCommon pe fDeltaOnly ulDelta
          (sub32 (entryRVA virtualAddress typeOffset) ulRVAPage) (typeOffset / 0x1000) pvPage)
      else .ok pvPage := rfl

theorem applyFixup_isOk (virtualAddress typeOffset : ℕ) (pvPage : Mem) :
    (applyFixup pe fDeltaOnly ulDelta ulRVAPage virtualAddress typeOffset pvPage).isOk =
      !stops pe fDeltaOnly ulRVAPage virtualAddress typeOffset := by
  rw [applyFixup_eq, stops]
  by_cases touches : Touches ulRVAPage virtualAddress typeOffset
  · rw [if_pos touches, decide_eq_true touches, Bool.true_and]
    by_cases before : entryRVA virtualAddress typeOffset < ulRVAPage
    · rw [if_pos before, if_pos before, Bool.not_not]
      exact fixupFromBefore_isOk _ _ pvPage
    · rw [if_neg before, if_neg before]
      by_cases after : add32 ulRVAPage 0x1000 <
          add32 (entryRVA virtualAddress typeOffset) (entrySize typeOffset)
      · rw [if_pos after, decide_eq_true after, Bool.true_and]
        refine (fixupIntoAfter_isOk typeOffset pvPage).trans ?_
        cases targetAfter pe fDeltaOnly ulRVAPage typeOffset with
        | none => rfl
        | some target => exact (Bool.not_not _).symm
      · rw [if_neg after, decide_eq_false after]
        rfl
  · rw [if_neg touches, decide_eq_false touches]
    rfl

theorem storesInside_iff (page : IsPage ulRVAPage) (virtualAddress typeOffset : ℕ) :
    StoresInside pe fDeltaOnly ulRVAPage virtualAddress typeOffset ↔
      Fits pe fDeltaOnly ulRVAPage virtualAddress typeOffset := by
  unfold StoresInside Fits
  refine forall_congr' fun touches => ?_
  obtain ⟨known, -, below⟩ := touches
  obtain ⟨aligned, word⟩ := page
  unfold cbFixupMax at known
  have offset : typeOffset % 0x1000 < 0x1000 := Nat.mod_lt _ (by decide)
  have pageEnd : add32 ulRVAPage 0x1000 = ulRVAPage + 0x1000 := by
    unfold add32 u32 at below ⊢
    omega
  rw [pageEnd] at below ⊢
  generalize entryRVA virtualAddress typeOffset = rva at below ⊢
  generalize entrySize typeOffset = cb at known ⊢
  generalize resolvesAfter pe fDeltaOnly ulRVAPage typeOffset = resolved
  generalize typeOffset % 0x1000 = off at offset ⊢
  have fits : ulRVAPage + 0x2000 ≤ 0x100000000 := by
    unfold add32 u32 at pageEnd
    omega
  have sum : add32 rva cb = rva + cb := add32_of_lt (by omega)
  have size : add32 cb off = cb + off := add32_of_lt (by omega)
  rw [sum, size]
  have before : sub32 (cb + off) 0x1000 ≤ 0x1000 ↔ 0x1000 ≤ off + cb := by
    unfold sub32 u32
    omega
  rw [before]
  by_cases low : rva < ulRVAPage
  · rw [if_pos low]
    constructor
    · intro le
      exact ⟨fun _ => le, fun beyond => by omega⟩
    · intro fits
      exact fits.1 low
  · rw [if_neg low]
    have position : sub32 rva ulRVAPage = rva - ulRVAPage := sub32_of_le (by omega) (by omega)
    rw [position]
    by_cases beyond : ulRVAPage + 0x1000 < rva + cb
    · rw [if_pos beyond]
      constructor
      · intro stored
        refine ⟨fun h => absurd h low, fun _ => stored.imp_right fun h => by omega⟩
      · intro fits
        exact (fits.2 beyond).imp_right fun h => by omega
    · rw [if_neg beyond]
      constructor
      · intro _
        exact ⟨fun h => absurd h low, fun h => absurd h beyond⟩
      · intro _
        omega

/-- What a run of entries or blocks comes to does not leave the directory and the page. -/
def Outcome.IsReturn (outcome : Outcome) : Prop := ∃ rc, outcome = .returns rc

theorem applyEntries_spec (page : IsPage ulRVAPage) (virtualAddress cRelocations pwoffFixup : ℕ)
    (pvPage : Mem) :
    ((applyEntries pe fDeltaOnly ulDelta ulRVAPage dir virtualAddress cRelocations pwoffFixup
        pvPage).IsReturn ↔
      EntriesFit pe fDeltaOnly ulRVAPage dir virtualAddress cRelocations pwoffFixup) ∧
    ((applyEntries pe fDeltaOnly ulDelta ulRVAPage dir virtualAddress cRelocations pwoffFixup
        pvPage).IsReturn →
      ((∃ after, applyEntries pe fDeltaOnly ulDelta ulRVAPage dir virtualAddress cRelocations
          pwoffFixup pvPage = .returns (.ok after)) ↔
        entriesPass pe fDeltaOnly ulRVAPage dir virtualAddress cRelocations pwoffFixup = true)) := by
  induction cRelocations generalizing pwoffFixup pvPage with
  | zero => exact ⟨⟨fun _ => trivial, fun _ => ⟨_, rfl⟩⟩, fun _ => ⟨fun _ => rfl, fun _ => ⟨_, rfl⟩⟩⟩
  | succ cRelocations ih =>
    rw [applyEntries, EntriesFit, entriesPass]
    by_cases inside : dir.Inside pwoffFixup 2
    · have applied := @applyFixup_isOk pe fDeltaOnly ulDelta ulRVAPage virtualAddress
        (dir.typeOffset pwoffFixup) pvPage
      rw [if_pos inside]
      dsimp only
      cases done : applyFixup pe fDeltaOnly ulDelta ulRVAPage virtualAddress
          (dir.typeOffset pwoffFixup) pvPage with
      | error rc =>
        rw [done] at applied
        have stop : stops pe fDeltaOnly ulRVAPage virtualAddress (dir.typeOffset pwoffFixup) =
            true := by simpa [Except.isOk, Except.toBool] using applied
        rw [stop]
        refine ⟨⟨fun _ => ⟨inside, .inl rfl⟩, fun _ => ⟨_, rfl⟩⟩, fun _ => ⟨?_, fun h => by cases h⟩⟩
        rintro ⟨after, h⟩
        cases h
      | ok pvPage' =>
        rw [done] at applied
        have pass : stops pe fDeltaOnly ulRVAPage virtualAddress (dir.typeOffset pwoffFixup) =
            false := by simpa [Except.isOk, Except.toBool] using applied
        rw [pass]
        dsimp only
        by_cases stored : StoresInside pe fDeltaOnly ulRVAPage virtualAddress
            (dir.typeOffset pwoffFixup)
        · have fits := (storesInside_iff page _ _).1 stored
          obtain ⟨returns, passes⟩ := ih (pwoffFixup + 2) pvPage'
          rw [if_pos stored]
          refine ⟨returns.trans ⟨fun rest => ⟨inside, .inr ⟨fits, rest⟩⟩, ?_⟩, passes⟩
          rintro ⟨-, stop | ⟨-, rest⟩⟩
          · cases stop
          · exact rest
        · have fits := mt (storesInside_iff page _ _).2 stored
          rw [if_neg stored]
          refine ⟨⟨?_, ?_⟩, ?_⟩
          · rintro ⟨rc, h⟩
            cases h
          · rintro ⟨-, stop | ⟨fit, -⟩⟩
            · cases stop
            · exact absurd fit fits
          · rintro ⟨rc, h⟩
            cases h
    · rw [if_neg inside]
      refine ⟨⟨?_, fun fit => absurd fit.1 inside⟩, ?_⟩
      · rintro ⟨rc, h⟩
        cases h
      · rintro ⟨rc, h⟩
        cases h

/-! ## Blocks -/

theorem applyBlock_spec (page : IsPage ulRVAPage) (pbr : ℕ) (pvPage : Mem) :
    ((applyBlock pe fDeltaOnly ulDelta ulRVAPage dir pbr pvPage).IsReturn ↔
      (reachesPage ulRVAPage dir pbr = true →
        EntriesFit pe fDeltaOnly ulRVAPage dir (dir.virtualAddress pbr)
          (dir.cRelocations pbr - dir.skipped ulRVAPage pbr)
          (pbr + 8 + 2 * dir.skipped ulRVAPage pbr))) ∧
    ((applyBlock pe fDeltaOnly ulDelta ulRVAPage dir pbr pvPage).IsReturn →
      ((∃ after, applyBlock pe fDeltaOnly ulDelta ulRVAPage dir pbr pvPage =
          .returns (.ok after)) ↔
        (!reachesPage ulRVAPage dir pbr ||
          entriesPass pe fDeltaOnly ulRVAPage dir (dir.virtualAddress pbr)
            (dir.cRelocations pbr - dir.skipped ulRVAPage pbr)
            (pbr + 8 + 2 * dir.skipped ulRVAPage pbr)) = true)) := by
  unfold applyBlock reachesPage
  by_cases reaches : ulRVAPage ≤ add32 (dir.virtualAddress pbr) 0x1000
  · rw [if_pos reaches, decide_eq_true reaches]
    obtain ⟨returns, passes⟩ := @applyEntries_spec pe fDeltaOnly ulDelta ulRVAPage dir page
      (dir.virtualAddress pbr)
      (dir.cRelocations pbr - dir.skipped ulRVAPage pbr)
      (pbr + 8 + 2 * dir.skipped ulRVAPage pbr) pvPage
    exact ⟨returns.trans ⟨fun fit _ => fit, fun fit => fit rfl⟩, passes⟩
  · rw [if_neg reaches, decide_eq_false reaches]
    exact ⟨⟨fun _ h => Bool.noConfusion h, fun _ => ⟨_, rfl⟩⟩,
      fun _ => ⟨fun _ => rfl, fun _ => ⟨_, rfl⟩⟩⟩

/-- The places of a walk through the directory. -/
structure Placed (dir : Directory) (pbr : ℕ) : Prop where
  size : dir.cbBaseRelocs < 0x100000000
  word : pbr < 0x100000000

theorem header_inside {pbr : ℕ} (placed : Placed dir pbr) (more : add32 pbr 8 < dir.cbBaseRelocs) :
    (dir.Inside (pbr + 4) 4 ↔ pbr + 8 < dir.cbBaseRelocs ∨ 0xfffffffc ≤ pbr) ∧
      (dir.Inside (pbr + 4) 4 → (dir.Inside pbr 4 ↔ pbr + 8 < dir.cbBaseRelocs)) := by
  obtain ⟨size, word⟩ := placed
  unfold add32 u32 at more
  unfold Directory.Inside u32
  omega

theorem not_return_of_unfit (page : IsPage ulRVAPage) {pbr : ℕ} (placed : Placed dir pbr)
    (unfit : ¬BlockFits pe fDeltaOnly ulRVAPage dir pbr) (rounds : ℕ) (pvPage : Mem)
    (rc : Except ApiRet Mem) :
    applyBlocks pe fDeltaOnly ulDelta ulRVAPage dir rounds pbr pvPage ≠ some (.returns rc) := by
  cases rounds with
  | zero => exact fun h => by cases h
  | succ rounds =>
    intro done
    rw [applyBlocks] at done
    refine unfit ?_
    by_cases stop : dir.cbBaseRelocs ≤ add32 pbr 8
    · refine ⟨fun more => absurd stop (Nat.not_le.2 more), fun on => ?_⟩
      unfold goesOn at on
      simp only [Bool.and_eq_true, decide_eq_true_eq] at on
      omega
    rw [if_neg stop] at done
    obtain ⟨sizeInside, inside⟩ := header_inside placed (Nat.not_le.1 stop)
    by_cases sizeRead : dir.Inside (pbr + 4) 4
    · rw [if_neg (not_not.2 sizeRead)] at done
      by_cases small : dir.sizeOfBlock pbr < 8
      · refine ⟨fun _ => (sizeInside.1 sizeRead).imp_right fun h => ⟨h, small⟩, fun on => ?_⟩
        unfold goesOn at on
        simp only [Bool.and_eq_true, decide_eq_true_eq] at on
        omega
      · rw [if_neg small] at done
        by_cases header : dir.Inside pbr 4
        · rw [if_neg (not_not.2 header)] at done
          refine ⟨fun _ => .inl ((inside sizeRead).1 header), fun on => ?_⟩
          unfold goesOn at on
          simp only [Bool.and_eq_true, decide_eq_true_eq] at on
          rw [if_neg (by omega)] at done
          refine (@applyBlock_spec pe fDeltaOnly ulDelta ulRVAPage dir page pbr pvPage).1.1 ?_
          cases block : applyBlock pe fDeltaOnly ulDelta ulRVAPage dir pbr pvPage with
          | returns rc => exact ⟨rc, rfl⟩
          | readsOutside => rw [block] at done; cases done
          | storesOutside => rw [block] at done; cases done
        · rw [if_pos header] at done
          cases done
    · rw [if_pos sizeRead] at done
      cases done

theorem round_of_fit (page : IsPage ulRVAPage) {pbr : ℕ} (placed : Placed dir pbr)
    (fits : BlockFits pe fDeltaOnly ulRVAPage dir pbr) (pvPage : Mem) :
    match nextBlock pe fDeltaOnly ulRVAPage dir pbr with
    | none => ∃ rc, ∀ rounds,
      applyBlocks pe fDeltaOnly ulDelta ulRVAPage dir (rounds + 1) pbr pvPage = some (.returns rc)
    | some next => Placed dir next ∧ ∃ after, ∀ rounds,
      applyBlocks pe fDeltaOnly ulDelta ulRVAPage dir (rounds + 1) pbr pvPage =
        applyBlocks pe fDeltaOnly ulDelta ulRVAPage dir rounds next after := by
  unfold nextBlock
  cases on : goesOn ulRVAPage dir pbr with
  | false =>
    refine ⟨.ok pvPage, fun rounds => ?_⟩
    rw [applyBlocks]
    by_cases stop : dir.cbBaseRelocs ≤ add32 pbr 8
    · rw [if_pos stop]
    · rw [if_neg stop]
      obtain ⟨sizeInside, inside⟩ := header_inside placed (Nat.not_le.1 stop)
      have header := fits.header (Nat.not_le.1 stop)
      have sizeRead := sizeInside.2 (header.imp_right And.left)
      rw [if_neg (not_not.2 sizeRead)]
      by_cases small : dir.sizeOfBlock pbr < 8
      · rw [if_pos small]
      · rw [if_neg small]
        have whole : pbr + 8 < dir.cbBaseRelocs := header.resolve_right fun h => small h.2
        rw [if_neg (not_not.2 ((inside sizeRead).2 whole)), if_pos]
        unfold goesOn at on
        rw [decide_eq_true (Nat.not_le.1 stop), decide_eq_true (Nat.not_lt.1 small),
          Bool.true_and, Bool.true_and, decide_eq_false_iff_not] at on
        exact Nat.not_lt.1 on
  | true =>
    have onward := on
    unfold goesOn at onward
    simp only [Bool.and_eq_true, decide_eq_true_eq] at onward
    obtain ⟨⟨more, large⟩, below⟩ := onward
    obtain ⟨sizeInside, inside⟩ := header_inside placed more
    have whole : pbr + 8 < dir.cbBaseRelocs :=
      (fits.header more).resolve_right fun h => Nat.not_le.2 h.2 large
    obtain ⟨returns, passes⟩ := @applyBlock_spec pe fDeltaOnly ulDelta ulRVAPage dir page pbr
      pvPage
    have isReturn := returns.2 (fits.entries on)
    have passes := passes isReturn
    have sizeRead := sizeInside.2 (.inl whole)
    have ends : ∀ rounds rc, applyBlock pe fDeltaOnly ulDelta ulRVAPage dir pbr pvPage =
        .returns (.error rc) →
        applyBlocks pe fDeltaOnly ulDelta ulRVAPage dir (rounds + 1) pbr pvPage =
          some (.returns (.error rc)) := by
      intro rounds rc done
      rw [applyBlocks, if_neg (Nat.not_le.2 more), if_neg (not_not.2 sizeRead),
        if_neg (Nat.not_lt.2 large), if_neg (not_not.2 ((inside sizeRead).2 whole)),
        if_neg (Nat.not_le.2 below), done]
    have continues : ∀ rounds after, applyBlock pe fDeltaOnly ulDelta ulRVAPage dir pbr pvPage =
        .returns (.ok after) →
        applyBlocks pe fDeltaOnly ulDelta ulRVAPage dir (rounds + 1) pbr pvPage =
          applyBlocks pe fDeltaOnly ulDelta ulRVAPage dir rounds
            (add32 pbr (dir.sizeOfBlock pbr)) after := by
      intro rounds after done
      rw [applyBlocks, if_neg (Nat.not_le.2 more), if_neg (not_not.2 sizeRead),
        if_neg (Nat.not_lt.2 large), if_neg (not_not.2 ((inside sizeRead).2 whole)),
        if_neg (Nat.not_le.2 below), done]
    rw [Bool.true_and]
    split
    · rename_i hnone
      split at hnone
      · cases hnone
      · rename_i no_pass
        obtain ⟨rc, done⟩ := isReturn
        refine ⟨rc, fun rounds => ?_⟩
        cases rc with
        | error rc => exact ends rounds rc done
        | ok after => exact absurd (passes.1 ⟨after, done⟩) no_pass
    · rename_i next hsome
      split at hsome
      · rename_i pass
        obtain rfl := Option.some.inj hsome
        obtain ⟨after, done⟩ := passes.2 pass
        exact ⟨⟨placed.size, add32_lt _ _⟩, after, fun rounds => continues rounds after done⟩
      · cases hsome

/-! ## Runs -/

open Relation Walk

theorem walk_of_return (page : IsPage ulRVAPage) {rounds pbr : ℕ} (placed : Placed dir pbr)
    {pvPage : Mem} {rc : Except ApiRet Mem}
    (done : applyBlocks pe fDeltaOnly ulDelta ulRVAPage dir rounds pbr pvPage =
      some (.returns rc)) :
    (∀ pbr', ReflTransGen (Step (nextBlock pe fDeltaOnly ulRVAPage dir)) pbr pbr' →
      BlockFits pe fDeltaOnly ulRVAPage dir pbr') ∧
    ∃ fuel l, path (nextBlock pe fDeltaOnly ulRVAPage dir) fuel pbr = some l := by
  induction rounds generalizing pbr pvPage with
  | zero => cases done
  | succ rounds ih =>
    have fits : BlockFits pe fDeltaOnly ulRVAPage dir pbr := by
      by_contra unfit
      exact not_return_of_unfit page placed unfit _ pvPage rc done
    have round := @round_of_fit pe fDeltaOnly ulDelta ulRVAPage dir page pbr placed fits pvPage
    cases link : nextBlock pe fDeltaOnly ulRVAPage dir pbr with
    | none =>
      refine ⟨fun pbr' reached => ?_, 1, [pbr], path_end link⟩
      rcases ReflTransGen.cases_head reached with rfl | ⟨next, step, -⟩
      · exact fits
      · exact absurd (link.symm.trans step) (by simp)
    | some next =>
      rw [link] at round
      obtain ⟨placed', after, same⟩ := round
      rw [same rounds] at done
      obtain ⟨rest_fits, fuel, l, walked⟩ := ih placed' done
      refine ⟨fun pbr' reached => ?_, fuel + 1, pbr :: l, ?_⟩
      · rcases ReflTransGen.cases_head reached with rfl | ⟨next', step, further⟩
        · exact fits
        · obtain rfl : next = next' := Option.some.inj (link.symm.trans step)
          exact rest_fits pbr' further
      · rw [path_link link, walked]
        rfl

theorem return_of_walk (page : IsPage ulRVAPage) {fuel pbr : ℕ} (placed : Placed dir pbr)
    {l : List ℕ} (walked : path (nextBlock pe fDeltaOnly ulRVAPage dir) fuel pbr = some l)
    (fits : ∀ pbr', ReflTransGen (Step (nextBlock pe fDeltaOnly ulRVAPage dir)) pbr pbr' →
      BlockFits pe fDeltaOnly ulRVAPage dir pbr') (pvPage : Mem) :
    ∃ rc, applyBlocks pe fDeltaOnly ulDelta ulRVAPage dir fuel pbr pvPage =
      some (.returns rc) := by
  induction fuel generalizing pbr pvPage l with
  | zero => cases walked
  | succ fuel ih =>
    have round := @round_of_fit pe fDeltaOnly ulDelta ulRVAPage dir page pbr placed
      (fits pbr ReflTransGen.refl) pvPage
    rcases path_cases walked with ⟨stop, -⟩ | ⟨next, rest, link, walked', -⟩
    · rw [stop] at round
      obtain ⟨rc, done⟩ := round
      exact ⟨rc, done fuel⟩
    · rw [link] at round
      obtain ⟨placed', after, same⟩ := round
      rw [same fuel]
      exact ih placed' walked' (fun pbr' further => fits pbr' (.head link further)) after

theorem placed_of_reached (size : dir.cbBaseRelocs < 0x100000000) {pbr : ℕ}
    (reached : ReflTransGen (Step (nextBlock pe fDeltaOnly ulRVAPage dir)) 0 pbr) :
    Placed dir pbr := by
  rcases ReflTransGen.cases_tail reached with same | ⟨before, -, link⟩
  · rw [same]
    exact ⟨size, by decide⟩
  · unfold Step nextBlock at link
    split at link
    · rw [← Option.some.inj link]
      exact ⟨size, add32_lt _ _⟩
    · cases link

/-- The block loop ends without a read outside of the directory or a store outside of the page,
if and only if the blocks fit. -/
theorem applyBlocks_returns_iff (page : IsPage ulRVAPage)
    (size : dir.cbBaseRelocs < 0x100000000) (pvPage : Mem) :
    (∃ rounds rc, applyBlocks pe fDeltaOnly ulDelta ulRVAPage dir rounds 0 pvPage =
        some (.returns rc)) ↔
      BlocksFit pe fDeltaOnly ulRVAPage dir := by
  have start : Placed dir 0 := ⟨size, by decide⟩
  constructor
  · rintro ⟨rounds, rc, done⟩ pbr reached
    obtain ⟨fits, fuel, l, walked⟩ := walk_of_return page start done
    exact ⟨fits pbr reached, acyclic_of_path walked reached⟩
  · intro fits
    have finite : {pbr | ReflTransGen (Step (nextBlock pe fDeltaOnly ulRVAPage dir)) 0 pbr ∧
        nextBlock pe fDeltaOnly ulRVAPage dir pbr ≠ none}.Finite :=
      (Set.finite_lt_nat 0x100000000).subset fun pbr h => (placed_of_reached size h.1).word
    obtain ⟨fuel, l, walked⟩ := exists_path finite fun pbr reached => (fits pbr reached).2
    obtain ⟨rc, done⟩ := return_of_walk page start walked (fun pbr reached => (fits pbr reached).1)
      pvPage
    exact ⟨fuel, rc, done⟩

/-! ## Plain directories -/

/-- A block ends below 4 GB, and begins at a page. -/
structure Plain (dir : Directory) (pbr : ℕ) : Prop where
  size : pbr + dir.sizeOfBlock pbr + 8 < 0x100000000
  aligned : 0x1000 ∣ dir.virtualAddress pbr

theorem fits_of_aligned (page : IsPage ulRVAPage) {virtualAddress : ℕ}
    (aligned : 0x1000 ∣ virtualAddress) (below : virtualAddress < add32 ulRVAPage 0x1000)
    (typeOffset : ℕ) : Fits pe fDeltaOnly ulRVAPage virtualAddress typeOffset := by
  rintro ⟨known, above, -⟩
  obtain ⟨pageAligned, word⟩ := page
  unfold cbFixupMax at known
  have offset : typeOffset % 0x1000 < 0x1000 := Nat.mod_lt _ (by decide)
  have sum : entryRVA virtualAddress typeOffset = typeOffset % 0x1000 + virtualAddress := by
    unfold add32 u32 at below
    exact add32_of_lt (by omega)
  rw [sum] at above ⊢
  generalize entrySize typeOffset = cb at known above ⊢
  generalize typeOffset % 0x1000 = off at offset above ⊢
  unfold add32 u32 at below above
  constructor
  · intro before
    omega
  · intro after
    right
    omega

theorem entriesFit_of {virtualAddress : ℕ}
    (fits : ∀ typeOffset, Fits pe fDeltaOnly ulRVAPage virtualAddress typeOffset)
    {cRelocations pwoffFixup : ℕ} (size : dir.cbBaseRelocs < 0x100000000)
    (inside : pwoffFixup + 2 * cRelocations ≤ dir.cbBaseRelocs) :
    EntriesFit pe fDeltaOnly ulRVAPage dir virtualAddress cRelocations pwoffFixup := by
  induction cRelocations generalizing pwoffFixup with
  | zero => trivial
  | succ cRelocations ih =>
    refine ⟨?_, .inr ⟨fits _, ih (by omega)⟩⟩
    unfold Directory.Inside u32
    omega

theorem blocksFit_of_plain (page : IsPage ulRVAPage) (size : dir.cbBaseRelocs < 0x100000000)
    (plain : ∀ pbr, ReflTransGen (Step (nextBlock pe fDeltaOnly ulRVAPage dir)) 0 pbr →
      goesOn ulRVAPage dir pbr = true → Plain dir pbr) :
    BlocksFit pe fDeltaOnly ulRVAPage dir := by
  have step : ∀ {pbr next}, ReflTransGen (Step (nextBlock pe fDeltaOnly ulRVAPage dir)) 0 pbr →
      Step (nextBlock pe fDeltaOnly ulRVAPage dir) pbr next →
      next + 8 < 0x100000000 ∧ pbr < next := by
    intro pbr next reached link
    unfold Step nextBlock at link
    split at link
    · rename_i on
      have on := (Bool.and_eq_true_iff.1 on).1
      have small := (plain pbr reached on).size
      unfold goesOn at on
      simp only [Bool.and_eq_true, decide_eq_true_eq] at on
      obtain rfl := Option.some.inj link
      rw [add32_of_lt (by omega)]
      omega
    · cases link
  intro pbr reached
  have low : pbr + 8 < 0x100000000 := by
    rcases ReflTransGen.cases_tail reached with same | ⟨before, reached', link⟩
    · rw [same]
      decide
    · exact (step reached' link).1
  have sum : add32 pbr 8 = pbr + 8 := add32_of_lt low
  refine ⟨⟨fun more => .inl (sum ▸ more), fun on _ => ?_⟩, fun cycle => ?_⟩
  · obtain ⟨small, aligned⟩ := plain pbr reached on
    unfold goesOn at on
    simp only [Bool.and_eq_true, decide_eq_true_eq] at on
    obtain ⟨⟨more, large⟩, below⟩ := on
    rw [sum] at more
    refine entriesFit_of (fits_of_aligned page aligned below) size ?_
    have count : pbr + 8 + 2 * dir.cRelocations pbr ≤ dir.cbBaseRelocs := by
      unfold Directory.cRelocations
      split
      · rw [sub32_of_le (by omega) size, sub32_of_le (by omega) (by omega)]
        omega
      · rename_i whole
        rw [add32_of_lt (by omega)] at whole
        rw [sub32_of_le large (by omega)]
        omega
    have skipped : dir.skipped ulRVAPage pbr ≤ dir.cRelocations pbr := by
      unfold Directory.skipped
      split <;> omega
    omega
  · have less : ∀ {b}, TransGen (Step (nextBlock pe fDeltaOnly ulRVAPage dir)) pbr b → pbr < b := by
      intro b links
      induction links with
      | single link => exact (step reached link).2
      | tail further link ih => exact ih.trans (step (reached.trans further.to_reflTransGen) link).2
    exact Nat.lt_irrefl pbr (less cycle)

def ofBytes (bytes : List UInt8) : Directory := ⟨fun i => bytes.getD i 0, bytes.length⟩

/-- An image of a header page and a section of one page. -/
def sampleModule : PeModule where
  paObjects := [{ ulRVA := 0, cbPhysical := 0x400, cbVirtual := 0x1000 },
    { ulRVA := 0x1000, cbPhysical := 0x1000, cbVirtual := 0x1000, offPEFile := 0x400 }]
  fAllInOneObject := false
  ulImageBase := 0x400000
  pBaseRelocs := none
  oteBase := fun _ => 0x10000
  file := fun _ => 0

/-- A block of one pointer and a filler. -/
def sampleDirectory : Directory := ofBytes [0, 0x10, 0, 0, 12, 0, 0, 0, 0x10, 0x30, 0, 0]

theorem sampleDirectory_plain : ∀ pbr,
    ReflTransGen (Step (nextBlock sampleModule true 0x1000 sampleDirectory)) 0 pbr →
      goesOn 0x1000 sampleDirectory pbr = true → Plain sampleDirectory pbr := by
  intro pbr reached on
  rcases ReflTransGen.cases_head reached with rfl | ⟨next, link, further⟩
  · exact ⟨by decide +kernel, by decide +kernel⟩
  · have first : nextBlock sampleModule true 0x1000 sampleDirectory 0 = some 12 := by
      decide +kernel
    obtain rfl : next = 12 := Option.some.inj (link.symm.trans first)
    have stop : nextBlock sampleModule true 0x1000 sampleDirectory 12 = none := by decide +kernel
    rcases ReflTransGen.cases_head further with rfl | ⟨next, link, -⟩
    · have halt : goesOn 0x1000 sampleDirectory 12 = false := by decide +kernel
      exact absurd (on.symm.trans halt) (by decide)
    · exact absurd (stop.symm.trans link) (by simp)

theorem sampleDirectory_returns :
    ∃ rounds rc, applyBlocks sampleModule true 0x10000 0x1000 sampleDirectory rounds 0
      (fun _ => 0) = some (.returns rc) :=
  (applyBlocks_returns_iff ⟨by decide, by decide⟩ (by decide) _).2
    (blocksFit_of_plain ⟨by decide, by decide⟩ (by decide) sampleDirectory_plain)

/-- The second block leads back to the first. -/
def loopingDirectory : Directory :=
  ofBytes [0, 0, 0, 0, 16, 0, 0, 0, 0, 0, 0, 0, 0, 0, 0, 0,
    0, 0, 0, 0, 0xf0, 0xff, 0xff, 0xff, 0, 0]

/-- The block begins two bytes in front of the page, and its pointer, too. -/
def unalignedDirectory : Directory := ofBytes [0xfe, 0xf, 0, 0, 10, 0, 0, 0, 0, 0x30]

/-- The second block ends behind 4 GB, and so does not look too long. -/
def longDirectory : Directory :=
  ofBytes [0, 0, 0, 0, 8, 0, 0, 0, 0, 0x10, 0, 0, 0xfc, 0xff, 0xff, 0xff, 0x10, 0x30]

theorem loopingDirectory_unfit : ¬BlocksFit sampleModule true 0x2000 loopingDirectory := by
  intro fits
  have there : nextBlock sampleModule true 0x2000 loopingDirectory 0 = some 16 := by
    decide +kernel
  have back : nextBlock sampleModule true 0x2000 loopingDirectory 16 = some 0 := by
    decide +kernel
  exact (fits 0 ReflTransGen.refl).2 (TransGen.head there (.single back))

theorem unalignedDirectory_unfit :
    ¬BlockFits sampleModule true 0x1000 unalignedDirectory 0 := by
  intro fits
  have entries := fits.entries (by decide +kernel) (by decide +kernel)
  have count : unalignedDirectory.cRelocations 0 - unalignedDirectory.skipped 0x1000 0 = 1 := by
    decide +kernel
  rw [count] at entries
  obtain ⟨-, stop | ⟨fit, -⟩⟩ := entries
  · exact absurd stop (by decide +kernel)
  · exact absurd ((fit (by decide +kernel)).1 (by decide +kernel)) (by decide +kernel)

theorem longDirectory_unfit : ¬BlockFits sampleModule true 0x1000 longDirectory 8 := by
  intro fits
  have entries := fits.entries (by decide +kernel) (by decide +kernel)
  have count : longDirectory.cRelocations 8 - longDirectory.skipped 0x1000 8 =
      0x7ffffff8 + 1 + 1 := by decide +kernel
  rw [count] at entries
  obtain ⟨-, stop | ⟨-, inside, -⟩⟩ := entries
  · exact absurd stop (by decide +kernel)
  · exact absurd inside (by decide +kernel)

/-- A run that never ends, one that stores in front of the page, and one that reads behind the
directory. -/
theorem not_returns_malformed :
    (¬∃ rounds rc, applyFixupsDelta sampleModule 0x10000 0x2000 loopingDirectory rounds
      (fun _ => 0) = some (.returns rc)) ∧
    (¬∃ rounds rc, applyFixupsDelta sampleModule 0x10000 0x1000 unalignedDirectory rounds
      (fun _ => 0) = some (.returns rc)) ∧
    ¬∃ rounds rc, applyFixupsDelta sampleModule 0x10000 0x1000 longDirectory rounds
      (fun _ => 0) = some (.returns rc) := by
  refine ⟨?_, ?_, ?_⟩
  · rintro ⟨rounds, rc, done⟩
    obtain ⟨fits, fuel, l, walked⟩ := walk_of_return ⟨by decide, by decide⟩
      ⟨by decide, by decide⟩ done
    exact loopingDirectory_unfit fun pbr reached =>
      ⟨fits pbr reached, acyclic_of_path walked reached⟩
  · rintro ⟨rounds, rc, done⟩
    exact not_return_of_unfit ⟨by decide, by decide⟩ ⟨by decide, by decide⟩
      unalignedDirectory_unfit rounds _ rc done
  · rintro ⟨rounds, rc, done⟩
    obtain ⟨fits, -⟩ := walk_of_return ⟨by decide, by decide⟩ ⟨by decide, by decide⟩ done
    have second : nextBlock sampleModule true 0x1000 longDirectory 0 = some 8 := by
      decide +kernel
    exact longDirectory_unfit (fits 8 (.single second))

end Odin32.LxRelocations
