import Odin32.MemMapPageIn

/-! # What a page holds after faults

As long as every region that gets committed is read in full, the bytes of the committed pages
are those of the file with the writes made since, whatever else fails: an error after the
reading leaves right bytes behind, and one before it no page. -/

set_option autoImplicit false

namespace Odin32.MemMapPageIn
open Odin32.Word Odin32.ByteMemory Odin32.MemMap Odin32.MemMap.Win32MemMap Odin32.MemMapTrack

/-- A file map as `allocateMap` makes it. -/
structure FileMap (map : Win32MemMap) : Prop where
  file : map.fFile = true
  reserved : map.cbReserved = 0x1000 * pagesFor map.mSize
  small : map.mSize ≤ 0x7fc00000

/-- The committed pages hold what they should, and nothing was written elsewhere. -/
structure Sound (st : State) : Prop extends FileMap st.map where
  bytes : ∀ i < st.map.mSize, st.committed (i / 0x1000) = true → st.mapping i = st.expected i
  unwritten : ∀ i, st.committed (i / 0x1000) = false → st.written i = none

/-- What no call changes. -/
structure Keeps (st st' : State) : Prop where
  mSize : st'.map.mSize = st.map.mSize
  cbReserved : st'.map.cbReserved = st.map.cbReserved
  fFile : st'.map.fFile = st.map.fFile
  file : st'.file = st.file
  committed : ∀ q, st.committed q = true → st'.committed q = true

theorem Keeps.refl (st : State) : Keeps st st := ⟨rfl, rfl, rfl, rfl, fun _ h => h⟩

theorem Keeps.trans {a b c : State} (hab : Keeps a b) (hbc : Keeps b c) : Keeps a c where
  mSize := hbc.mSize.trans hab.mSize
  cbReserved := hbc.cbReserved.trans hab.cbReserved
  fFile := hbc.fFile.trans hab.fFile
  file := hbc.file.trans hab.file
  committed q h := hbc.committed q (hab.committed q h)

/-- The views, the protection of committed pages and the dirty pages may differ. -/
structure SameMemory (st st' : State) : Prop where
  mSize : st'.map.mSize = st.map.mSize
  cbReserved : st'.map.cbReserved = st.map.cbReserved
  fFile : st'.map.fFile = st.map.fFile
  file : st'.file = st.file
  committed : ∀ q, st'.committed q = st.committed q
  mapping : st'.mapping = st.mapping
  written : st'.written = st.written

theorem SameMemory.refl (st : State) : SameMemory st st :=
  ⟨rfl, rfl, rfl, rfl, fun _ => rfl, rfl, rfl⟩

theorem SameMemory.trans {a b c : State} (hab : SameMemory a b) (hbc : SameMemory b c) :
    SameMemory a c where
  mSize := hbc.mSize.trans hab.mSize
  cbReserved := hbc.cbReserved.trans hab.cbReserved
  fFile := hbc.fFile.trans hab.fFile
  file := hbc.file.trans hab.file
  committed q := (hbc.committed q).trans (hab.committed q)
  mapping := hbc.mapping.trans hab.mapping
  written := hbc.written.trans hab.written

theorem SameMemory.keeps {st st' : State} (same : SameMemory st st') : Keeps st st' :=
  ⟨same.mSize, same.cbReserved, same.fFile, same.file,
    fun q h => (same.committed q).trans h⟩

theorem FileMap.of_keeps {st st' : State} (map : FileMap st.map) (keeps : Keeps st st') :
    FileMap st'.map :=
  ⟨keeps.fFile.trans map.file, by rw [keeps.cbReserved, keeps.mSize]; exact map.reserved,
    by rw [keeps.mSize]; exact map.small⟩

theorem Sound.of_same {st st' : State} (sound : Sound st) (same : SameMemory st st') :
    Sound st' where
  toFileMap := sound.toFileMap.of_keeps same.keeps
  bytes i hi committed := by
    rw [same.mSize] at hi
    rw [same.committed] at committed
    rw [same.mapping, State.expected, same.written, same.file]
    exact sound.bytes i hi committed
  unwritten i free := by
    rw [same.committed] at free
    rw [same.written]
    exact sound.unwritten i free

theorem sameMemory_onMap {st : State} {f : Win32MemMap → Win32MemMap}
    (mSize : (f st.map).mSize = st.map.mSize) (reserved : (f st.map).cbReserved = st.map.cbReserved)
    (file : (f st.map).fFile = st.map.fFile) (page : (f st.map).page = st.map.page) :
    SameMemory st (st.onMap f) where
  mSize := mSize
  cbReserved := reserved
  fFile := file
  file := rfl
  committed q := congrArg (fun page => (page q).isSome) page
  mapping := rfl
  written := rfl

theorem sameMemory_protectRegion (st : State) (answers : Answers) (offset regionSize : ℕ)
    (a : PageAttr) : SameMemory st (st.protectRegion answers offset regionSize a).2 := by
  unfold State.protectRegion
  split
  · cases protect : st.map.protectPages offset regionSize a with
    | none => exact SameMemory.refl st
    | some map =>
      unfold protectPages at protect
      dsimp only at protect
      split at protect
      · rename_i all
        obtain rfl := Option.some.inj protect
        refine ⟨rfl, rfl, rfl, rfl, fun q => ?_, rfl, rfl⟩
        show (if q ∈ _ then some a else st.map.page q).isSome = (st.map.page q).isSome
        split
        · rename_i mem
          exact (List.all_eq_true.1 all q mem).symm
        · rfl
      · cases protect
  · exact SameMemory.refl st

/-! ## One region -/

/-- A region of whole pages or up to the end of the map. -/
structure Region (st : State) (offPage regionSize : ℕ) : Prop where
  aligned : offPage % 0x1000 = 0
  inside : offPage < st.map.mSize
  nonzero : 0 < regionSize
  whole : regionSize % 0x1000 = 0 ∨ offPage + regionSize = st.map.mSize
  small : regionSize < 0x100000000
  uniform : ∀ q, offPage ≤ 0x1000 * q → 0x1000 * q < offPage + regionSize →
    st.map.page q = st.map.page (offPage / 0x1000)

/-- A page of the region. -/
def InRegion (offPage regionSize q : ℕ) : Prop :=
  offPage ≤ 0x1000 * q ∧ 0x1000 * q < offPage + regionSize

instance (offPage regionSize q : ℕ) : Decidable (InRegion offPage regionSize q) :=
  inferInstanceAs (Decidable (_ ∧ _))

/-- The memory of a region has been committed and the file read into it. -/
structure Loaded (st st' : State) (offPage regionSize : ℕ) : Prop where
  mSize : st'.map.mSize = st.map.mSize
  cbReserved : st'.map.cbReserved = st.map.cbReserved
  fFile : st'.map.fFile = st.map.fFile
  file : st'.file = st.file
  written : st'.written = st.written
  committed : ∀ q, st'.committed q = true ↔ InRegion offPage regionSize q ∨ st.committed q = true
  loaded : ∀ i < st.map.mSize, InRegion offPage regionSize (i / 0x1000) →
    st'.mapping i = st.file i
  outside : ∀ i, ¬InRegion offPage regionSize (i / 0x1000) → st'.mapping i = st.mapping i

theorem Loaded.same {st st' st'' : State} {offPage regionSize : ℕ}
    (loaded : Loaded st st' offPage regionSize) (same : SameMemory st' st'') :
    Loaded st st'' offPage regionSize where
  mSize := same.mSize.trans loaded.mSize
  cbReserved := same.cbReserved.trans loaded.cbReserved
  fFile := same.fFile.trans loaded.fFile
  file := same.file.trans loaded.file
  written := same.written.trans loaded.written
  committed q := by rw [same.committed, loaded.committed]
  loaded i hi inside := by rw [same.mapping, loaded.loaded i hi inside]
  outside i outside := by rw [same.mapping, loaded.outside i outside]

theorem Loaded.keeps {st st' : State} {offPage regionSize : ℕ}
    (loaded : Loaded st st' offPage regionSize) : Keeps st st' :=
  ⟨loaded.mSize, loaded.cbReserved, loaded.fFile, loaded.file,
    fun q h => (loaded.committed q).2 (.inr h)⟩

theorem Loaded.sound {st st' : State} {offPage regionSize : ℕ} (sound : Sound st)
    (region : Region st offPage regionSize) (free : st.map.page (offPage / 0x1000) = none)
    (loaded : Loaded st st' offPage regionSize) : Sound st' where
  toFileMap := sound.toFileMap.of_keeps loaded.keeps
  bytes i hi committed := by
    rw [loaded.mSize] at hi
    rw [State.expected, loaded.written, loaded.file]
    by_cases inside : InRegion offPage regionSize (i / 0x1000)
    · have unwritten : st.written i = none := by
        refine sound.unwritten i ?_
        rw [State.committed, region.uniform _ inside.1 inside.2, free]
        rfl
      rw [loaded.loaded i hi inside, unwritten]
      rfl
    · rw [loaded.outside i inside]
      exact sound.bytes i hi (((loaded.committed _).1 committed).resolve_left inside)
  unwritten i free' := by
    rw [loaded.written]
    refine sound.unwritten i ?_
    by_contra was
    rw [(loaded.committed _).2 (.inr (by simpa using was))] at free'
    cases free'

theorem loaded_store {st : State} {offPage regionSize : ℕ} (map : FileMap st.map)
    (region : Region st offPage regionSize) (answers : Answers) {f : Win32MemMap → Win32MemMap}
    (same : ∀ st : State, SameMemory st (st.onMap f)) :
    Loaded st ((((st.commitMemory answers (offPage / 0x1000) (nrPages regionSize)).onMap f).store
      offPage (((st.commitMemory answers (offPage / 0x1000) (nrPages regionSize)).onMap f).readSize
        offPage regionSize))) offPage regionSize := by
  obtain ⟨aligned, inside, nonzero, whole, small, -⟩ := region
  have mapSmall := map.small
  set memory := st.commitMemory answers (offPage / 0x1000) (nrPages regionSize) with hmemory
  have changed := same memory
  have pages : ∀ q, offPage / 0x1000 ≤ q ∧ q < offPage / 0x1000 + nrPages regionSize ↔
      InRegion offPage regionSize q := by
    intro q
    unfold InRegion nrPages pagesFor
    omega
  have size : (memory.onMap f).readSize offPage regionSize =
      if st.map.mSize < add32 offPage regionSize then sub32 st.map.mSize offPage
      else regionSize := by
    rw [State.readSize, changed.mSize]
    rfl
  refine ⟨changed.mSize, changed.cbReserved, changed.fFile, changed.file, changed.written, ?_,
    ?_, ?_⟩
  · intro q
    have here := changed.committed q
    show (memory.onMap f).committed q = true ↔ _
    rw [here, State.committed]
    show (if _ ∧ _ then some PageAttr.readwrite else st.map.page q).isSome = true ↔ _
    rw [if_congr (pages q) rfl rfl]
    split
    · simp_all
    · simp_all [State.committed]
  · intro i hi inRegion
    show (if _ then (memory.onMap f).file i else (memory.onMap f).mapping i) = _
    rw [changed.file, if_pos]
    · rfl
    · rw [size]
      unfold InRegion at inRegion
      unfold add32 sub32 u32
      split <;> omega
  · intro i outside
    show (if _ then (memory.onMap f).file i else (memory.onMap f).mapping i) = _
    have beyond : ¬(offPage ≤ i ∧ i < offPage + (memory.onMap f).readSize offPage regionSize) := by
      rw [size]
      unfold InRegion at outside
      unfold add32 sub32 u32
      split <;> omega
    rw [if_neg beyond, changed.mapping]
    show (if _ then 0 else st.mapping i) = _
    rw [if_congr (pages _) rfl rfl, if_neg outside]

theorem sameMemory_updateViewPages (st : State) (offset size : ℕ) (flags : PageView) :
    SameMemory st (st.onMap fun map => map.updateViewPages offset size flags) :=
  sameMemory_onMap rfl rfl rfl rfl

theorem commitRegion_spec {st : State} (sound : Sound st) {answers : Answers}
    {offPage regionSize : ℕ} (region : Region st offPage regionSize) (fWriteAccess : Bool)
    (offset : ℕ) (loads : st.regionLoads answers offPage regionSize = true) :
    Sound (st.commitRegion answers fWriteAccess offset offPage regionSize).2.1 ∧
    Keeps st (st.commitRegion answers fWriteAccess offset offPage regionSize).2.1 ∧
    ((st.commitRegion answers fWriteAccess offset offPage regionSize).1 = true →
      ∀ q, InRegion offPage regionSize q →
        (st.commitRegion answers fWriteAccess offset offPage regionSize).2.1.committed q = true) := by
  unfold State.commitRegion
  dsimp only
  cases here : st.map.page (offPage / 0x1000) with
  | none =>
    dsimp only
    by_cases alloc : answers.fAlloc offPage = true
    · rw [if_pos alloc]
      set flags : PageView := if fWriteAccess then .view else .readonly
      set memory := (st.commitMemory answers (offPage / 0x1000) (nrPages regionSize)).onMap
        fun map => map.updateViewPages offset regionSize flags with hmemory
      have file : memory.map.fFile = true := sound.file
      have size : memory.readSize offPage regionSize = st.readSize offPage regionSize := rfl
      have delivery : answers.delivery offPage = .reads (memory.readSize offPage regionSize) := by
        simpa [State.regionLoads, State.committed, here, alloc, size] using loads
      have loaded : Loaded st (memory.store offPage (memory.readSize offPage regionSize)) offPage
          regionSize :=
        loaded_store sound.toFileMap region answers fun st =>
          sameMemory_updateViewPages st offset regionSize flags
      -- what comes after the reading leaves the memory alone
      have done : ∀ st', SameMemory (memory.store offPage (memory.readSize offPage regionSize)) st' →
          Sound st' ∧ Keeps st st' ∧
            ∀ q, InRegion offPage regionSize q → st'.committed q = true := by
        intro st' same
        have loaded' := loaded.same same
        exact ⟨loaded'.sound sound region here, loaded'.keeps,
          fun q inRegion => (loaded'.committed q).2 (.inl inRegion)⟩
      have read : memory.readRegion answers offPage regionSize =
          (true, memory.store offPage (memory.readSize offPage regionSize)) := by
        unfold State.readRegion
        simp only [delivery, beq_self_eq_true, min_self]
      rw [if_pos file, if_pos file, read]
      cases fWriteAccess with
      | true =>
        obtain ⟨sound', keeps, there⟩ := done _ (sameMemory_onMap (f := fun map =>
          (map.markDirtyPages (offPage / 0x1000) (nrPages regionSize)).updateViewPages offPage
            regionSize .guard) rfl rfl rfl rfl)
        exact ⟨sound', keeps, fun _ => there⟩
      | false =>
        obtain ⟨sound', keeps, there⟩ := done _ (sameMemory_protectRegion _ answers offPage
          regionSize .readonly)
        exact ⟨sound', keeps, fun _ => there⟩
    · rw [if_neg alloc]
      exact ⟨sound, Keeps.refl st, fun h => by cases h⟩
  | some attr =>
    have there : ∀ st', SameMemory st st' → Sound st' ∧ Keeps st st' ∧
        ∀ q, InRegion offPage regionSize q → st'.committed q = true := by
      intro st' same
      refine ⟨sound.of_same same, same.keeps, fun q inRegion => ?_⟩
      rw [same.committed, State.committed, region.uniform q inRegion.1 inRegion.2, here]
      rfl
    dsimp only
    cases fWriteAccess with
    | false =>
      obtain ⟨sound', keeps, committed⟩ := there st (SameMemory.refl st)
      exact ⟨sound', keeps, fun _ => committed⟩
    | true =>
      have marked : SameMemory st (st.onMap fun map =>
          map.markDirtyPages (offPage / 0x1000) (nrPages regionSize)) :=
        sameMemory_onMap rfl rfl rfl rfl
      have protect := marked.trans (sameMemory_protectRegion _ answers offPage regionSize
        .readwrite)
      set done := (st.onMap fun map =>
        map.markDirtyPages (offPage / 0x1000) (nrPages regionSize)).protectRegion answers offPage
          regionSize .readwrite
      rw [if_pos rfl]
      dsimp only
      have views : SameMemory st (if done.1 = true then done.2.onMap fun map =>
          (map.updateViewPages offset regionSize .view).updateViewPages offset regionSize .guard
          else done.2) := by
        split
        · exact protect.trans (sameMemory_onMap rfl rfl rfl rfl)
        · exact protect
      obtain ⟨sound', keeps, committed⟩ := there _ views
      exact ⟨sound', keeps, fun _ => committed⟩

/-! ## Calls -/

theorem region_of_size {st : State} (sound : Sound st) {offPage faultsize : ℕ}
    (aligned : offPage % 0x1000 = 0) (nonzero : faultsize ≠ 0)
    (tail : faultsize % 0x1000 = 0 ∨ offPage + faultsize = st.map.mSize)
    (small : faultsize < 0x100000000) (reserved : offPage < st.map.cbReserved) :
    Region st offPage (st.map.regionSize (offPage / 0x1000) faultsize) ∧
      st.map.regionSize (offPage / 0x1000) faultsize ≤ faultsize ∧
      offPage + st.map.regionSize (offPage / 0x1000) faultsize ≤ st.map.cbReserved ∧
      (st.map.regionSize (offPage / 0x1000) faultsize < faultsize →
        st.map.regionSize (offPage / 0x1000) faultsize % 0x1000 = 0) := by
  have start : 0x1000 * (offPage / 0x1000) = offPage := by omega
  obtain ⟨positive, le, uniform, whole⟩ := @regionSize_spec st.map (offPage / 0x1000)
    faultsize (by omega) (by rw [start]; exact reserved)
  have inside : offPage < st.map.mSize := by
    have := sound.reserved
    unfold pagesFor at this
    omega
  have fits : offPage + st.map.regionSize (offPage / 0x1000) faultsize ≤ st.map.cbReserved := by
    have last := (uniform ((offPage + st.map.regionSize (offPage / 0x1000) faultsize - 1) / 0x1000)
      (by omega) (by omega)).2
    have pages := sound.reserved
    omega
  refine ⟨⟨aligned, inside, positive, ?_, by omega, fun q lo hi => ?_⟩, le, fits,
    fun lt => (whole lt).1⟩
  · rcases Nat.lt_or_eq_of_le le with lt | eq
    · exact .inl (whole lt).1
    · rw [eq]
      exact tail
  · rw [start] at uniform
    exact (uniform q (by omega) hi).1

theorem commitLoop_spec {answers : Answers} {fWriteAccess : Bool} {rounds : ℕ} {st : State}
    (sound : Sound st) {offset offPage faultsize : ℕ} (aligned : offPage % 0x1000 = 0)
    (tail : faultsize % 0x1000 = 0 ∨ offPage + faultsize = st.map.mSize)
    (small : faultsize < 0x100000000) (enough : pagesFor faultsize ≤ rounds)
    (loads : State.loopLoads answers fWriteAccess rounds st offset offPage faultsize = true) :
    Sound (State.commitLoop answers fWriteAccess rounds st offset offPage faultsize).2 ∧
    Keeps st (State.commitLoop answers fWriteAccess rounds st offset offPage faultsize).2 ∧
    ((State.commitLoop answers fWriteAccess rounds st offset offPage faultsize).1 = true →
      ∀ q, InRegion offPage faultsize q →
        (State.commitLoop answers fWriteAccess rounds st offset offPage faultsize).2.committed q =
          true) := by
  induction rounds generalizing st offset offPage faultsize with
  | zero =>
    refine ⟨sound, Keeps.refl st, fun _ q inside => ?_⟩
    unfold InRegion at inside
    unfold pagesFor at enough
    omega
  | succ rounds ih =>
    rw [State.loopLoads] at loads
    rw [State.commitLoop]
    by_cases empty : faultsize = 0
    · rw [if_pos empty]
      refine ⟨sound, Keeps.refl st, fun _ q inside => ?_⟩
      unfold InRegion at inside
      omega
    rw [if_neg empty]
    by_cases refused : st.map.cbReserved ≤ offPage ∨ answers.fQuery offPage = false
    · rw [if_pos refused]
      exact ⟨sound, Keeps.refl st, fun h => by cases h⟩
    rw [if_neg refused]
    obtain ⟨reserved, query⟩ := not_or.1 refused
    obtain ⟨region, le, fits, whole⟩ := region_of_size sound aligned empty tail small
      (Nat.lt_of_not_le reserved)
    have answered : answers.fQuery offPage = true := by simpa using query
    simp only [answered, Bool.not_true, Bool.or_false, Bool.or_eq_true, beq_iff_eq, empty,
      false_or, decide_eq_true_eq, reserved, Bool.and_eq_true] at loads
    set size := st.map.regionSize (offPage / 0x1000) faultsize with hsize
    obtain ⟨sound', keeps, there⟩ := commitRegion_spec sound region fWriteAccess offset loads.1
    dsimp only
    cases done : st.commitRegion answers fWriteAccess offset offPage size with
    | mk ok rest =>
      obtain ⟨st', offset'⟩ := rest
      rw [done] at sound' keeps there loads
      cases ok with
      | false => exact ⟨sound', keeps, fun h => by cases h⟩
      | true =>
        dsimp only at loads sound' keeps there ⊢
        have pages := sound.reserved
        have mapSmall := sound.small
        have next : add32 offPage size = offPage + size :=
          add32_of_lt (by unfold pagesFor at pages; omega)
        rw [next] at loads ⊢
        have nonzero := region.nonzero
        by_cases finished : faultsize - size = 0
        · have same : faultsize = size := by omega
          have stop : ∀ rounds, State.commitLoop answers fWriteAccess rounds st' offset'
              (offPage + size) 0 = (true, st') := by
            intro rounds
            cases rounds <;> rfl
          rw [finished, stop, same]
          exact ⟨sound', keeps, there⟩
        · have part := whole (by omega)
          obtain ⟨sound'', keeps', there'⟩ := @ih st' sound' offset' (offPage + size)
            (faultsize - size) (by omega) (by rw [keeps.mSize]; omega) (by omega) (by unfold pagesFor at enough ⊢; omega) loads.2
          refine ⟨sound'', keeps.trans keeps', fun ok q inside => ?_⟩
          by_cases first : InRegion offPage size q
          · exact keeps'.committed q (there rfl q first)
          · refine there' ok q ?_
            unfold InRegion at first inside ⊢
            omega

/-- After a call the committed pages are right, and those of a call that succeeds are there. -/
structure Right (st : State) (done : Bool × State) (pages : ℕ → Prop) : Prop where
  sound : Sound done.2
  keeps : Keeps st done.2
  there : done.1 = true → ∀ i < st.map.mSize, pages i → done.2.committed (i / 0x1000) = true

theorem Right.of_failure {st st' : State} {pages : ℕ → Prop} (sound : Sound st')
    (keeps : Keeps st st') : Right st (false, st') pages :=
  ⟨sound, keeps, fun h => by cases h⟩

theorem Right.same {st st' st'' : State} {ok ok' : Bool} {pages : ℕ → Prop}
    (right : Right st (ok, st') pages) (same : SameMemory st' st'') (le : ok' = true → ok = true) :
    Right st (ok', st'') pages where
  sound := right.sound.of_same same
  keeps := right.keeps.trans same.keeps
  there h i hi on := by
    rw [same.committed]
    exact right.there (le h) i hi on

theorem commitFile_spec {st : State} (sound : Sound st) {answers : Answers} (ulFaultAddr : ℕ)
    {offset nrpages : ℕ} {fWriteAccess : Bool}
    (loads : (fWriteAccess && !st.map.viewMayWrite ulFaultAddr) = true ∨
      st.fileLoads answers offset fWriteAccess nrpages = true) :
    Right st (st.commitFile answers ulFaultAddr offset fWriteAccess nrpages)
      (onPages offset fWriteAccess nrpages) := by
  unfold State.commitFile
  split
  · exact Right.of_failure sound (Keeps.refl st)
  · rename_i allowed
    have loads := loads.resolve_left allowed
    unfold State.fileLoads at loads
    dsimp only at loads ⊢
    have pages := sound.reserved
    have mapSmall := sound.small
    have aligned : offset / 0x1000 * 0x1000 % 0x1000 = 0 := by omega
    by_cases beyond : st.map.cbReserved ≤ offset / 0x1000 * 0x1000
    · -- no byte of the map lies there
      have none : ∀ i < st.map.mSize, ¬onPages offset fWriteAccess nrpages i := by
        intro i hi on
        unfold onPages at on
        unfold pagesFor at pages
        omega
      have still : ∀ rounds faultsize, (State.commitLoop answers fWriteAccess rounds st
          (offset / 0x1000 * 0x1000) (offset / 0x1000 * 0x1000) faultsize).2 = st := by
        intro rounds faultsize
        cases rounds with
        | zero => rfl
        | succ rounds =>
          rw [State.commitLoop]
          split
          · rfl
          · rw [if_pos (.inl beyond)]
      rw [← Prod.eta (State.commitLoop _ _ _ _ _ _ _), still]
      exact ⟨sound, Keeps.refl st, fun _ i hi on => absurd on (none i hi)⟩
    · have inside : offset / 0x1000 * 0x1000 < st.map.mSize := by
        unfold pagesFor at pages
        omega
      set cb := if fWriteAccess then 0x1000 else u32 (0x1000 * nrpages) with hcb
      have cb_pages : cb % 0x1000 = 0 ∧ cb < 0x100000000 := by
        rw [hcb]
        unfold u32
        split <;> omega
      have size : st.map.faultSize fWriteAccess (offset / 0x1000 * 0x1000) nrpages =
          if st.map.mSize < add32 (offset / 0x1000 * 0x1000) cb then
            st.map.mSize - offset / 0x1000 * 0x1000 else cb := by
        unfold faultSize
        rw [sub32_of_le (by omega) (by omega)]
      rw [size] at loads ⊢
      set faultsize := if st.map.mSize < add32 (offset / 0x1000 * 0x1000) cb then
        st.map.mSize - offset / 0x1000 * 0x1000 else cb with hfault
      obtain ⟨sound', keeps, there⟩ := @commitLoop_spec _ _ _ _ sound
        (offset / 0x1000 * 0x1000) _ faultsize aligned (by rw [hfault]; split <;> omega)
        (by rw [hfault]; split <;> omega) (Nat.le_refl _) loads
      refine ⟨sound', keeps, fun ok i hi on => there ok _ ?_⟩
      obtain ⟨lo, hi'⟩ : offset / 0x1000 * 0x1000 ≤ i ∧ i < offset / 0x1000 * 0x1000 + cb := on
      unfold InRegion
      rw [hfault]
      split <;> omega

theorem onPages_page (offset i : ℕ) :
    onPages (offset / 0x1000 * 0x1000) false 1 i ↔ onPages offset false 1 i := by
  unfold onPages
  rw [Nat.mul_div_cancel _ (by decide)]

theorem commitGuardPage_spec {st : State} (sound : Sound st) {answers : Answers}
    (ulFaultAddr : ℕ) {ulOffset : ℕ} (fWriteAccess : Bool)
    (loads : st.fileLoads answers (ulOffset / 0x1000 * 0x1000) false 1 = true) :
    Right st (st.commitGuardPage answers ulFaultAddr ulOffset fWriteAccess)
      (onPages ulOffset false 1) := by
  have right := commitFile_spec sound ulFaultAddr (.inr loads)
  unfold State.commitGuardPage
  dsimp only
  cases done : st.commitFile answers ulFaultAddr (ulOffset / 0x1000 * 0x1000) false 1 with
  | mk ok st' =>
    rw [done] at right
    have right : Right st (ok, st') (onPages ulOffset false 1) :=
      ⟨right.sound, right.keeps, fun h i hi on => right.there h i hi ((onPages_page _ _).2 on)⟩
    have viewed : ∀ f : Win32MemMapView → Win32MemMapView,
        SameMemory st' (st'.onMap fun map => map.modifyView ulFaultAddr f) :=
      fun f => sameMemory_onMap rfl rfl rfl rfl
    cases ok with
    | false => exact right
    | true =>
      dsimp only
      split
      · exact right.same (SameMemory.refl st') fun h => by cases h
      · split
        · split
          · exact right.same (viewed _) fun _ => rfl
          · split
            · exact right.same (sameMemory_onMap rfl rfl rfl rfl) fun _ => rfl
            · exact right.same (viewed _) fun h => by cases h
        · exact right.same (viewed _) fun h => by cases h

theorem commitPage_spec {st : State} (sound : Sound st) {answers : Answers} (ulFaultAddr : ℕ)
    {offset nrpages : ℕ} {fWriteAccess : Bool}
    (loads : st.pageLoads answers ulFaultAddr offset fWriteAccess nrpages = true) :
    Right st (st.commitPage answers ulFaultAddr offset fWriteAccess nrpages)
      (onPages offset fWriteAccess nrpages) := by
  unfold State.pageLoads at loads
  unfold State.commitPage
  split
  · rename_i cow
    rw [if_pos cow] at loads
    have write : fWriteAccess = true := (Bool.and_eq_true_iff.1 cow).1
    have right := commitGuardPage_spec sound ulFaultAddr fWriteAccess loads
    rw [write] at right ⊢
    exact right
  · rename_i cow
    rw [if_neg cow] at loads
    exact commitFile_spec sound ulFaultAddr (Bool.or_eq_true_iff.1 loads)

theorem commitEach_spec {answers : Answers} {nrpages : ℕ} {st : State} (sound : Sound st)
    {ulFaultAddr offset : ℕ}
    (loads : State.eachLoads answers nrpages st ulFaultAddr offset = true) :
    Right st (State.commitEach answers nrpages st ulFaultAddr offset)
      fun i => onEach i nrpages offset := by
  induction nrpages generalizing st ulFaultAddr offset with
  | zero => exact ⟨sound, Keeps.refl st, fun _ i _ on => on.elim⟩
  | succ nrpages ih =>
    rw [State.eachLoads, Bool.and_eq_true] at loads
    have right := commitPage_spec sound ulFaultAddr loads.1
    rw [State.commitEach]
    cases done : st.commitPage answers ulFaultAddr offset true 1 with
    | mk ok st' =>
      rw [done] at right loads
      cases ok with
      | false => exact Right.of_failure right.sound right.keeps
      | true =>
        have rest := ih right.sound loads.2
        refine ⟨rest.sound, right.keeps.trans rest.keeps, fun h i hi on => ?_⟩
        rcases on with here | later
        · exact rest.keeps.committed _ (right.there rfl i hi here)
        · exact rest.there h i (by rw [right.keeps.mSize]; exact hi) later

theorem writeView_sound {st : State} (sound : Sound st) (address : ℕ) (b : UInt8) :
    Sound (st.writeView address b) ∧ Keeps st (st.writeView address b) := by
  unfold State.writeView
  cases st.map.findView address with
  | none => exact ⟨sound, Keeps.refl st⟩
  | some view =>
    dsimp only
    split
    · exact ⟨sound, Keeps.refl st⟩
    · rename_i through
      obtain ⟨-, present⟩ := Bool.or_eq_false_iff.1 (Bool.not_eq_true _ ▸ through)
      set i := add32 view.mOffset (address - view.pMapView)
      refine ⟨⟨sound.toFileMap, fun j hj committed => ?_, fun j free => ?_⟩,
        ⟨rfl, rfl, rfl, rfl, fun _ h => h⟩⟩
      · show Function.update st.mapping i b j = (Function.update st.written i (some b) j).getD _
        by_cases here : j = i
        · rw [here, Function.update_self, Function.update_self]
          rfl
        · rw [Function.update_of_ne here, Function.update_of_ne here]
          exact sound.bytes j hj committed
      · show Function.update st.written i (some b) j = none
        have other : j ≠ i := by
          intro here
          have free : st.committed (j / 0x1000) = false := free
          rw [here] at free
          rw [free] at present
          cases present
        rw [Function.update_of_ne other]
        exact sound.unwritten j free

/-! ## Runs -/

theorem step_right {st : State} (sound : Sound st) {answers : Answers} {op : Op}
    (loads : loads st answers op = true) :
    Right st (step st answers op) fun i => covers i op := by
  cases op with
  | commitPage ulFaultAddr offset fWriteAccess nrpages =>
    exact commitPage_spec sound ulFaultAddr loads
  | commitGuardPage ulFaultAddr ulOffset fWriteAccess =>
    exact commitGuardPage_spec sound ulFaultAddr fWriteAccess loads
  | commitRange ulFaultAddr offset fWriteAccess nrpages =>
    cases fWriteAccess with
    | false =>
      have page : st.pageLoads answers ulFaultAddr offset false nrpages = true := loads
      exact commitPage_spec sound ulFaultAddr page
    | true => exact commitEach_spec sound loads
  | writeView address b =>
    obtain ⟨sound', keeps⟩ := writeView_sound sound address b
    exact ⟨sound', keeps, fun _ i _ on => on.elim⟩

theorem run_exact_of_sound {st : State} (sound : Sound st) {ops : List (Op × Answers)}
    (loads : RunLoads st ops) : RunExact st ops := by
  induction ops generalizing st with
  | nil => trivial
  | cons call ops ih =>
    have right := step_right sound loads.1
    refine ⟨fun ok i hi covered => ?_, ih right.sound loads.2⟩
    have there := right.there ok i (by rw [right.keeps.mSize] at hi; exact hi) covered
    exact ⟨there, right.sound.bytes i hi there⟩

/-- A map of which no page is committed yet, with any views. -/
structure Fresh (st : State) : Prop extends FileMap st.map where
  empty : ∀ q, st.map.page q = none
  unwritten : ∀ i, st.written i = none

theorem Fresh.sound {st : State} (fresh : Fresh st) : Sound st where
  toFileMap := fresh.toFileMap
  bytes i _ committed := by
    rw [State.committed, fresh.empty] at committed
    cases committed
  unwritten i _ := fresh.unwritten i

/-- Pages that a call has committed hold the bytes of the file with the writes since, if
whatever was committed was read in full; the memory, the protection and the pages of other
calls may fail as they like. -/
theorem pageIn_exact {st : State} (fresh : Fresh st) {ops : List (Op × Answers)}
    (loads : RunLoads st ops) : RunExact st ops :=
  run_exact_of_sound fresh.sound loads

/-- Two pages of a file, in one view with all access. -/
def sampleState : State where
  map :=
    { mSize := 0x1800
      mProtFlags := pageReadwrite
      fFile := true
      cbReserved := 0x2000
      page := fun _ => none
      cbWriteBitmap := 1
      pWriteBitmap := some fun _ => false
      dups := []
      views := [{ pMapView := 0x10000
                  mOffset := 0
                  mSize := 0x1800
                  mfAccess := 3
                  mOwnerMap := none
                  pCOWBitmap := none
                  attr := fun _ => ⟨false, false, false⟩ }] }
  mapping := fun _ => 0
  file := fun _ => 7
  written := fun _ => none

theorem sampleState_fresh : Fresh sampleState :=
  ⟨⟨rfl, rfl, by decide⟩, fun _ => rfl, fun _ => rfl⟩

/-- There is no memory at first; then both pages are read but not protected; then one is
written. -/
def sampleCalls : List (Op × Answers) :=
  [(.commitPage 0x10000 0 false 2, { fAlloc := fun _ => false, delivery := fun _ => .noSeek }),
    (.commitPage 0x10000 0 false 2,
      { delivery := fun _ => .reads 0x1800, fProtect := fun _ => false }),
    (.commitRange 0x10000 0 true 2, { delivery := fun _ => .noSeek }),
    (.writeView 0x10010 9, { delivery := fun _ => .noSeek }),
    (.commitPage 0x11000 0x1000 false 1, { delivery := fun _ => .noSeek })]

theorem sampleCalls_exact : RunExact sampleState sampleCalls :=
  pageIn_exact sampleState_fresh (by decide +kernel)

/-- The page of a call whose `SetFilePointer` fails stays committed, and the next call reports
its zeros as the page of the file. -/
theorem not_exact_after_failed_read :
    ¬∀ st : State, Fresh st → ∀ ops : List (Op × Answers), RunExact st ops := by
  intro always
  obtain ⟨-, second, -⟩ := always sampleState sampleState_fresh
    [(.commitPage 0x10000 0 false 1, { delivery := fun _ => .noSeek }),
      (.commitPage 0x10000 0 false 1, { delivery := fun _ => .reads 0x1000 })]
  obtain ⟨-, wrong⟩ := second rfl 0 (by decide) ⟨by decide, by decide⟩
  exact absurd wrong (by decide)

end Odin32.MemMapPageIn
