import Odin32.LxExports

/-! # The tables of a well-formed export directory

The functions of a directory are added as entries in the order of their ordinals, and its names
behind the name of the module. What the readers deliver is what stands in the image, so that
both tables are determined by the directory. The entry table is closed only where the names
are converted. -/

set_option autoImplicit false

namespace Odin32.LxExports
open Word ByteMemory ByteTable LxNames LxEntries
open LxReader (BufferedRVARead IsText Readable imageBytes imageByte)

/-- What an export directory says: the RVAs of the functions; for each name its RVA and the
index of its function; and the strings. -/
structure Exported where
  functions : List ℕ
  names : List (ℕ × ℕ)
  text : ℕ → CStr

structure WellFormed (pe : LxFixups.PeModule) (hdr : Headers) (expDir : ExportDirectory)
    (x : Exported) : Prop where
  readable : Readable pe
  present : 0 < hdr.cbExportDir ∧ 0 < hdr.ulRVAExportDir ∧ hdr.ulRVAExportDir < hdr.sizeOfImage
  directory : ∃ bytes, imageBytes pe hdr.ulRVAExportDir sizeofExportDirectory = some bytes ∧
    ExportDirectory.ofBytes bytes = expDir
  base : 1 ≤ expDir.base
  /-- Ordinals are words. -/
  ordinals : expDir.base + x.functions.length ≤ 0x10000
  functions : expDir.numberOfFunctions = x.functions.length
  function : ∀ ul v, x.functions[ul]? = some v → v < 0x100000000 ∧
    imageBytes pe (expDir.addressOfFunctions + 4 * ul) 4 = some (le 4 v)
  forwarder : ∀ v ∈ x.functions, isForwarder hdr v → IsText pe v (x.text v).val ∧
    dot ∈ (x.text v).val
  names : expDir.numberOfNames = x.names.length
  name : ∀ ul v, x.names[ul]? = some v → v.1 < 0x100000000 ∧ v.2 < x.functions.length ∧
    imageBytes pe (expDir.addressOfNames + 4 * ul) 4 = some (le 4 v.1) ∧
    imageBytes pe (expDir.addressOfNameOrdinals + 2 * ul) 2 = some (le 2 v.2) ∧
    IsText pe v.1 (x.text v.1).val

/-! ## What the readers deliver -/

/-- A reader of a module, wherever it has been. -/
structure Reads (pe : LxFixups.PeModule) (this : BufferedRVARead) : Prop where
  valid : this.Valid
  same : this.pe = pe

theorem Reads.read {pe : LxFixups.PeModule} {this : BufferedRVARead} (reads : Reads pe this)
    {r n : ℕ} {bytes : List UInt8} (pos : 0 < n) (there : imageBytes pe r n = some bytes) :
    ∃ next, this.readAtRVA r n = some (next, .ok bytes) ∧ Reads pe next := by
  obtain ⟨next, done, valid, same⟩ := BufferedRVARead.readAtRVA_eq (r := r) reads.valid pos
  rw [reads.same, there] at done
  exact ⟨next, done, valid, same.trans reads.same⟩

theorem isText_unique {pe : LxFixups.PeModule} {r : ℕ} {chars chars' : List UInt8}
    (text : IsText pe r chars) (text' : IsText pe r chars') : chars = chars' := by
  obtain ⟨front, -⟩ := LxReader.imageBytes_split (k := chars.length) text.bytes (by omega)
  rw [List.take_left] at front
  obtain ⟨more, rfl, rest⟩ := (LxReader.isText_append front text.no_zero chars').1 text'
  have last := (LxReader.imageBytes_split (k := chars.length) text.bytes (by omega)).2
  rw [List.drop_left, Nat.add_sub_cancel_left] at last
  have first := (LxReader.imageBytes_split (k := 1) rest.bytes (by omega)).1
  have zero : [0] = (more ++ [0]).take 1 := Option.some.inj (last.symm.trans first)
  cases more with
  | nil => exact (List.append_nil chars).symm
  | cons ch more =>
    obtain ⟨rfl, -⟩ := List.cons.inj zero
    exact absurd List.mem_cons_self rest.no_zero

theorem toCStr_text (name : CStr) : toCStr (name.val ++ [0]) = name := by
  apply Subtype.ext
  show (name.val ++ [0]).takeWhile (· ≠ 0) = name.val
  have all : ∀ ch ∈ name.val, (decide (ch ≠ 0)) = true := fun ch mem => by
    rw [decide_eq_true_eq]
    rintro rfl
    exact name.property mem
  rw [List.takeWhile_append_of_pos all]
  exact List.append_nil _

theorem Reads.dup {pe : LxFixups.PeModule} {this next : BufferedRVARead} (reads : Reads pe this)
    {r : ℕ} {room : ℕ → Bool} {name : CStr} {psz : List UInt8} (word : r < 0x100000000)
    (text : IsText pe r name.val) (done : this.dupString room r = some (next, .ok psz)) :
    Reads pe next ∧ toCStr psz = name := by
  obtain ⟨next', answer, done', answers, valid, same⟩ :=
    @BufferedRVARead.dupString_spec room this reads.valid r word
  obtain ⟨rfl, rfl⟩ := Prod.mk.inj (Option.some.inj (done'.symm.trans done))
  obtain ⟨chars, text', rfl⟩ := answers
  rw [reads.same] at text'
  obtain rfl := isText_unique text text'
  exact ⟨⟨valid, same.trans reads.same⟩, toCStr_text name⟩

theorem lt_of_imageBytes {pe : LxFixups.PeModule} (readable : Readable pe) {r n : ℕ}
    {bytes : List UInt8} (pos : 0 < n) (there : imageBytes pe r n = some bytes) :
    r < 0x100000000 := by
  have inside : imageByte pe r ≠ none := fun outside => by
    rw [LxReader.imageBytes_none outside pos] at there
    cases there
  have present := fun h => inside ((LxReader.imageByte_page readable r).2 h)
  obtain ⟨fits, -⟩ := LxReader.imageBytes_page readable (Nat.dvd_mul_left _ _) present
  omega

/-- All three readers. -/
structure Reading (pe : LxFixups.PeModule) (st : State) : Prop where
  fatFot : Reads pe st.pFATFOTReader
  fnt : Reads pe st.pFNTReader
  name : Reads pe st.pNameReader

/-! ## Functions -/

theorem exists_of_bind {ε α β : Type} {x : Except ε α} {f : α → Except ε β} {b : β}
    (done : x.bind f = .ok b) : ∃ a, x = .ok a ∧ f a = .ok b := by
  cases x with
  | error e => cases done
  | ok a => exact ⟨a, rfl, done⟩

theorem exists_of_map {ε α β : Type} {x : Except ε α} {f : α → β} {b : β}
    (done : x.map f = .ok b) : ∃ a, x = .ok a ∧ f a = b := by
  cases x with
  | error e => cases done
  | ok a => exact ⟨a, rfl, Except.ok.inj done⟩

theorem ok_of_onTable {α : Type} {x : Except Stop α} {a : α} (done : onTable x = .ok a) :
    x = .ok a := by
  cases x with
  | error e => cases done
  | ok b =>
    obtain rfl := Except.ok.inj done
    rfl

/-- The calls that convert the functions from one on. -/
def functionOps (hdr : Headers) (memory : Memory) (base : ℕ) (text : ℕ → CStr) :
    ℕ → List ℕ → List (Op × Env)
  | _, [] => []
  | ul, v :: rest =>
    if v = 0 then functionOps hdr memory base text (ul + 1) rest
    else
      (exportOp (ul + base) v (if isForwarder hdr v then some (text v) else none),
        memory.entry ul) :: functionOps hdr memory base text (ul + 1) rest

variable {c : Setting} {pe : LxFixups.PeModule} {hdr : Headers} {expDir : ExportDirectory}
  {x : Exported} {memory : Memory}

theorem convert_spec (wf : WellFormed pe hdr expDir x) {ul v : ℕ} {st next : State}
    (reading : Reading pe st) (function : x.functions[ul]? = some v)
    (done : convert c hdr memory expDir.base ul v st = .ok next) :
    step c (memory.entry ul) st.tables (exportOp (ul + expDir.base) v
        (if isForwarder hdr v then some (x.text v) else none)) = .ok next.tables ∧
      Reading pe next ∧ next.resNames = st.resNames := by
  obtain ⟨less, -⟩ := List.getElem?_eq_some_iff.1 function
  have mem := List.mem_of_getElem? function
  have ordinal : add32 ul expDir.base = ul + expDir.base :=
    add32_of_lt (by have := wf.ordinals; omega)
  unfold convert at done
  dsimp only at done
  rw [ordinal] at done
  by_cases forwarder : isForwarder hdr v
  · rw [if_pos forwarder] at done ⊢
    cases dup : st.pNameReader.dupString (memory.forwarder ul) v with
    | none => rw [dup] at done; cases done
    | some answer =>
      obtain ⟨pNameReader, psz⟩ := answer
      cases psz with
      | error e => rw [dup] at done; cases done
      | ok psz =>
        rw [dup] at done
        obtain ⟨reads, text⟩ := reading.name.dup (wf.function ul v function).1
          (wf.forwarder v mem forwarder).1 dup
        dsimp only at done
        rw [text] at done
        obtain ⟨tables, stepped, rfl⟩ := exists_of_map done
        exact ⟨ok_of_onTable stepped, ⟨reading.fatFot, reading.fnt, reads⟩, rfl⟩
  · rw [if_neg forwarder] at done ⊢
    obtain ⟨tables, stepped, rfl⟩ := exists_of_map done
    exact ⟨ok_of_onTable stepped, ⟨reading.fatFot, reading.fnt, reading.name⟩, rfl⟩

theorem functionLoop_spec (wf : WellFormed pe hdr expDir x) {functions ul ulRVA : ℕ}
    {st last : State} (reading : Reading pe st) (count : ul + functions = x.functions.length)
    (done : functionLoop c hdr expDir memory functions ul ulRVA st = .ok last) :
    run c (functionOps hdr memory expDir.base x.text ul (x.functions.drop ul)) st.tables =
        .ok last.tables ∧ Reading pe last ∧ last.resNames = st.resNames := by
  induction functions generalizing ul ulRVA st with
  | zero =>
    obtain rfl := Except.ok.inj done
    rw [List.drop_of_length_le (by omega)]
    exact ⟨rfl, reading, rfl⟩
  | succ functions ih =>
    have less : ul < x.functions.length := by omega
    have function := List.getElem?_eq_getElem less
    set v := x.functions[ul]
    obtain ⟨word, there⟩ := wf.function ul v function
    have small := lt_of_imageBytes wf.readable (by decide) there
    obtain ⟨pFATFOTReader, read, reads⟩ := reading.fatFot.read (by decide) there
    have behind : Reading pe { st with pFATFOTReader := pFATFOTReader } :=
      ⟨reads, reading.fnt, reading.name⟩
    rw [List.drop_eq_getElem_cons less, functionOps]
    rw [functionLoop, add32_of_lt small, read] at done
    simp only [ofLe_le_of_lt (show v < 0x100 ^ 4 from word)] at done
    by_cases zero : v = 0
    · rw [if_pos zero] at done ⊢
      have rest := ih behind (by omega) done
      exact rest
    · rw [if_neg zero] at done ⊢
      obtain ⟨next, converted, done⟩ := exists_of_bind done
      obtain ⟨stepped, reading, same⟩ := convert_spec wf behind function converted
      obtain ⟨rest, reading, same_names⟩ := ih reading (by omega) done
      refine ⟨?_, reading, same_names.trans same⟩
      rw [run, stepped]
      exact rest

theorem exportOp_ulOrdinal (ulOrdinal ulRVA : ℕ) (psz : Option CStr) :
    (exportOp ulOrdinal ulRVA psz).ulOrdinal = ulOrdinal := by
  unfold exportOp
  split
  · rfl
  · rfl

theorem functionOps_ascending {base last ul : ℕ} {text : ℕ → CStr} {functions : List ℕ}
    (above : last < ul + base) (small : ul + base + functions.length ≤ 0x10000) :
    Ascending last (functionOps hdr memory base text ul functions) := by
  induction functions generalizing last ul with
  | nil => trivial
  | cons v rest ih =>
    rw [List.length_cons] at small
    rw [functionOps]
    split
    · exact ih (by omega) (by omega)
    · refine ⟨?_, ?_, ih ?_ (by omega)⟩
      · rwa [exportOp_ulOrdinal]
      · rw [exportOp_ulOrdinal]
        omega
      · rw [exportOp_ulOrdinal]
        omega

/-! ## Names -/

/-- The table of resident names is made of these records. -/
structure HoldsNames (names : NameTable) (records : List Record) : Prop where
  table : names.block.Table names.offCur (records.flatMap Record.bytes)
  fits : ∀ r ∈ records, r.Fits 2

/-- The resident names, as a loader reads them up to the entry table. -/
def residentNames (names : NameTable) : Option (List Record) :=
  readRecords 2 names.offCur (slice names.block.bytes 0 names.offCur)

/-- What stands for a name and its ordinal. -/
def resRecord (ulOrdinal : ℕ) (name : CStr) : Record := ⟨name.val.take 127, le 2 ulOrdinal⟩

theorem HoldsNames.residentNames {names : NameTable} {records : List Record}
    (holds : HoldsNames names records) : residentNames names = some records := by
  rw [LxExports.residentNames, holds.table.holds]
  exact readRecords_flatMap holds.fits (Nat.le_of_eq holds.table.length)

theorem resRecord_fits (ulOrdinal : ℕ) (name : CStr) : (resRecord ulOrdinal name).Fits 2 := by
  refine ⟨?_, length_le 2 _⟩
  simp only [resRecord, List.length_take]
  omega

theorem addResName_holds {names next : NameTable} {records : List Record} {ulOrdinal : ℕ}
    {name : CStr} {room : Bool} (holds : HoldsNames names records)
    (done : addResName room names ulOrdinal name = .ok next) :
    HoldsNames next (records ++ [resRecord ulOrdinal name]) := by
  have fits := resRecord_fits ulOrdinal name
  have short : (resRecord ulOrdinal name).name.length = min name.val.length 127 := by
    rw [resRecord, List.length_take, Nat.min_comm]
  have bytes : (UInt8.ofNat (min name.val.length 127) ::
      name.val.take (min name.val.length 127) ++ le 2 ulOrdinal) =
      (resRecord ulOrdinal name).bytes := by
    have whole : name.val.take (min name.val.length 127) = name.val.take 127 :=
      List.take_eq_take_iff.2 (by omega)
    rw [Record.bytes, short, whole]
    rfl
  unfold addResName at done
  dsimp only at done
  split at done
  · cases done
  · rename_i block grown
    obtain rfl := Except.ok.inj done
    obtain ⟨table, free, -⟩ := holds.table.allocateMore (by omega) (by omega) grown
    have len := Record.length_bytes fits
    rw [short] at len
    have put := table.put (l := (resRecord ulOrdinal name).bytes) (by omega)
    refine ⟨?_, ?_⟩
    · rw [bytes, List.flatMap_append, List.flatMap_singleton, ← len]
      exact put
    · intro r mem
      rcases List.mem_append.1 mem with before | new
      · exact holds.fits r before
      · rw [List.mem_singleton.1 new]
        exact fits

theorem nameLoop_spec (wf : WellFormed pe hdr expDir x) {names ul : ℕ} {st last : State}
    {records : List Record} (reading : Reading pe st) (holds : HoldsNames st.resNames records)
    (count : ul + names = x.names.length)
    (done : nameLoop expDir memory names ul st = .ok last) :
    HoldsNames last.resNames (records ++ (x.names.drop ul).map fun v =>
        resRecord (expDir.base + v.2) (x.text v.1)) ∧ last.tables = st.tables := by
  induction names generalizing ul st records with
  | zero =>
    obtain rfl := Except.ok.inj done
    rw [List.drop_of_length_le (by omega), List.map_nil, List.append_nil]
    exact ⟨holds, rfl⟩
  | succ names ih =>
    have less : ul < x.names.length := by omega
    have name := List.getElem?_eq_getElem less
    rw [List.drop_eq_getElem_cons less, List.map_cons]
    set v := x.names[ul]
    obtain ⟨word, index, at_name, at_ordinal, text⟩ := wf.name ul v name
    have ordinals := wf.ordinals
    obtain ⟨pFNTReader, read, reads_fnt⟩ := reading.fnt.read (by decide) at_name
    obtain ⟨pFATFOTReader, read_ordinal, reads_fatFot⟩ :=
      reading.fatFot.read (by decide) at_ordinal
    rw [nameLoop, Nat.mul_comm ul 4, Nat.mul_comm ul 2,
      add32_of_lt (lt_of_imageBytes wf.readable (by decide) at_name), read] at done
    dsimp only at done
    rw [add32_of_lt (lt_of_imageBytes wf.readable (by decide) at_ordinal), read_ordinal] at done
    dsimp only at done
    rw [ofLe_le_of_lt (show v.1 < 0x100 ^ 4 from word),
      ofLe_le_of_lt (show v.2 < 0x100 ^ 2 from Nat.lt_of_lt_of_le index (by omega)),
      Nat.mod_eq_of_lt (show v.2 + expDir.base < 0x10000 by omega),
      Nat.add_comm v.2 expDir.base] at done
    cases dup : st.pNameReader.dupString (memory.name ul) v.1 with
    | none => rw [dup] at done; cases done
    | some answer =>
      obtain ⟨pNameReader, psz⟩ := answer
      cases psz with
      | error e => rw [dup] at done; cases done
      | ok psz =>
        rw [dup] at done
        obtain ⟨reads_name, same⟩ := reading.name.dup word text dup
        dsimp only at done
        rw [same] at done
        obtain ⟨resNames, added, done⟩ := exists_of_bind done
        obtain ⟨held, tables⟩ := ih ⟨reads_fatFot, reads_fnt, reads_name⟩
          (addResName_holds holds (ok_of_onTable added)) (by omega) done
        refine ⟨?_, tables⟩
        rw [List.append_assoc] at held
        exact held

/-! ## The whole directory -/

/-- A converter before its exports are made: the readers, the blocks that the library will hand
out, and what the tables of imports hold. -/
def State.init (pe : LxFixups.PeModule) (buffer bundles names : Mem)
    (modules functions : NameTable) : State where
  pFATFOTReader := .new pe buffer
  pFNTReader := .new pe buffer
  pNameReader := .new pe buffer
  tables := .init bundles modules functions
  resNames := ⟨Block.none names, 0⟩

/-- The functions that are not empty, by their ordinals from one on. -/
def exportedOrdinals : ℕ → List ℕ → List ℕ
  | _, [] => []
  | ulOrdinal, v :: rest =>
    if v = 0 then exportedOrdinals (ulOrdinal + 1) rest
    else ulOrdinal :: exportedOrdinals (ulOrdinal + 1) rest

/-- The calls for all functions of a directory. -/
def allOps (hdr : Headers) (expDir : ExportDirectory) (x : Exported) (memory : Memory) :
    List (Op × Env) :=
  functionOps hdr memory expDir.base x.text 0 x.functions

/-- Both tables are what the directory asks for. -/
structure Converted (c : Setting) (hdr : Headers) (expDir : ExportDirectory) (x : Exported)
    (memory : Memory) (pszModuleName : CStr) (st last : State) : Prop where
  /-- The entry table ends, with the objects and offsets, or the modules and names, of the
  functions that are not empty. -/
  entries : last.tables.entries = some (targets c (allOps hdr expDir x memory) st.tables)
  ordinals : (targets c (allOps hdr expDir x memory) st.tables).map Prod.fst =
    exportedOrdinals expDir.base x.functions
  names : residentNames last.resNames = some (⟨pszModuleName.val, le 2 0⟩ ::
    x.names.map fun v => resRecord (expDir.base + v.2) (x.text v.1))

theorem functionOps_ordinals (base ul : ℕ) (text : ℕ → CStr) (functions : List ℕ) :
    (functionOps hdr memory base text ul functions).map (fun call => call.1.ulOrdinal) =
      exportedOrdinals (ul + base) functions := by
  induction functions generalizing ul with
  | nil => rfl
  | cons v rest ih =>
    rw [functionOps, exportedOrdinals, Nat.add_right_comm ul base 1, ← ih (ul + 1)]
    split
    · rfl
    · rw [List.map_cons, exportOp_ulOrdinal]

theorem targets_ordinals {ops : List (Op × Env)} {st last : Tables} {bs : List Bundle}
    (holds : Holds st bs) (ascending : Ascending st.ulLastOrdinal ops)
    (done : run c ops st = .ok last) :
    (targets c ops st).map Prod.fst = ops.map fun call => call.1.ulOrdinal := by
  induction ops generalizing st bs with
  | nil => rfl
  | cons head ops ih =>
    obtain ⟨op, env⟩ := head
    obtain ⟨next, stepped, done⟩ := ok_of_bind done
    obtain ⟨ascends, small, ascending⟩ := ascending
    obtain ⟨cs, entry, held, meant, ordinal, -⟩ := step_holds c op holds ascends small stepped
    rw [targets, meant, stepped, List.map_cons, List.map_cons,
      ← ih held (by rwa [ordinal]) done]

theorem decode_open {bs : List Bundle} (ok : ∀ b ∈ bs, b.Ok) (rounds ordinal : ℕ) :
    decode rounds ordinal (allBytes bs) = none := by
  induction bs generalizing rounds ordinal with
  | nil =>
    cases rounds with
    | zero => rfl
    | succ rounds => rfl
  | cons b bs ih =>
    cases rounds with
    | zero => rfl
    | succ rounds =>
      rw [allBytes, List.flatMap_cons, decode_bundle (ok b List.mem_cons_self)]
      have rest := ih (fun b mem => ok b (List.mem_cons_of_mem _ mem)) rounds (ordinal + b.count)
      rw [allBytes] at rest
      rw [rest]
      rfl

theorem finalizeExports_entries (room : Bool) (st : State) :
    (finalizeExports room st).tables.entries = st.tables.entries := by
  unfold finalizeExports
  dsimp only
  split
  · rfl
  · rfl

theorem finalizeExports_names (room : Bool) (st : State) :
    residentNames (finalizeExports room st).resNames = residentNames st.resNames := by
  unfold finalizeExports
  dsimp only
  split
  · rfl
  · rfl

/-- With names or without, the names that there are get converted. The table of entries is
closed only with names. -/
theorem exportNames_spec (wf : WellFormed pe hdr expDir x) {st last : State}
    {records : List Record} (reading : Reading pe st) (holds : HoldsNames st.resNames records)
    (done : exportNames hdr expDir memory st = .ok last) :
    HoldsNames last.resNames (records ++ x.names.map fun v =>
        resRecord (expDir.base + v.2) (x.text v.1)) ∧
      if 0 < x.names.length then addLastEntry memory.last st.tables = .ok last.tables
      else last.tables = st.tables := by
  rw [exportNames, wf.names] at done
  by_cases any : 0 < x.names.length
  · rw [if_pos any] at done ⊢
    split at done
    · obtain ⟨named, looped, done⟩ := exists_of_bind done
      obtain ⟨tables, closed, rfl⟩ := exists_of_map done
      obtain ⟨held, same⟩ := nameLoop_spec wf reading holds (Nat.zero_add _) looped
      exact ⟨held, same ▸ ok_of_onTable closed⟩
    · cases done
  · rw [if_neg any] at done ⊢
    obtain rfl := Except.ok.inj done
    obtain none := List.length_eq_zero_iff.1 (Nat.eq_zero_of_not_pos any)
    rw [none, List.map_nil, List.append_nil]
    exact ⟨holds, rfl⟩

theorem Reads.assign {this srcObj : BufferedRVARead} (reads : Reads pe srcObj) :
    Reads pe (this.assign srcObj) :=
  ⟨BufferedRVARead.assign_valid reads.valid, reads.same⟩

theorem exportAll_spec (wf : WellFormed pe hdr expDir x) {st last : State} {ulRVA : ℕ}
    {records : List Record} (reading : Reading pe st) (holds : HoldsNames st.resNames records)
    (done : exportAll c hdr memory ulRVA expDir st = .ok last) :
    ∃ tables, run c (allOps hdr expDir x memory) st.tables = .ok tables ∧
      HoldsNames last.resNames (records ++ x.names.map fun v =>
        resRecord (expDir.base + v.2) (x.text v.1)) ∧
      if 0 < x.names.length then addLastEntry memory.last tables = .ok last.tables
      else last.tables = tables := by
  have copied : ∀ start : State,
      (functionLoop c hdr expDir memory expDir.numberOfFunctions 0 ulRVA start).bind
        (exportNames hdr expDir memory) = .ok last → Reading pe start →
      start.tables = st.tables → start.resNames = st.resNames →
      ∃ tables, run c (allOps hdr expDir x memory) st.tables = .ok tables ∧
        HoldsNames last.resNames (records ++ x.names.map fun v =>
          resRecord (expDir.base + v.2) (x.text v.1)) ∧
        if 0 < x.names.length then addLastEntry memory.last tables = .ok last.tables
        else last.tables = tables := by
    intro start done reading same_tables same_names
    obtain ⟨looped, functions, named⟩ := exists_of_bind done
    rw [wf.functions] at functions
    obtain ⟨ran, reading, kept⟩ := functionLoop_spec wf reading (Nat.zero_add _) functions
    rw [List.drop_zero, same_tables] at ran
    rw [← same_names, ← kept] at holds
    exact ⟨looped.tables, ran, exportNames_spec wf reading holds named⟩
  unfold exportAll at done
  dsimp only at done
  split at done
  · exact copied _ done ⟨reading.fatFot, reading.fatFot.assign, reading.fatFot.assign⟩ rfl rfl
  · exact copied _ done ⟨reading.fatFot, reading.fnt, reading.fatFot.assign⟩ rfl rfl

theorem makeExports_spec (wf : WellFormed pe hdr expDir x) {buffer bundles names : Mem}
    {modules functions : NameTable} {pszModuleName : CStr} {ulRVA : ℕ} {last : State}
    (done : makeExports c hdr memory pszModuleName ulRVA
      (.init pe buffer bundles names modules functions) = .ok last) :
    ∃ tables, run c (allOps hdr expDir x memory) (.init bundles modules functions) = .ok tables ∧
      residentNames last.resNames = some (resRecord 0 pszModuleName ::
        x.names.map fun v => resRecord (expDir.base + v.2) (x.text v.1)) ∧
      ∃ closed, last.tables.entries = Tables.entries closed ∧
        if 0 < x.names.length then addLastEntry memory.last tables = .ok closed
        else closed = tables := by
  obtain ⟨bytes, there, rfl⟩ := wf.directory
  obtain ⟨resNames, added, done⟩ := exists_of_bind done
  have empty : HoldsNames ⟨Block.none names, 0⟩ [] :=
    ⟨Block.none_table names, fun r mem => absurd mem List.not_mem_nil⟩
  have module := addResName_holds empty (ok_of_onTable added)
  have fresh : Reads pe (.new pe buffer) := ⟨BufferedRVARead.new_valid wf.readable buffer, rfl⟩
  obtain ⟨pFATFOTReader, read, reads⟩ := fresh.read (by decide) there
  dsimp only [State.init] at done
  rw [if_neg (not_not_intro wf.present), read] at done
  obtain ⟨final, all, rfl⟩ := exists_of_map done
  obtain ⟨tables, ran, held, closed⟩ := exportAll_spec wf ⟨reads, fresh, fresh⟩ module all
  refine ⟨tables, ran, ?_, final.tables, finalizeExports_entries memory.finalize final, closed⟩
  rw [finalizeExports_names, held.residentNames]
  rfl

theorem allOps_ascending (wf : WellFormed pe hdr expDir x) :
    Ascending 0 (allOps hdr expDir x memory) :=
  functionOps_ascending (by have := wf.base; omega) (by have := wf.ordinals; omega)

theorem resRecord_eq_iff (name : CStr) :
    resRecord 0 name = ⟨name.val, le 2 0⟩ ↔ name.val.length ≤ 127 := by
  rw [resRecord, Record.mk.injEq, and_iff_left rfl]
  refine ⟨fun whole => ?_, List.take_of_length_le⟩
  rw [← whole]
  exact List.length_take_le 127 name.val

/-- The tables that are made for a well-formed directory are what it asks for exactly when it
has a name, so that the table of entries is closed, and the name of the module and the
forwarders fit their fields. -/
theorem makeExports_converted_iff (c : Setting) (pe : LxFixups.PeModule) (hdr : Headers)
    (expDir : ExportDirectory) (x : Exported) (memory : Memory) (pszModuleName : CStr) (ulRVA : ℕ)
    (buffer bundles names : Mem) (modules functions : NameTable) (last : State)
    (wf : WellFormed pe hdr expDir x)
    (done : makeExports c hdr memory pszModuleName ulRVA
      (.init pe buffer bundles names modules functions) = .ok last) :
    Converted c hdr expDir x memory pszModuleName
        (.init pe buffer bundles names modules functions) last ↔
      0 < x.names.length ∧ pszModuleName.val.length ≤ 127 ∧
        RunFits c (allOps hdr expDir x memory) (.init bundles modules functions) := by
  obtain ⟨tables, ran, named, closed, same, ended⟩ := makeExports_spec wf done
  have empty := holds_init bundles modules functions
  have ascending := @allOps_ascending pe hdr expDir x memory wf
  have ordinals := (targets_ordinals empty ascending ran).trans (functionOps_ordinals ..)
  rw [Nat.zero_add] at ordinals
  have module_name : (residentNames last.resNames = some (⟨pszModuleName.val, le 2 0⟩ ::
      x.names.map fun v => resRecord (expDir.base + v.2) (x.text v.1))) ↔
      pszModuleName.val.length ≤ 127 := by
    rw [named, Option.some.injEq, List.cons.injEq, resRecord_eq_iff]
    exact and_iff_left rfl
  rw [← targets_fit empty ascending ran, ← module_name]
  by_cases any : 0 < x.names.length
  · rw [if_pos any] at ended
    obtain ⟨cs, held, all⟩ := run_holds empty ascending ran
    have kept := (addLastEntry_holds held ended).2
    have fits := lossless_iff_fit empty rfl ascending ran ended
    rw [and_iff_left kept, ← same] at fits
    rw [← fits]
    exact ⟨fun all => ⟨any, all.names, all.entries⟩, fun all => ⟨all.2.2, ordinals, all.2.1⟩⟩
  · rw [if_neg any] at ended
    obtain rfl := ended
    obtain ⟨cs, held, -⟩ := run_holds empty ascending ran
    refine iff_of_false (fun all => ?_) (fun all => any all.1)
    have entries := all.entries
    rw [same, Tables.entries, held.table.holds, decode_open held.ok] at entries
    cases entries

/-- An image with one function behind its export directory, and with so many names for it. -/
def sampleBytes (names : ℕ) : List UInt8 :=
  List.replicate 16 0 ++ ([1, 1, names, 0x1028, 0x1030, 0x1034, 0x1080, 0, 0x1038].flatMap (le 4)) ++
    [0, 0, 0, 0] ++ ascii "Beep" ++ [0]

def sampleObjects : List LxPages.LxObject :=
  [{ ulRVA := 0, cbPhysical := 0x200, cbVirtual := 0x1000 },
    { ulRVA := 0x1000, cbPhysical := 0x200, cbVirtual := 0x1000, offPEFile := 0x200 }]

def samplePe (names : ℕ) : LxFixups.PeModule where
  paObjects := sampleObjects
  fAllInOneObject := false
  ulImageBase := 0x400000
  pBaseRelocs := none
  oteBase := fun _ => 0
  file := fun off => (sampleBytes names).getD (off - 0x200) 0

def sampleSetting : Setting where
  opt := {}
  signed := true
  debug := false
  pe := ⟨false, sampleObjects, by decide⟩

def sampleHdr : Headers := ⟨0x1000, 0x60, 0x2000⟩

def sampleDirectory (names : ℕ) : ExportDirectory := ⟨1, 1, names, 0x1028, 0x1030, 0x1034⟩

def sampleExported (names : ℕ) : Exported where
  functions := [0x1080]
  names := List.replicate names (0x1038, 0)
  text := fun _ => ⟨ascii "Beep", by decide⟩

def sampleMemory : Memory where
  entry := fun _ => ⟨true, true⟩
  forwarder := fun _ _ => true
  name := fun _ _ => true
  resName := fun _ => true
  moduleName := true
  last := true
  finalize := true

def sampleName : CStr := ⟨ascii "KERNEL32", by decide⟩

def sampleState (names : ℕ) : State :=
  .init (samplePe names) (fun _ => 0) (fun _ => 0xcc) (fun _ => 0xcc) noNames noNames

theorem samplePe_readable (names : ℕ) : Readable (samplePe names) where
  words := show ∀ o ∈ sampleObjects, _ by decide
  aligned := show ∀ o ∈ sampleObjects, _ by decide
  apart := show sampleObjects.Pairwise _ by decide
  last := show ∀ o ∈ sampleObjects.getLast?, _ by decide
  inFile := show ∀ o ∈ sampleObjects, _ by decide
  header := show ∀ o ∈ sampleObjects.head?, _ by decide

theorem sample_wellFormed {names : ℕ} (few : names = 0 ∨ names = 1) :
    WellFormed (samplePe names) sampleHdr (sampleDirectory names) (sampleExported names) where
  readable := samplePe_readable names
  present := ⟨by decide, by decide, by decide⟩
  directory := by
    refine ⟨(sampleBytes names).take sizeofExportDirectory, ?_⟩
    rcases few with rfl | rfl
    · exact ⟨by decide +kernel, by decide⟩
    · exact ⟨by decide +kernel, by decide⟩
  base := Nat.le_refl 1
  ordinals := show 2 ≤ 0x10000 by decide
  functions := rfl
  function ul v found := by
    cases ul with
    | zero =>
      obtain rfl := Option.some.inj found
      refine ⟨by decide, ?_⟩
      rcases few with rfl | rfl
      · decide +kernel
      · decide +kernel
    | succ ul => cases found
  forwarder v mem inside := by
    rw [List.mem_singleton.1 mem] at inside
    exact absurd inside (by decide)
  names := List.length_replicate.symm
  name ul v found := by
    rcases few with rfl | rfl
    · cases found
    · cases ul with
      | zero =>
        obtain rfl := Option.some.inj found
        exact ⟨by decide, by decide, by decide +kernel, by decide +kernel, by decide,
          by decide +kernel⟩
      | succ ul => cases found

theorem sample_converted : ∃ last,
    makeExports sampleSetting sampleHdr sampleMemory sampleName 0 (sampleState 1) = .ok last ∧
      Converted sampleSetting sampleHdr (sampleDirectory 1) (sampleExported 1) sampleMemory
        sampleName (sampleState 1) last := by
  have made : (makeExports sampleSetting sampleHdr sampleMemory sampleName 0 (sampleState 1)).map
      (fun _ => ()) = .ok () := by decide +kernel
  obtain ⟨last, done, -⟩ := exists_of_map made
  refine ⟨last, done, (makeExports_converted_iff sampleSetting (samplePe 1) sampleHdr
    (sampleDirectory 1) (sampleExported 1) sampleMemory sampleName 0 (fun _ => 0) (fun _ => 0xcc)
    (fun _ => 0xcc) noNames noNames last (sample_wellFormed (.inr rfl)) done).2 ?_⟩
  exact ⟨by decide, by decide, trivial, fun _ _ => trivial⟩

/-- A function without a name leaves the table of entries open. -/
theorem not_converted_without_names : ¬∀ (c : Setting) (pe : LxFixups.PeModule) (hdr : Headers)
    (expDir : ExportDirectory) (x : Exported) (memory : Memory) (pszModuleName : CStr) (ulRVA : ℕ)
    (buffer bundles names : Mem) (modules functions : NameTable) (last : State),
    WellFormed pe hdr expDir x →
    makeExports c hdr memory pszModuleName ulRVA
      (.init pe buffer bundles names modules functions) = .ok last →
    Converted c hdr expDir x memory pszModuleName
      (.init pe buffer bundles names modules functions) last := fun all => by
  have made : (makeExports sampleSetting sampleHdr sampleMemory sampleName 0 (sampleState 0)).map
      (fun last => last.tables.entries) = .ok none := by decide +kernel
  obtain ⟨last, done, still_open⟩ := exists_of_map made
  have entries := (all sampleSetting (samplePe 0) sampleHdr (sampleDirectory 0) (sampleExported 0)
    sampleMemory sampleName 0 (fun _ => 0) (fun _ => 0xcc) (fun _ => 0xcc) noNames noNames last
    (sample_wellFormed (.inl rfl)) done).entries
  rw [still_open] at entries
  cases entries

end Odin32.LxExports
