import Odin32.LxEntriesRun
import Odin32.LxModules

/-! # Forwarders

What `addForwarderEntry` makes of the text behind the dot. The loop that is to convert an
ordinal looks at the first character over and over. -/

set_option autoImplicit false

namespace Odin32.LxEntries
open ByteMemory ByteTable Word LxNames LxPages

/-- The only thing that can go wrong is that there is no memory. -/
def OnlyMemory {α : Type} (room : Bool) (x : Except Stop α) : Prop :=
  ∀ e, x = .error e → e = .notEnoughMemory ∧ room = false

theorem OnlyMemory.ok {α : Type} (room : Bool) (a : α) :
    OnlyMemory room (.ok a : Except Stop α) := fun _ h => by cases h

theorem OnlyMemory.bind {α β : Type} {room : Bool} {x : Except Stop α} {f : α → Except Stop β}
    (first : OnlyMemory room x) (rest : ∀ a, x = .ok a → OnlyMemory room (f a)) :
    OnlyMemory room (x.bind f) := by
  cases x with
  | error e => exact fun e' h => first e' (by cases h; rfl)
  | ok a => exact rest a rfl

theorem OnlyMemory.map {α β : Type} {room : Bool} {x : Except Stop α} {f : α → β}
    (first : OnlyMemory room x) : OnlyMemory room (x.map f) := by
  cases x with
  | error e => exact fun e' h => first e' (by cases h; rfl)
  | ok a => exact OnlyMemory.ok room (f a)

theorem OnlyMemory.not_hangs {α : Type} {room : Bool} {x : Except Stop α}
    (only : OnlyMemory room x) : x ≠ .error .hangs := fun h => by
  have := (only _ h).1
  cases this

theorem OnlyMemory.exists_ok {α : Type} {x : Except Stop α} (only : OnlyMemory true x) :
    ∃ a, x = .ok a := by
  cases x with
  | error e =>
    have := (only e rfl).2
    cases this
  | ok a => exact ⟨a, rfl⟩

theorem allocateMore_eq_none {b : Block} {needed initsize addsize : ℕ} {room : Bool}
    (refused : b.allocateMore needed initsize addsize room = none) : room = false := by
  unfold Block.allocateMore at refused
  split at refused
  · cases refused
  · split at refused
    · cases refused
    · rename_i none_there
      exact Bool.eq_false_of_not_eq_true none_there

theorem reserve_onlyMemory (cbEntry : ℕ) (room : Bool) (st : Tables) :
    OnlyMemory room (st.reserve cbEntry room) := by
  intro e failed
  unfold Tables.reserve at failed
  split at failed
  · rename_i refused
    cases failed
    exact ⟨rfl, allocateMore_eq_none refused⟩
  · cases failed

theorem skipOrdinals_onlyMemory {st : Tables} {cbEntry ulOrdinal rounds : ℕ} {room : Bool}
    (small : ulOrdinal ≤ 65535) (enough : ulOrdinal - st.ulLastOrdinal ≤ rounds)
    (ascends : st.ulLastOrdinal < ulOrdinal) :
    OnlyMemory room (skipOrdinals cbEntry room ulOrdinal rounds st) := by
  induction rounds generalizing st with
  | zero => exact absurd ascends (by omega)
  | succ rounds ih =>
    rw [skipOrdinals, add32_of_lt (by omega)]
    split
    · rename_i gap
      obtain ⟨pos, le, below⟩ := unused_spec gap small
      refine (reserve_onlyMemory _ _ _).bind fun more reserved => ?_
      have same : more.ulLastOrdinal =
          add32 st.ulLastOrdinal (unused ulOrdinal st.ulLastOrdinal) := by
        unfold Tables.reserve at reserved
        split at reserved
        · cases reserved
        · rw [← Except.ok.inj reserved]
          rfl
      rw [add32_of_lt (by omega)] at same
      exact ih (by omega) (by omega)
    · exact OnlyMemory.ok _ _

theorem addModule_onlyMemory {opt : Options} {signed : Bool} (env : Env) {names : NameTable}
    {records : List (List UInt8)} (name : CStr) (holds : LxModules.Holds signed names records) :
    OnlyMemory env.room (addModule opt signed env names name) := by
  have size := holds.table.length
  have searched := LxModules.findModule_eq signed env.last names
    (queryOdin32ModuleName opt name.val) (names.offCur + 1) 1 holds.table.holds (by omega)
    (by omega) holds.length holds.chars
  intro e failed
  simp only [addModule, searched] at failed
  cases found : records.findIdx? fun r =>
      LxModules.answers env.last r (queryOdin32ModuleName opt name.val) with
  | some i => rw [found] at failed; cases failed
  | none =>
    rw [found] at failed
    simp only at failed
    split at failed
    · rename_i refused
      cases failed
      exact ⟨rfl, allocateMore_eq_none refused⟩
    · cases failed

theorem kernel32_short (opt : Options) :
    (queryOdin32ModuleName opt kernel32.val).length ≤ 127 := by
  have lies : ∀ e ∈ paLieList, e.2.length ≤ 127 := by decide +kernel
  unfold queryOdin32ModuleName
  split
  · decide
  · cases found : paLieList.find? fun e => stricmp e.1 kernel32.val with
    | some e => exact lies e (List.mem_of_find?_eq_some found)
    | none => decide

theorem forwarderModule_onlyMemory {opt : Options} {signed : Bool} (env : Env)
    {modules : NameTable} {records : List (List UInt8)} (name : CStr)
    (holds : LxModules.Holds signed modules records) :
    OnlyMemory env.room (forwarderModule opt signed env modules name) := by
  unfold forwarderModule
  by_cases first : modules.offCur = 0
  · rw [if_pos first]
    refine (addModule_onlyMemory env kernel32 holds).map.bind fun next added => ?_
    cases call : addModule opt signed env modules kernel32 with
    | error e => rw [call] at added; cases added
    | ok r =>
      rw [call] at added
      obtain rfl := Except.ok.inj added
      have kept := (LxModules.addModule_eq env kernel32 holds fun _ => kernel32_short opt).2
        r.1 r.2 call
      exact addModule_onlyMemory env name kept.2.2
  · rw [if_neg first]
    exact (OnlyMemory.ok _ _).bind fun next same => by
      rw [← Except.ok.inj same]
      exact addModule_onlyMemory env name holds

theorem addImportFunctionName_onlyMemory (room : Bool) (names : NameTable) (name : CStr) :
    OnlyMemory room (addImportFunctionName room names name) := by
  intro e failed
  simp only [addImportFunctionName] at failed
  split at failed
  · rename_i refused
    cases failed
    exact ⟨rfl, allocateMore_eq_none refused⟩
  · cases failed

/-- The ordinal is one that `addForwarderEntry` accepts. -/
def Accepted (st : Tables) (ulOrdinal : ℕ) : Prop :=
  st.ulLastOrdinal < ulOrdinal ∧ ulOrdinal ≤ 65535

/-- What the members say when a forwarder is added. -/
structure Ready (signed : Bool) (st : Tables) : Prop where
  bundles : ∃ bs, Holds st bs
  modules : ∃ records, LxModules.Holds signed st.modules records
  ordinal : st.ulLastOrdinal < 0xffffffff
  /-- `offCurImpFunctionName` is a `ULONG`. -/
  offset : nextName st.functions < 0x100000000

theorem addForwarderEntry_onlyMemory (opt : Options) {signed : Bool} (env : Env) {st : Tables}
    {ulOrdinal : ℕ} (dll fn : CStr) (ready : Ready signed st) (accepted : Accepted st ulOrdinal)
    (plain : digitFirst fn.val = false) :
    OnlyMemory env.room (addForwarderEntry opt signed env st ulOrdinal dll fn) := by
  obtain ⟨bs, holds⟩ := ready.bundles
  obtain ⟨records, modules⟩ := ready.modules
  obtain ⟨ascends, small⟩ := accepted
  rw [addForwarderEntry, add32_of_lt (by omega), if_neg (by omega)]
  refine (reserve_onlyMemory _ _ _).bind fun more reserved => ?_
  have flag_set : Holds { st with fForwarders := true } bs :=
    ⟨holds.table, holds.ok, holds.last, holds.counted⟩
  obtain ⟨-, -, same_modules, -, ordinal⟩ := reserve_holds flag_set (by decide) reserved
  have ordinal : more.ulLastOrdinal = st.ulLastOrdinal := ordinal
  rw [forwarderOrdinal_eq, if_neg (by simp [plain])]
  refine (OnlyMemory.ok _ _).bind fun ulFnOrdinal _ => ?_
  refine OnlyMemory.bind (forwarderModule_onlyMemory env dll (same_modules ▸ modules)) fun r _ => ?_
  refine OnlyMemory.bind ?_ fun s _ => ?_
  · split
    · exact OnlyMemory.ok _ _
    · exact addImportFunctionName_onlyMemory _ _ _
  · refine (skipOrdinals_onlyMemory small ?_ ?_).bind fun _ _ => OnlyMemory.ok _ _
    · simp only
      omega
    · simp only
      omega

/-- The entries of a table as it would be closed. -/
def Tables.readable (st : Tables) : Option (List (ℕ × Entry)) :=
  decode (st.offCurEntryBundle + 1) 1 (slice st.bundles.bytes 0 st.offCurEntryBundle ++ [0])

/-- The name at an offset of the table of procedure names. -/
def procName (functions : NameTable) (value : ℕ) : List UInt8 :=
  slice functions.block.bytes (value + 1) (functions.block.bytes value).toNat

def AllDigits (target : List UInt8) : Prop := ∀ ch ∈ target, isDigit ch = true

instance (target : List UInt8) : Decidable (AllDigits target) :=
  inferInstanceAs (Decidable (∀ _ ∈ _, _))

def decimal (target : List UInt8) : ℕ :=
  target.foldl (fun n ch => 10 * n + (ch.toNat - 0x30)) 0

/-- The call returns, and when it succeeds there is one forwarder more: to the ordinal that
the target is, when it is made of digits, and else to the name that it is. -/
structure Converts (opt : Options) (signed : Bool) (env : Env) (st : Tables) (ulOrdinal : ℕ)
    (dll target : CStr) : Prop where
  returns : addForwarderEntry opt signed env st ulOrdinal dll target ≠ .error .hangs
  produces : ∀ next, addForwarderEntry opt signed env st ulOrdinal dll target = .ok next →
    ∃ front flags modord value,
      st.readable = some front ∧
      next.readable = some (front ++ [(ulOrdinal, .forward flags modord value)]) ∧
      if AllDigits target.val then flags = fwdOrdinal ∧ value = decimal target.val
      else flags = 0 ∧ procName next.functions value = target.val

theorem readable_eq {st : Tables} {bs : List Bundle} (holds : Holds st bs) :
    st.readable = some (allEntries 1 bs) := by
  rw [Tables.readable, holds.table.holds]
  exact decode_allBytes holds.ok 1 (by rw [holds.table.length]; exact Nat.lt_succ_self _)

theorem procName_eq {room : Bool} {names : NameTable} {name : CStr} {r : ℕ × NameTable}
    (done : addImportFunctionName room names name = .ok r) :
    procName r.2 (nextName names) = name.val.take 127 := by
  simp only [addImportFunctionName] at done
  split at done
  · cases done
  · rename_i block grown
    rw [← Except.ok.inj done]
    have len : (name.val.take (min name.val.length 127)).length = min name.val.length 127 := by
      rw [List.length_take]
      omega
    have stored : slice (store (if names.offCur = 0 then block.put 0 [0] else block).bytes
        (nextName names) (UInt8.ofNat (min name.val.length 127) ::
          name.val.take (min name.val.length 127))) (nextName names)
        (min name.val.length 127 + 1) = UInt8.ofNat (min name.val.length 127) ::
          name.val.take (min name.val.length 127) := by
      have := slice_store_self (if names.offCur = 0 then block.put 0 [0] else block).bytes
        (nextName names) (UInt8.ofNat (min name.val.length 127) ::
          name.val.take (min name.val.length 127))
      rwa [List.length_cons, len] at this
    rw [slice_succ] at stored
    obtain ⟨count, chars⟩ := List.cons.inj stored
    have cut : name.val.take (min name.val.length 127) = name.val.take 127 :=
      List.take_eq_take_iff.2 (by omega)
    have size : (UInt8.ofNat (min name.val.length 127)).toNat = min name.val.length 127 :=
      Nat.mod_eq_of_lt (by omega)
    rw [← cut]
    show slice (store _ _ _) _ (store _ _ _ _).toNat = _
    rw [count, size]
    exact chars

theorem bundleEntry_functions (type : UInt8) (iObj : Option ℕ) (entry : List UInt8)
    (ulOrdinal : ℕ) (st : Tables) :
    (bundleEntry type iObj entry ulOrdinal st).functions = st.functions := by
  unfold bundleEntry
  split
  · rfl
  · rfl

theorem addForwarderEntry_adds {opt : Options} {signed : Bool} {env : Env} {st next : Tables}
    {ulOrdinal : ℕ} {dll fn : CStr} (ready : Ready signed st) (accepted : Accepted st ulOrdinal)
    (done : addForwarderEntry opt signed env st ulOrdinal dll fn = .ok next) :
    digitFirst fn.val = false ∧ ∃ front modord,
      st.readable = some front ∧
      (fn.val = [] →
        next.readable = some (front ++ [(ulOrdinal, .forward fwdOrdinal modord 0)])) ∧
      (fn.val ≠ [] →
        next.readable = some (front ++ [(ulOrdinal,
          (Entry.forward 0 modord (nextName st.functions)).cut)]) ∧
        procName next.functions (nextName st.functions) = fn.val.take 127) := by
  obtain ⟨bs, holds⟩ := ready.bundles
  let c : Setting := ⟨opt, signed, false, false, [], by decide⟩
  obtain ⟨cs, entry, held, meant, -, added⟩ :=
    step_holds c (.forwarder ulOrdinal dll fn) holds accepted.1 accepted.2 done
  obtain ⟨ulFnOrdinal, converted, meant⟩ := ok_of_bind meant
  obtain ⟨r, asked, meant⟩ := ok_of_bind meant
  rw [forwarderOrdinal_eq] at converted
  cases digit : digitFirst fn.val with
  | true => rw [digit] at converted; cases converted
  | false =>
    rw [digit, if_neg Bool.false_ne_true] at converted
    obtain rfl := Except.ok.inj converted
    refine ⟨rfl, allEntries 1 bs, ?_⟩
    by_cases empty : fn.val = []
    · rw [if_pos empty, if_pos (by decide)] at meant
      obtain rfl := Except.ok.inj meant
      refine ⟨r.1.ulModuleOrdinal % 0x10000, readable_eq holds, fun _ => ?_,
        fun nonempty => absurd empty nonempty⟩
      rw [readable_eq held, added]
      rfl
    · rw [if_neg empty, if_neg (by decide)] at meant
      cases named : addImportFunctionName env.room st.functions fn with
      | error e => rw [named] at meant; cases meant
      | ok s =>
        rw [named] at meant
        obtain rfl := Except.ok.inj meant
        refine ⟨r.1.ulModuleOrdinal, readable_eq holds, fun h => absurd h empty, fun _ => ⟨?_, ?_⟩⟩
        · rw [readable_eq held, added]
          simp only [Op.ulOrdinal, addImportFunctionName_fst named]
        · rw [← procName_eq named]
          congr 1
          -- The table of procedure names is that of the one call that adds to it.
          rw [addForwarderEntry, add32_of_lt (by have := accepted.1; have := accepted.2; omega),
            if_neg (by have := accepted.1; have := accepted.2; omega)] at done
          obtain ⟨more, reserved, done⟩ := ok_of_bind done
          obtain ⟨ulFnOrdinal, converted', done⟩ := ok_of_bind done
          obtain ⟨⟨answer, modules⟩, -, done⟩ := ok_of_bind done
          obtain ⟨⟨value, functions⟩, named', done⟩ := ok_of_bind done
          obtain ⟨at_last, skipped, finished⟩ := ok_of_bind done
          rw [forwarderOrdinal_eq, digit, if_neg Bool.false_ne_true, if_neg empty] at converted'
          obtain rfl := Except.ok.inj converted'
          have flag_set : Holds { st with fForwarders := true } bs :=
            ⟨holds.table, holds.ok, holds.last, holds.counted⟩
          obtain ⟨mid, free, -, same_functions, ordinal⟩ :=
            reserve_holds flag_set (by decide) reserved
          rw [if_neg (by decide), same_functions] at named'
          obtain rfl := Except.ok.inj (named'.symm.trans named)
          have started : Holds { more with modules := modules, functions := functions } bs :=
            ⟨mid.table, mid.ok, mid.last, mid.counted⟩
          have below : more.ulLastOrdinal < ulOrdinal := by
            rw [ordinal]
            exact accepted.1
          obtain ⟨-, -, -, -, -, -, kept⟩ :=
            skipOrdinals_holds started (by decide) free below accepted.2 skipped
          rw [← Except.ok.inj finished, bundleEntry_functions, kept]

/-- Whether a target is converted: no digit begins it, and it is empty or a name that is stored
whole and at an offset without the flag of ordinals. -/
def Convertible (st : Tables) (target : List UInt8) : Prop :=
  digitFirst target = false ∧
    (target ≠ [] → target.length ≤ 127 ∧ nextName st.functions < 0x80000000)

theorem allDigits_of_digitFirst {target : List UInt8} (plain : digitFirst target = false) :
    AllDigits target ↔ target = [] := by
  cases target with
  | nil => exact iff_of_true (fun _ h => absurd h List.not_mem_nil) rfl
  | cons ch rest =>
    refine iff_of_false (fun all => ?_) (List.cons_ne_nil _ _)
    have first := all ch (List.mem_cons_self ..)
    rw [digitFirst] at plain
    rw [plain] at first
    exact Bool.false_ne_true first

/-- A forwarder is converted exactly when its ordinal is refused, or when its target does not
begin with a digit and can be stored as it is. -/
theorem addForwarderEntry_converts_iff (opt : Options) (signed : Bool) (st : Tables)
    (ulOrdinal : ℕ) (dll target : CStr) (ready : Ready signed st) :
    (∀ env, Converts opt signed env st ulOrdinal dll target) ↔
      ¬Accepted st ulOrdinal ∨ Convertible st target.val := by
  have plus : add32 st.ulLastOrdinal 1 = st.ulLastOrdinal + 1 :=
    add32_of_lt (by have := ready.ordinal; omega)
  by_cases accepted : Accepted st ulOrdinal
  · rw [or_iff_right (not_not_intro accepted)]
    constructor
    · intro always
      have convert := always ⟨true, true⟩
      have plain : digitFirst target.val = false := by
        by_contra digit
        refine convert.returns ?_
        rw [addForwarderEntry, plus, if_neg (by have := accepted.1; have := accepted.2; omega)]
        obtain ⟨more, reserved⟩ := (reserve_onlyMemory 7 true
          { st with fForwarders := true }).exists_ok
        rw [reserved, Except.bind, forwarderOrdinal_eq, if_pos (by simpa using digit)]
        rfl
      refine ⟨plain, fun nonempty => ?_⟩
      obtain ⟨next, done⟩ := (addForwarderEntry_onlyMemory opt ⟨true, true⟩ dll target ready
        accepted plain).exists_ok
      obtain ⟨-, front, modord, before, -, named⟩ := addForwarderEntry_adds ready accepted done
      obtain ⟨after, name⟩ := named nonempty
      obtain ⟨front', flags, modord', value, before', after', kind⟩ := convert.produces next done
      rw [if_neg fun all => nonempty ((allDigits_of_digitFirst plain).1 all)] at kind
      obtain rfl := Option.some.inj (before.symm.trans before')
      have same := List.append_cancel_left (Option.some.inj (after.symm.trans after'))
      simp only [Entry.cut, List.cons.injEq, Prod.mk.injEq, Entry.forward.injEq, and_true,
        true_and] at same
      obtain ⟨flag, -, offset⟩ := same
      have small : nextName st.functions < 0x80000000 := by
        by_contra large
        have far : flagged (nextName st.functions) := by
          have := ready.offset
          unfold flagged
          omega
        rw [if_pos far, kind.1] at flag
        exact absurd flag (by decide)
      rw [Nat.mod_eq_of_lt small] at offset
      rw [← offset, name] at kind
      refine ⟨?_, small⟩
      have := congrArg List.length kind.2
      rw [List.length_take] at this
      omega
    · rintro ⟨plain, fits⟩ env
      refine ⟨(addForwarderEntry_onlyMemory opt env dll target ready accepted plain).not_hangs, ?_⟩
      intro next done
      obtain ⟨-, front, modord, before, empty, named⟩ := addForwarderEntry_adds ready accepted done
      by_cases nothing : target.val = []
      · refine ⟨front, _, _, _, before, empty nothing, ?_⟩
        rw [if_pos ((allDigits_of_digitFirst plain).2 nothing), nothing]
        exact ⟨rfl, rfl⟩
      · obtain ⟨short, small⟩ := fits nothing
        obtain ⟨after, name⟩ := named nothing
        have whole : (Entry.forward 0 modord (nextName st.functions)).cut =
            .forward 0 (modord % 0x10000) (nextName st.functions) := by
          have unflagged : ¬flagged (nextName st.functions) := by
            unfold flagged
            omega
          rw [Entry.cut, if_neg unflagged, Nat.mod_eq_of_lt small]
        rw [whole] at after
        refine ⟨front, _, _, _, before, after, ?_⟩
        rw [if_neg fun all => nothing ((allDigits_of_digitFirst plain).1 all), name]
        exact ⟨rfl, List.take_of_length_le short⟩
  · refine iff_of_true (fun env => ?_) (.inl accepted)
    have refused : addForwarderEntry opt signed env st ulOrdinal dll target =
        .error .invalidParameter := by
      rw [addForwarderEntry, plus, if_pos]
      unfold Accepted at accepted
      omega
    refine ⟨by rw [refused]; simp, fun next done => ?_⟩
    rw [refused] at done
    cases done

/-- Before the first export, with empty tables of imports. -/
def firstTables : Tables :=
  .init (fun _ => 0) ⟨Block.none fun _ => 0, 0⟩ ⟨Block.none fun _ => 0, 0⟩

theorem firstTables_ready (signed : Bool) : Ready signed firstTables where
  bundles := ⟨[], holds_init _ _ _⟩
  modules := ⟨[], Block.none_table _, fun _ h => absurd h List.not_mem_nil,
    fun _ h => absurd h List.not_mem_nil⟩
  ordinal := by decide
  offset := by decide

theorem ntdll_plain : (0 : UInt8) ∉ ascii "NTDLL" := by decide

def ntdll : CStr := ⟨ascii "NTDLL", ntdll_plain⟩

/-- The forwarder `NTDLL.RtlAllocateHeap` is converted. -/
theorem rtlAllocateHeap_converts :
    (∀ env, Converts {} false env firstTables 1 ntdll ⟨ascii "RtlAllocateHeap", by decide⟩) ↔
      ¬Accepted firstTables 1 ∨ Convertible firstTables (ascii "RtlAllocateHeap") :=
  addForwarderEntry_converts_iff {} false firstTables 1 ntdll ⟨ascii "RtlAllocateHeap", by decide⟩
    (firstTables_ready false)

/-- The forwarder `NTDLL.12` is not. -/
theorem ordinal_not_converts :
    ¬∀ opt signed st ulOrdinal dll target env, Ready signed st →
      Converts opt signed env st ulOrdinal dll target := by
  intro always
  exact (always {} false firstTables 1 ntdll ⟨ascii "12", by decide⟩ ⟨true, true⟩
    (firstTables_ready false)).returns rfl

end Odin32.LxEntries
